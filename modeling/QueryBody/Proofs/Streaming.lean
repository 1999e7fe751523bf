import QueryBody.Proofs.Growth
import QueryBody.Proofs.Truncation
import Mathlib.Tactic

/-!
# Bodies that arrive piece by piece

Every beginning of a complete body is read as far as the tokens that can no longer
change.  Of two beginnings, the longer one is read at least as far, and so its root
only adds to the root of the shorter one.
-/

namespace QueryBody
namespace Reader

variable {raw strict : Setting} {reader : Reader} {lexemes before : List Lexeme}
  {token last : Lexeme} {part : List Char}

theorem finish_value_brace {hole : Hole} {rest : List Hole} {reports : List Diagnostic}
    (hraw : raw.allowsFragments = true) (hkind : last.kind = .braceOpen)
    (hquiet : (value raw last (hole :: rest) reports).reports = []) :
    ((value raw last (hole :: rest) reports).finish raw false).root =
      Hole.cutOff (hole :: rest) := by
  have hopen : raw.isCutIn last = false := by simp [Setting.isCutIn, Lexeme.isOpen, hkind]
  have hvalue : value raw last (hole :: rest) reports =
      openContainer raw last (hole :: rest) reports := by
    simp [value, hopen, hkind, KindSet.valueRecovery, KindSet.contains]
  rw [hvalue] at hquiet ⊢
  unfold openContainer at hquiet ⊢
  split at hquiet
  · exact (Report.add_ne_nil _ _ hquiet).elim
  · simp only [finish, endIn, hraw, if_true]
    rw [cutRoot_opening]
    rfl

theorem finish_part_brace {container : Container} {comma : Option Token} {holes : List Hole}
    {reports : List Diagnostic} (hraw : raw.allowsFragments = true)
    (hkind : last.kind = .braceOpen)
    (hexpects : (Focus.part container comma).Expects .parameterOpen)
    (hquiet : (take raw ⟨.part container comma, holes, reports⟩ last).reports = []) :
    ((take raw ⟨.part container comma, holes, reports⟩ last).finish raw false).root =
      some (container.cutOff holes) := by
  have hfirst : KindSet.valueFirst.contains last.kind = true := by rw [hkind]; rfl
  cases container with
  | array opener items =>
      rw [take_part_array hfirst] at hquiet ⊢
      exact finish_value_brace hraw hkind hquiet
  | object opener members => simp [Focus.Expects, beginsPart, Container.closer] at hexpects

/-- Only the root can begin with a brace that may yet become the marker of a parameter. -/
theorem finish_brace (hfollows : reader.Follows lexemes) (hraw : raw.allowsFragments = true)
    (hkind : last.kind = .braceOpen) (hexpects : reader.focus.Expects .parameterOpen)
    (hinner : lexemes ≠ []) (hquiet : (reader.take raw last).reports = []) :
    ((reader.take raw last).finish raw false).root = reader.cutRoot := by
  cases hfollows with
  | value hsurround reports =>
      cases hsurround with
      | nil => exact absurd rfl hinner
      | cons hsurround hawaits => exact finish_value_brace hraw hkind hquiet
  | opened hsurround hholds hempty reports => exact finish_part_brace hraw hkind hexpects hquiet
  | separated hsurround hholds hne hcomma reports =>
      exact finish_part_brace hraw hkind hexpects hquiet
  | separator hsurround hholds hne reports =>
      rename_i container holes front back
      cases container <;> simp [Focus.Expects, Container.closer] at hexpects
  | colon hsurround hawaits hname reports => simp [Focus.Expects] at hexpects
  | parameterName hsurround hmarker reports => simp [Focus.Expects] at hexpects
  | parameterClose hsurround hmarker hname reports => simp [Focus.Expects] at hexpects
  | finished hspells reports => simp [Focus.Expects] at hexpects

theorem finish_name {marker : Token} {holes : List Hole} {reports : List Diagnostic}
    (hraw : raw.allowsFragments = true) (hkind : last.kind = .identifier) :
    ((take raw ⟨.parameterName marker, holes, reports⟩ last).finish raw false).root =
      Hole.cutOff holes := by
  simp only [take, parameterName, hkind, if_true]
  split
  · rfl
  · simp [finish, endBefore, hraw]

theorem finish_broken (hfollows : reader.Follows lexemes) (hstrict : strict.allowsFragments = false)
    (hraw : raw.allowsFragments = true) (hstop : last.span.stop = raw.size)
    (hsilent : (reader.step strict token).reports = [])
    (hquiet : (reader.step raw last).reports = []) (hinto : BrokenInto token part last)
    (hinner : token.kind = .parameterOpen → lexemes ≠ []) :
    ((reader.step raw last).finish raw false).root = reader.cutRoot := by
  have hexpects (hsignificant : token.kind.isTrivia = false) :
      reader.focus.Expects token.kind := by
    rw [step_of_not_isTrivia hsignificant] at hsilent
    exact expects_of_silent hfollows (Setting.isCutInMarker_of_strict hstrict token) hsilent
  have hreports := reports_eq_nil_of_suffix (suffix_step strict reader token) hsilent
  cases hinto with
  | trivia htrivia =>
      simp only [step, htrivia, if_true] at hquiet ⊢
      rw [ignore_of_silent hquiet]
      exact (finish_of_follows hfollows hraw).1
  | changing hopen hsignificant hrecovery =>
      rw [step_of_not_isTrivia (not_isTrivia_of_isOpen hopen)] at hquiet ⊢
      rw [take_of_isCutIn hfollows (isCutIn_of_isOpen hraw hstop hopen) hquiet]
      rfl
  | slash hcomment hpart hkind =>
      have hnot : ¬reader.focus.Expects last.kind := by
        rw [hkind]
        exact not_expects (Or.inl rfl) _
      exact absurd hquiet (step_unexpected hfollows (by simp [Lexeme.isOpen, hkind])
        (by simp [hkind]) (by simp [hkind, Kind.isTrivia]) hnot)
  | word hname hkind =>
      have hmem : last.kind ∈ [Kind.trueWord, .falseWord, .nullWord, .identifier] :=
        hkind ▸ Lexer.wordKind_mem part
      have hexpected := hexpects (by rw [hname]; rfl)
      rw [hname] at hexpected
      have hidentifier := (step_name_silent_iff hfollows hreports hexpected hmem).mp hquiet
      obtain ⟨marker, hfocus⟩ := parameterName_of_expects hexpected
      rw [step_of_not_isTrivia (by rw [hidentifier]; rfl)]
      obtain ⟨focus, holes, reports⟩ := reader
      change focus = .parameterName marker at hfocus
      subst hfocus
      exact finish_name hraw hidentifier
  | brace hmarker hpart hkind =>
      have hsignificant : last.kind.isTrivia = false := by rw [hkind]; rfl
      rw [step_of_not_isTrivia hsignificant] at hquiet ⊢
      rcases hmarker with hmarker | hmarker
      · have hexpected := hexpects (by rw [hmarker]; rfl)
        rw [hmarker] at hexpected
        exact finish_brace hfollows hraw hkind hexpected (hinner hmarker) hquiet
      · have hexpected := hexpects (by rw [hmarker]; rfl)
        rw [hmarker] at hexpected
        have hcut : raw.isCutInMarker last = true := by
          simp [Setting.isCutInMarker, hraw, hkind, hstop]
        rw [take_of_isCutInMarker hfollows (awaitsMarker_of_expects hexpected) hcut]
        rfl

end Reader

theorem Spells.type_of_parameterOpen {value : Value} {lexemes rest : List Lexeme} {token : Lexeme}
    (hspells : Spells value lexemes) (hlexemes : lexemes = token :: rest)
    (hkind : token.kind = .parameterOpen) : value.type = .parameter := by
  cases hspells with
  | scalar hcontent =>
      cases hlexemes
      simp [Lexeme.scalar?, hkind] at hcontent
  | parameter hopening hname hclosing => rfl
  | array hopening hclosing hrow hparts =>
      cases hlexemes
      simp [hkind] at hopening
  | object hopening hclosing hrow hnames hparts =>
      cases hlexemes
      simp [hkind] at hopening

/-! ### How far a beginning is read -/

variable {limit : Option Nat} {source taken : String} {value : Value}

/-- What a complete body would be if it were cut off after these tokens. -/
def rootAfter (limit : Option Nat) (source : String) (lexemes : List Lexeme) : Option Value :=
  (Reader.start.run ((Options.groupWithin limit).setting source) lexemes).cutRoot

/-- A beginning of a complete body is read up to a token that it does not go beyond. -/
structure ReadsUpTo (limit : Option Nat) (source taken : String) (front rest : List Lexeme) :
    Prop where
  tokens : lex source = front ++ rest
  root : ((Options.fragmentWithin limit).parse taken).root = rootAfter limit source front
  reached : front.flatMap Lexeme.text <+: taken.toList
  stopped : ∀ token back, rest = token :: back →
    taken.toList <+: front.flatMap Lexeme.text ++ token.text

theorem root_of_whole_token {before after : List Lexeme} {token : Lexeme}
    (hsound : AllSound (lex source)) (hlex : lex source = before ++ token :: after)
    (hreads : ReadsSilently limit source (before ++ [token]))
    (htaken : taken.toList = (before ++ [token]).flatMap Lexeme.text) :
    ((Options.fragmentWithin limit).parse taken).root = rootAfter limit source before ∨
      ((Options.fragmentWithin limit).parse taken).root =
        rootAfter limit source (before ++ [token]) := by
  have hlexTaken := lex_of_whole hsound (hlex.trans (List.append_cons before token after)) htaken
  let strict := (Options.groupWithin limit).setting source
  let raw := (Options.fragmentWithin limit).setting taken
  rw [parse_of_step hsound.closed hlex hlexTaken]
  rcases Reader.step_whole strict raw hreads.of_append.follows rfl rfl rfl hreads.step with
    hsame | hcut
  · right
    have hfollows := hreads.follows
    rw [Reader.run_append] at hfollows
    rw [hsame, rootAfter, Reader.run_append]
    exact (Reader.finish_of_follows hfollows rfl).1
  · left
    rw [hcut]
    rfl

theorem root_of_broken_token {before : List Lexeme} {token : Lexeme} {part : List Char}
    (hsound : AllSound (lex source)) (hreads : ReadsSilently limit source (before ++ [token]))
    (hbreaks : BreaksOff source taken before token part)
    (hquiet : ((Options.fragmentWithin limit).parse taken).IsSilent)
    (hinner : token.kind = .parameterOpen → significant before ≠ []) :
    ((Options.fragmentWithin limit).parse taken).root = rootAfter limit source before := by
  obtain ⟨after, last, hlex, hlexTaken, hlast, hinto⟩ := exists_lex_of_broken hsound hbreaks
  rw [isSilent_iff_step hsound.closed hlex hlexTaken] at hquiet
  rw [parse_of_step hsound.closed hlex hlexTaken]
  exact Reader.finish_broken hreads.of_append.follows rfl rfl (stops_of_lex hlexTaken).1 hreads.step
    hquiet hinto hinner

theorem exists_readsUpTo_of_whole {before after : List Lexeme}
    (hsilent : ((Options.groupWithin limit).parse source).IsSilent)
    (hlex : lex source = before ++ after) (htaken : taken.toList = before.flatMap Lexeme.text) :
    ∃ front rest, ReadsUpTo limit source taken front rest := by
  obtain ⟨value, hsentence⟩ := isSentence_of_isSilent hsilent
  have hsound := allSound_of_isSentence hsentence
  rcases List.eq_nil_or_concat' before with rfl | ⟨init, token, rfl⟩
  · refine ⟨[], after, hlex, ?_, by simp, ?_⟩
    · rw [Options.parse, lex_of_whole hsound hlex htaken]
      rfl
    · intro token back _
      simp [htaken]
  · have hreads := ReadsSilently.of_lex hsilent hlex
    have hlexInit : lex source = init ++ token :: after := by simpa using hlex
    rcases root_of_whole_token hsound hlexInit hreads htaken with hroot | hroot
    · refine ⟨init, token :: after, hlexInit, hroot, ?_, ?_⟩
      · rw [htaken, List.flatMap_append]
        exact List.prefix_append _ _
      · rintro later back ⟨rfl⟩
        rw [htaken]
        simp
    · refine ⟨init ++ [token], after, hlex, hroot, by rw [htaken], ?_⟩
      intro later back _
      rw [htaken]
      exact List.prefix_append _ _

theorem exists_readsUpTo_of_broken {before : List Lexeme} {token : Lexeme} {part : List Char}
    (hsilent : ((Options.groupWithin limit).parse source).IsSilent)
    (hroot : ((Options.groupWithin limit).parse source).root = some value)
    (hparameter : value.type ≠ .parameter)
    (hquiet : ((Options.fragmentWithin limit).parse taken).IsSilent)
    (hbreaks : BreaksOff source taken before token part) :
    ∃ front rest, ReadsUpTo limit source taken front rest := by
  obtain ⟨found, hsentence⟩ := isSentence_of_isSilent hsilent
  obtain rfl : found = value := by
    rw [parse_of_isSentence hsentence] at hroot
    exact Option.some.inj hroot
  have hreads := ReadsSilently.of_breaksOff hsilent hbreaks
  have hwhole := hbreaks
  obtain ⟨after, rest, hlex, htext, _, _, htaken⟩ := hwhole
  have hinner : token.kind = .parameterOpen → significant before ≠ [] := by
    intro hkind hfirst
    have hspells := hsentence.spells
    rw [hlex, significant_append, hfirst, List.nil_append,
      significant_cons_of_not_isTrivia (by rw [hkind]; rfl)] at hspells
    exact hparameter (hspells.type_of_parameterOpen rfl hkind)
  refine ⟨before, token :: after, hlex, ?_, ?_, ?_⟩
  · exact root_of_broken_token (allSound_of_isSentence hsentence) hreads hbreaks hquiet hinner
  · rw [htaken]
    exact List.prefix_append _ _
  · rintro later back ⟨rfl⟩
    rw [htaken, htext]
    simp

theorem exists_readsUpTo (hsilent : ((Options.groupWithin limit).parse source).IsSilent)
    (hroot : ((Options.groupWithin limit).parse source).root = some value)
    (hparameter : value.type ≠ .parameter) (htaken : taken.toList <+: source.toList)
    (hquiet : ((Options.fragmentWithin limit).parse taken).IsSilent) :
    ∃ front rest, ReadsUpTo limit source taken front rest := by
  obtain ⟨back, hback⟩ := htaken
  have htext : (lex source).flatMap Lexeme.text = taken.toList ++ back := by
    rw [flatMap_lex, hback]
  rcases exists_boundary htext with ⟨before, after, hlex, hwhole⟩ |
    ⟨before, token, after, part, rest, hlex, htoken, hpart, hrest, hbroken⟩
  · exact exists_readsUpTo_of_whole hsilent hlex hwhole
  · exact exists_readsUpTo_of_broken hsilent hroot hparameter hquiet
      ⟨after, rest, hlex, htoken, hpart, hrest, hbroken⟩

theorem ReadsUpTo.further {shorter longer : String} {front rest further remaining : List Lexeme}
    (hshorter : ReadsUpTo limit source shorter front rest)
    (hlonger : ReadsUpTo limit source longer further remaining)
    (hbeginning : shorter.toList <+: longer.toList) :
    shorter = longer ∨ ∃ more, further = front ++ more := by
  have hsame := hshorter.tokens.symm.trans hlonger.tokens
  rcases List.append_eq_append_iff.mp hsame with ⟨more, hmore, _⟩ | ⟨more, hfront, hremaining⟩
  · exact Or.inr ⟨more, hmore⟩
  · cases more with
    | nil => exact Or.inr ⟨[], by simpa using hfront.symm⟩
    | cons token more =>
        -- then the longer one stops before the shorter one has got there
        left
        have hstopped := hlonger.stopped token (more ++ rest) (by simpa using hremaining)
        have hreached : further.flatMap Lexeme.text ++ token.text <+: shorter.toList := by
          refine List.IsPrefix.trans ?_ hshorter.reached
          rw [hfront, List.flatMap_append, List.flatMap_cons, ← List.append_assoc]
          exact List.prefix_append _ _
        have hback := hstopped.trans hreached
        exact String.toList_inj.mp (hbeginning.eq_of_length_le hback.length_le)

theorem rootAfter_below (limit : Option Nat) (source : String) (front more : List Lexeme) :
    Value.RootBelow (rootAfter limit source front) (rootAfter limit source (front ++ more)) := by
  rw [rootAfter, rootAfter, Reader.run_append]
  exact Reader.cutRoot_below_run _ _ more

/-- The root of a complete body continues the root of every beginning that is read. -/
theorem ReadsUpTo.root_below {front rest : List Lexeme}
    (hreads : ReadsUpTo limit source taken front rest)
    (hsilent : ((Options.groupWithin limit).parse source).IsSilent) :
    Value.RootBelow ((Options.fragmentWithin limit).parse taken).root
      ((Options.groupWithin limit).parse source).root := by
  obtain ⟨_, value, _, hrun⟩ := finished_of_isSilent hsilent
  have hbelow := rootAfter_below limit source front rest
  rw [← hreads.root, ← hreads.tokens, rootAfter, hrun] at hbelow
  have hroot : ((Options.groupWithin limit).parse source).root = some value := by
    rw [Options.parse, hrun]
    rfl
  rw [hroot]
  exact hbelow

/-- What a body says only grows while the body arrives.  Its objects must not repeat a key, since
a later value replaces an earlier one, and its root must not be a placeholder, since the first
brace of one is an object as long as nothing else is there. -/
theorem datum_below_of_beginning {shorter longer : String}
    (hsilent : ((Options.groupWithin limit).parse source).IsSilent)
    (hroot : ((Options.groupWithin limit).parse source).root = some value)
    (hkeys : value.HasDistinctKeys) (hparameter : value.type ≠ .parameter)
    (hlonger : longer.toList <+: source.toList) (hshorter : shorter.toList <+: longer.toList)
    (hquietShorter : ((Options.fragmentWithin limit).parse shorter).IsSilent)
    (hquietLonger : ((Options.fragmentWithin limit).parse longer).IsSilent) :
    Datum.RootBelow ((Options.fragmentWithin limit).parse shorter).datum?
      ((Options.fragmentWithin limit).parse longer).datum? := by
  obtain ⟨front, rest, hreads⟩ := exists_readsUpTo hsilent hroot hparameter
    (hshorter.trans hlonger) hquietShorter
  obtain ⟨further, remaining, hreadsFurther⟩ := exists_readsUpTo hsilent hroot hparameter
    hlonger hquietLonger
  have hbelow : Value.RootBelow ((Options.fragmentWithin limit).parse shorter).root
      ((Options.fragmentWithin limit).parse longer).root := by
    rcases hreads.further hreadsFurther hshorter with rfl | ⟨more, rfl⟩
    · exact Value.RootBelow.refl _
    · rw [hreads.root, hreadsFurther.root]
      exact rootAfter_below limit source front more
  have hwhole := hreadsFurther.root_below hsilent
  apply hbelow.datum
  intro later hlater
  rw [hlater, hroot] at hwhole
  exact Value.hasDistinctKeys_of_below hwhole hkeys

/-- A number comes back once it can no longer change. -/
theorem datum_below_of_cut_number :
    Datum.RootBelow ((Options.fragmentWithin none).parse "[\x7b\"a\": 1").datum?
      ((Options.fragmentWithin none).parse "[\x7b\"a\": 1, \"b").datum? := by
  have hsilent : ((Options.groupWithin none).parse "[\x7b\"a\": 1, \"b\": null\x7d]").IsSilent := by
    unfold Body.IsSilent
    decide +kernel
  have hshorter : ((Options.fragmentWithin none).parse "[\x7b\"a\": 1").IsSilent := by
    unfold Body.IsSilent
    decide +kernel
  have hlonger : ((Options.fragmentWithin none).parse "[\x7b\"a\": 1, \"b").IsSilent := by
    unfold Body.IsSilent
    decide +kernel
  let members : List Member :=
    [.pair ⟨⟨.string, 2, 5⟩, "a"⟩ (.scalar ⟨.number, 7, 8⟩ (.number (Numeral.read ['1']))),
      .pair ⟨⟨.string, 10, 13⟩, "b"⟩ (.scalar ⟨.nullWord, 15, 19⟩ .null)]
  have hclosed : ∀ lexeme ∈ lex "[\x7b\"a\": 1, \"b\": null\x7d]",
      lexeme.kind ≠ .unterminatedComment := by
    decide +kernel
  have htokens : significant (lex "[\x7b\"a\": 1, \"b\": null\x7d]") =
      [.placed .bracketOpen 0 ['['], .placed .braceOpen 1 ['\x7b'],
        .placed .string 2 ['"', 'a', '"'], .placed .colon 5 [':'], .placed .number 7 ['1'],
        .placed .comma 8 [','], .placed .string 10 ['"', 'b', '"'], .placed .colon 13 [':'],
        .placed .nullWord 15 ['n', 'u', 'l', 'l'], .placed .braceClose 19 ['\x7d'],
        .placed .bracketClose 20 [']']] := by
    decide +kernel
  have hroot : ((Options.groupWithin none).parse "[\x7b\"a\": 1, \"b\": null\x7d]").root =
      some (.array ⟨.bracketOpen, 0, 1⟩ [.object ⟨.braceOpen, 1, 2⟩ members]) := by
    rw [Options.parse, Reader.run_significant (Or.inr hclosed), htokens]
    rfl
  have hmembers : (Value.object ⟨.braceOpen, 1, 2⟩ members).HasDistinctKeys := by
    refine .object _ (by decide) ?_
    intro key value hmem
    simp only [members, List.mem_cons, Member.pair.injEq, List.not_mem_nil, or_false] at hmem
    rcases hmem with ⟨_, rfl⟩ | ⟨_, rfl⟩ <;> exact .scalar _ _
  have hkeys : (Value.array ⟨.bracketOpen, 0, 1⟩
      [.object ⟨.braceOpen, 1, 2⟩ members]).HasDistinctKeys :=
    .array _ (by simpa using hmembers)
  exact datum_below_of_beginning hsilent hroot hkeys (by decide) (by decide) (by decide) hshorter
    hlonger

end QueryBody
