import QueryBody.Proofs.Acceptance
import QueryBody.Proofs.Expectation
import QueryBody.Proofs.SilentFragment
import QueryBody.Proofs.Tiling
import Mathlib.Tactic

/-!
# Fragments that are not cut off

A fragment and a complete body are read token by token in the same way, up to a token
in which the fragment is cut off.  A fragment that is never cut off is therefore the
same as a complete body, also if it is full of mistakes.  A body without mistakes is
never cut off, unless it is a number that ends where the body ends.
-/

namespace QueryBody
namespace Reader

variable {raw strict : Setting}

def isCutOff (reader : Reader) : Bool :=
  match reader.focus with
  | .stopped _ isCut => isCut
  | _ => false

/-! ### Two runs in lock-step -/

/-- A reader that may cut the body off in a token does so, or takes it like one that may not. -/
theorem take_eq_or_cut (hlimit : raw.nestingLimit = strict.nestingLimit)
    (hstrict : strict.allowsFragments = false) (reader : Reader) (lexeme : Lexeme) :
    (reader.take raw lexeme).isCutOff = true ∨
      reader.take raw lexeme = reader.take strict lexeme := by
  have hstrictMarker := Setting.isCutInMarker_of_strict hstrict lexeme
  have hstrictCut := isCutIn_of_isCutInMarker hstrictMarker
  cases hcut : raw.isCutIn lexeme with
  | false =>
      cases hmarker : raw.isCutInMarker lexeme with
      | false =>
          have hsame := hmarker.trans hstrictMarker.symm
          exact Or.inr (take_congr hlimit (hcut.trans hstrictCut.symm) fun _ => hsame)
      | true =>
          -- a brace at the end matters only to a reader that waits for the closing marker
          cases hawaits : reader.awaitsMarker with
          | false =>
              refine Or.inr (take_congr hlimit (hcut.trans hstrictCut.symm) fun htrue => ?_)
              rw [hawaits] at htrue
              contradiction
          | true =>
              obtain ⟨focus, holes, reports⟩ := reader
              cases focus with
              | parameterClose marker name =>
                  simp [take, parameterClose, hmarker, isCutOff]
              | _ => contradiction
  | true =>
      have hrecovery := Lexeme.not_valueRecovery_of_isOpen (isOpen_of_isCutIn hcut)
      obtain ⟨focus, holes, reports⟩ := reader
      cases focus with
      | value => simp [take, value, hcut, isCutOff]
      | part container comma => simp [take, part_of_isCutIn hcut, isCutOff]
      | separator container =>
          simp only [take, separator, hrecovery]
          by_cases hbegins : beginsPart container lexeme.kind = true
          · simp [hbegins, part_of_isCutIn hcut, isCutOff]
          · simp [hbegins]
      | colon opener members key => simp [take, colon, hcut, isCutOff]
      | parameterName marker => simp [take, parameterName, hcut, isCutOff]
      | parameterClose marker name =>
          simp [take, parameterClose, Setting.isCutInMarker, hcut, isCutOff]
      | skip depth container next => exact Or.inr rfl
      | skipParameter depth => exact Or.inr rfl
      | finished root => simp [take, hcut, isCutOff]
      | stopped root isCut => exact Or.inr rfl

theorem step_eq_or_cut (hlimit : raw.nestingLimit = strict.nestingLimit)
    (hstrict : strict.allowsFragments = false) (reader : Reader) {lexeme : Lexeme}
    (hclosed : lexeme.kind ≠ .unterminatedComment) :
    (reader.step raw lexeme).isCutOff = true ∨
      reader.step raw lexeme = reader.step strict lexeme := by
  unfold step
  split
  · simp [ignore, hclosed]
  · exact take_eq_or_cut hlimit hstrict reader lexeme

theorem run_of_isCutOff {reader : Reader} (hcut : reader.isCutOff = true)
    (lexemes : List Lexeme) : reader.run raw lexemes = reader := by
  obtain ⟨focus, holes, reports⟩ := reader
  cases focus with
  | stopped root isCut => exact run_stopped root isCut holes reports lexemes
  | _ => contradiction

theorem run_eq_or_cut (hlimit : raw.nestingLimit = strict.nestingLimit)
    (hstrict : strict.allowsFragments = false) {lexemes : List Lexeme}
    (hclosed : ∀ lexeme ∈ lexemes, lexeme.kind ≠ .unterminatedComment) (reader : Reader) :
    (reader.run raw lexemes).isCutOff = true ∨
      reader.run raw lexemes = reader.run strict lexemes := by
  induction lexemes generalizing reader with
  | nil => exact Or.inr rfl
  | cons lexeme rest ih =>
      rw [run_cons, run_cons]
      have hlexeme := hclosed lexeme List.mem_cons_self
      rcases step_eq_or_cut hlimit hstrict reader hlexeme with hcut | hsame
      · rw [run_of_isCutOff hcut]
        exact Or.inl hcut
      · rw [hsame]
        exact ih (fun later hlater => hclosed later (List.mem_cons_of_mem lexeme hlater)) _

/-! ### The end of the body -/

theorem isCut_finish_of_isCutOff {reader : Reader} (hcut : reader.isCutOff = true)
    (isGroup : Bool) : (reader.finish raw isGroup).isCut = true := by
  obtain ⟨focus, holes, reports⟩ := reader
  cases focus with
  | stopped root isCut => exact hcut
  | _ => contradiction

theorem finish_eq_of_not_isCut (hraw : raw.allowsFragments = true)
    (hsize : raw.size = strict.size) (isGroup : Bool) {reader : Reader}
    (hwhole : (reader.finish raw isGroup).isCut = false) :
    reader.finish raw isGroup = reader.finish strict isGroup := by
  obtain ⟨focus, holes, reports⟩ := reader
  cases focus with
  | value =>
      cases holes with
      | nil => simp [finish, hsize]
      | cons hole rest => simp [finish, endBefore, hraw] at hwhole
  | part container comma => simp [finish, endIn, hraw] at hwhole
  | separator container => simp [finish, endIn, hraw] at hwhole
  | colon opener members key => simp [finish, endAfterName, endIn, hraw] at hwhole
  | parameterName marker => simp [finish, endBefore, hraw] at hwhole
  | parameterClose marker name => simp [finish, endBefore, hraw] at hwhole
  | skip depth container next => simp [finish, endIn, hraw] at hwhole
  | skipParameter depth =>
      -- a root that is a broken placeholder ends anywhere
      cases holes with
      | nil => rfl
      | cons hole rest => simp [finish, endWithout, endIn, hraw] at hwhole
  | finished root => rfl
  | stopped root isCut => rfl

end Reader

/-- A body that may be cut off, but is not, is the same as a body that must be complete: it has
the same tree and the same diagnostics, whatever is wrong with it. -/
theorem parse_eq_of_not_isCut {isGroup : Bool} {limit : Option Nat} {source : String}
    (hclosed : ∀ lexeme ∈ lex source, lexeme.kind ≠ .unterminatedComment)
    (hwhole : (Options.parse ⟨isGroup, some true, limit⟩ source).isCut = false) :
    Options.parse ⟨isGroup, some true, limit⟩ source =
      Options.parse ⟨isGroup, some false, limit⟩ source := by
  let raw := Options.setting ⟨isGroup, some true, limit⟩ source
  let strict := Options.setting ⟨isGroup, some false, limit⟩ source
  have hfinish : ((Reader.start.run raw (lex source)).finish raw isGroup).isCut = false := hwhole
  have hlimit : raw.nestingLimit = strict.nestingLimit := rfl
  have hsize : raw.size = strict.size := rfl
  have hraw : raw.allowsFragments = true := rfl
  have hstrict : strict.allowsFragments = false := rfl
  have hrun : Reader.start.run raw (lex source) = Reader.start.run strict (lex source) := by
    refine (Reader.run_eq_or_cut hlimit hstrict hclosed Reader.start).resolve_left ?_
    intro hcut
    rw [Reader.isCut_finish_of_isCutOff hcut isGroup] at hfinish
    contradiction
  have houtcome : (Reader.start.run raw (lex source)).finish raw isGroup =
      (Reader.start.run strict (lex source)).finish strict isGroup := by
    rw [Reader.finish_eq_of_not_isCut hraw hsize isGroup hfinish, hrun]
  exact congrArg Body.ofOutcome houtcome

theorem parse_eq_of_trailing_number :
    (Options.parse ⟨false, some true, some 2⟩ "[\x7b\"a\" 1] , 2").isCut = false ∧
      Options.parse ⟨false, some true, some 2⟩ "[\x7b\"a\" 1] , 2" =
        Options.parse ⟨false, some false, some 2⟩ "[\x7b\"a\" 1] , 2" := by
  have hclosed : ∀ lexeme ∈ lex "[\x7b\"a\" 1] , 2", lexeme.kind ≠ .unterminatedComment := by
    have hkinds : (lex "[\x7b\"a\" 1] , 2").all (·.kind ≠ .unterminatedComment) = true := by
      decide +kernel
    simpa using hkinds
  have hwhole : (Options.parse ⟨false, some true, some 2⟩ "[\x7b\"a\" 1] , 2").isCut = false := by
    decide +kernel
  exact ⟨hwhole, parse_eq_of_not_isCut hclosed hwhole⟩

/-! ### Bodies without mistakes -/

theorem stop_lt_of_significant {source : String} {front back : List Lexeme} {lexeme : Lexeme}
    (hsignificant : significant (lex source) = front ++ lexeme :: back) (hback : back ≠ []) :
    lexeme.span.stop < Utf8.size source.toList := by
  obtain ⟨later, rest, rfl⟩ := List.exists_cons_of_ne_nil hback
  have hsublist : (front ++ lexeme :: later :: rest).Sublist (lex source) :=
    hsignificant ▸ List.filter_sublist
  have hordered := (tiles_lex source).pairwise.sublist hsublist
  have hlt : lexeme.span.start < later.span.start :=
    List.rel_of_pairwise_cons (List.pairwise_append.mp hordered).2.1 List.mem_cons_self
  have hmem : later ∈ lex source := hsublist.subset (by simp)
  have hle := (tiles_lex source).stop_le (hsublist.subset (by simp)) hmem hlt
  have hlater := (tiles_lex source).mem hmem
  omega

/-- The last token of a sentence is one that more input could change only if it is a number, and
then it is the whole sentence. -/
theorem Spells.number_of_isOpen {value : Value} {front : List Lexeme} {last : Lexeme}
    (hspells : Spells value (front ++ [last])) (hopen : last.isOpen = true) :
    value = .scalar last.toToken (.number (Numeral.read last.text)) := by
  generalize hlexemes : front ++ [last] = lexemes at hspells
  cases hspells with
  | scalar hcontent =>
      rename_i lexeme content
      obtain ⟨_, hsame⟩ := List.append_inj' (hlexemes.trans (List.nil_append _).symm) rfl
      obtain rfl : last = lexeme := by simpa using hsame
      rcases Lexeme.kind_of_scalar? hcontent with hkind | hkind | hkind | hkind | hkind
      case inr.inl =>
        obtain rfl : .number (Numeral.read last.text) = content := by
          simpa [Lexeme.scalar?, hkind] using hcontent
        rfl
      all_goals simp [Lexeme.isOpen, hkind] at hopen
  | parameter hopening hname hclosing =>
      rename_i opening name closing
      obtain ⟨_, hsame⟩ :=
        List.append_inj' (hlexemes.trans (rfl : _ = [opening, name] ++ [closing])) rfl
      obtain rfl : last = closing := by simpa using hsame
      simp [Lexeme.isOpen, hclosing] at hopen
  | array hopening hclosing hrow hparts =>
      obtain ⟨_, hsame⟩ := List.append_inj' hlexemes rfl
      obtain rfl : last = _ := by simpa using hsame
      simp [Lexeme.isOpen, hclosing] at hopen
  | object hopening hclosing hrow hnames hparts =>
      obtain ⟨_, hsame⟩ := List.append_inj' hlexemes rfl
      obtain rfl : last = _ := by simpa using hsame
      simp [Lexeme.isOpen, hclosing] at hopen

theorem Spells.token_of_number {token : Token} {number : Numeral} {lexemes : List Lexeme}
    (hspells : Spells (.scalar token (.number number)) lexemes) :
    ∃ lexeme, lexemes = [lexeme] ∧ lexeme.toToken = token ∧ lexeme.kind = .number := by
  cases hspells with
  | scalar hcontent =>
      rename_i lexeme
      refine ⟨lexeme, rfl, rfl, ?_⟩
      rcases Lexeme.kind_of_scalar? hcontent with hkind | hkind | hkind | hkind | hkind
      case inr.inl => exact hkind
      all_goals simp [Lexeme.scalar?, hkind] at hcontent

/-- The root is a number and ends at this offset. -/
def Body.EndsInNumber (body : Body) (size : Nat) : Prop :=
  ∃ token number, body.root = some (.scalar token (.number number)) ∧ token.span.stop = size

variable {limit : Option Nat} {source : String} {value : Value}

theorem isCutIn_of_isSentence (hsentence : IsSentence limit (lex source) value)
    {lexeme : Lexeme} (hmem : lexeme ∈ significant (lex source))
    (hcut : ((Options.fragmentWithin limit).setting source).isCutIn lexeme = true) :
    value = .scalar lexeme.toToken (.number (Numeral.read lexeme.text)) ∧
      lexeme.span.stop = Utf8.size source.toList := by
  have hstop : lexeme.span.stop = Utf8.size source.toList := by
    simp only [Setting.isCutIn, Bool.and_eq_true, decide_eq_true_eq] at hcut
    exact hcut.1.2
  obtain ⟨front, back, hsplit⟩ := List.append_of_mem hmem
  obtain rfl : back = [] := by
    by_contra hback
    exact absurd hstop (stop_lt_of_significant hsplit hback).ne
  exact ⟨(hsplit ▸ hsentence.spells).number_of_isOpen (Reader.isOpen_of_isCutIn hcut), hstop⟩

theorem isCutIn_of_number {lexeme : Lexeme} (hmem : lexeme ∈ lex source)
    (hkind : lexeme.kind = .number) (hstop : lexeme.span.stop = Utf8.size source.toList) :
    ((Options.fragmentWithin limit).setting source).isCutIn lexeme = true := by
  have hshape := (isLegible_of_mem_lex hmem).number hkind
  have hopen : lexeme.isOpen = true := by simp [Lexeme.isOpen, hkind, hshape]
  simp [Setting.isCutIn, hopen, hstop, Options.setting, Options.allowsFragments,
    Options.fragmentWithin]

theorem parse_fragment_of_isSentence (hsentence : IsSentence limit (lex source) value)
    (hwhole : ∀ lexeme ∈ significant (lex source),
      ((Options.fragmentWithin limit).setting source).isCutIn lexeme = false) :
    (Options.fragmentWithin limit).parse source = ⟨some value, .empty, false⟩ := by
  let raw := (Options.fragmentWithin limit).setting source
  have hroom : Allows limit (([] : List Hole).length + value.nesting) :=
    hsentence.allows.mono (by simp)
  have hrun : Reader.start.run raw (lex source) = ⟨.finished (some value), [], []⟩ := by
    rw [Reader.run_significant (Or.inl rfl)]
    exact hsentence.spells.delivers hwhole [] [] hroom
  change Body.ofOutcome ((Reader.start.run raw (lex source)).finish raw false) = _
  rw [hrun]
  rfl

theorem parse_fragment_of_number {lexeme : Lexeme}
    (htokens : significant (lex source) = [lexeme])
    (hcut : ((Options.fragmentWithin limit).setting source).isCutIn lexeme = true) :
    (Options.fragmentWithin limit).parse source = ⟨none, .empty, true⟩ := by
  let raw := (Options.fragmentWithin limit).setting source
  have hsignificant : lexeme.kind.isTrivia = false := by
    have hmem : lexeme ∈ significant (lex source) := by simp [htokens]
    simpa using (List.mem_filter.mp hmem).2
  have hrun : Reader.start.run raw (lex source) = ⟨.stopped none true, [], []⟩ := by
    rw [Reader.run_significant (Or.inl rfl), htokens, Reader.run_cons, Reader.run_nil,
      Reader.step_of_not_isTrivia hsignificant]
    simp only [Reader.start, Reader.take, Reader.value, raw, hcut, if_true]
    rfl
  change Body.ofOutcome ((Reader.start.run raw (lex source)).finish raw false) = _
  rw [hrun]
  rfl

/-- A body without mistakes is not mistaken for one that is cut off: as a fragment it has the same
tree and no diagnostics.  Only a number that ends where the body ends could go on, and is left
out. -/
theorem parse_fragment_of_isSilent (limit : Option Nat) (source : String)
    (hsilent : ((Options.groupWithin limit).parse source).IsSilent) :
    let complete := (Options.groupWithin limit).parse source
    let fragment := (Options.fragmentWithin limit).parse source
    fragment.IsSilent ∧
      (¬complete.EndsInNumber (Utf8.size source.toList) →
        fragment.tree = complete.tree ∧ fragment.isCut = false) ∧
      (complete.EndsInNumber (Utf8.size source.toList) →
        fragment.root = none ∧ fragment.tree.size = 0 ∧ fragment.isCut = true) := by
  intro complete fragment
  obtain ⟨value, hsentence⟩ := isSentence_of_isSilent hsilent
  have hcomplete : complete = ⟨some value, .empty, false⟩ := parse_of_isSentence hsentence
  by_cases hnumber : complete.EndsInNumber (Utf8.size source.toList)
  · obtain ⟨token, number, hroot, hstop⟩ := hnumber
    rw [hcomplete] at hroot
    obtain rfl : value = .scalar token (.number number) := Option.some.inj hroot
    obtain ⟨lexeme, htokens, rfl, hkind⟩ := hsentence.spells.token_of_number
    have hmem : lexeme ∈ lex source := (List.mem_filter.mp (htokens ▸ List.mem_singleton_self _)).1
    have hcut : ((Options.fragmentWithin limit).setting source).isCutIn lexeme = true :=
      isCutIn_of_number hmem hkind hstop
    have hfragment : fragment = ⟨none, .empty, true⟩ := parse_fragment_of_number htokens hcut
    rw [hfragment]
    exact ⟨rfl, fun hother => absurd ⟨lexeme.toToken, number, by rw [hcomplete], hstop⟩ hother,
      fun _ => ⟨rfl, rfl, rfl⟩⟩
  · have hwhole : ∀ lexeme ∈ significant (lex source),
        ((Options.fragmentWithin limit).setting source).isCutIn lexeme = false := by
      intro lexeme hmem
      by_contra hcut
      obtain ⟨rfl, hstop⟩ := isCutIn_of_isSentence hsentence hmem (by simpa using hcut)
      exact hnumber ⟨lexeme.toToken, _, by rw [hcomplete], hstop⟩
    have hfragment : fragment = ⟨some value, .empty, false⟩ :=
      parse_fragment_of_isSentence hsentence hwhole
    rw [hfragment, hcomplete]
    exact ⟨rfl, fun _ => ⟨rfl, rfl⟩, fun hends => absurd (hcomplete ▸ hends) hnumber⟩

theorem parse_fragment_of_object_and_number :
    let object := "\x7b\"n\": [7, 12]\x7d"
    let complete := (Options.groupWithin (some 2)).parse object
    let fragment := (Options.fragmentWithin (some 2)).parse object
    let number := (Options.fragmentWithin (some 0)).parse " 12"
    (complete.IsSilent ∧ fragment.IsSilent ∧ fragment.tree = complete.tree ∧
        complete.tree.size = 5 ∧ fragment.isCut = false) ∧
      ((Options.groupWithin (some 0)).parse " 12").IsSilent ∧
        number.IsSilent ∧ number.root = none ∧ number.tree.size = 0 ∧ number.isCut = true := by
  intro object complete fragment number
  constructor
  · have hsilent : complete.IsSilent := by
      unfold Body.IsSilent
      decide +kernel
    have htype : complete.root.map Value.type = some .object := by decide +kernel
    have hsize : complete.tree.size = 5 := by decide +kernel
    have hother : ¬complete.EndsInNumber (Utf8.size object.toList) := by
      rintro ⟨token, number, hroot, _⟩
      rw [hroot] at htype
      cases htype
    obtain ⟨hquiet, hkept, _⟩ := parse_fragment_of_isSilent (some 2) object hsilent
    obtain ⟨htree, huncut⟩ := hkept hother
    exact ⟨hsilent, hquiet, htree, hsize, huncut⟩
  · have hsilent : ((Options.groupWithin (some 0)).parse " 12").IsSilent := by
      unfold Body.IsSilent
      decide +kernel
    have htokens : lex " 12" = [.placed .whitespace 0 [' '], .placed .number 1 ['1', '2']] := by
      decide +kernel
    have hroot : ((Options.groupWithin (some 0)).parse " 12").root =
        some (.scalar ⟨.number, 1, 3⟩ (.number (Numeral.read ['1', '2']))) := by
      rw [Options.parse, htokens]
      rfl
    obtain ⟨hquiet, _, hnumber⟩ := parse_fragment_of_isSilent (some 0) " 12" hsilent
    exact ⟨hsilent, hquiet, hnumber ⟨_, _, hroot, by decide⟩⟩

end QueryBody
