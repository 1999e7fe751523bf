import QueryBody.Proofs.AppendedTokens
import QueryBody.Proofs.Blanking
import QueryBody.Proofs.LaterReports
import QueryBody.Proofs.Truncation
import Mathlib.Tactic

/-!
# Comments that are cut off

A space ends every token except a comment or a string.  What follows the space is therefore
a text of its own, and if it is a beginning of a comment then it is one token: a comment
again, with or without its end, or a lone slash.  A body that may be cut off is read as if
a comment were not there, but a slash belongs to no token and is reported.
-/

namespace QueryBody
namespace Lexer

/-! ### A space after a token -/

theorem commonStart_append_of_not_mem {pattern text : List Char} {c : Char} (hc : c ∉ pattern)
    (hrest : (commonStart pattern text).2 = []) :
    commonStart pattern (text ++ [c]) = (text, [c]) := by
  induction pattern generalizing text with
  | nil =>
      obtain rfl : text = [] := by simpa [commonStart] using hrest
      rfl
  | cons p pattern ih =>
      obtain ⟨hfirst, hothers⟩ := List.ne_and_not_mem_of_not_mem_cons hc
      cases text with
      | nil => simp [commonStart, Ne.symm hfirst]
      | cons d text =>
          by_cases hsame : p = d
          · simp only [commonStart, hsame, if_true, List.cons_append] at hrest ⊢
            rw [ih hothers hrest]
          · simp [commonStart, hsame] at hrest

theorem signedMarker_space {whole : Kind} {text : List Char}
    (hrest : (signedMarker whole text).rest = []) :
    signedMarker whole (text ++ [' ']) = ⟨(signedMarker whole text).kind, text, [' ']⟩ := by
  have hpattern : ' ' ∉ markerName ++ ['}'] := by decide
  have hwhole := commonStart_append (markerName ++ ['}']) text
  rw [show (commonStart (markerName ++ ['}']) text).2 = [] from hrest, List.append_nil] at hwhole
  simp only [signedMarker, commonStart_append_of_not_mem hpattern hrest, hwhole]

theorem marker_space {text : List Char} (hrest : (marker text).rest = []) :
    marker (text ++ [' ']) = ⟨(marker text).kind, text, [' ']⟩ := by
  by_cases hopen : text.head? = some '#'
  · obtain ⟨text, rfl⟩ := List.head?_eq_some_iff.mp hopen
    exact congrArg (Match.after '#') (signedMarker_space hrest)
  by_cases hclose : text.head? = some '/'
  · obtain ⟨text, rfl⟩ := List.head?_eq_some_iff.mp hclose
    exact congrArg (Match.after '/') (signedMarker_space hrest)
  have hpattern : ' ' ∉ markerName := by decide
  have hunsigned : ∀ c, text.head? ≠ some c → c ≠ ' ' → (text ++ [' ']).head? ≠ some c := by
    intro c hother hspace
    cases text with
    | nil => simpa using Ne.symm hspace
    | cons d text => exact hother
  rw [marker_of_unsigned hopen hclose] at hrest ⊢
  rw [marker_of_unsigned (hunsigned '#' hopen (by decide)) (hunsigned '/' hclose (by decide)),
    commonStart_append_of_not_mem hpattern hrest]

theorem brace_space {text : List Char} (hrest : (brace text).rest = []) :
    brace (text ++ [' ']) = ⟨(brace text).kind, text, [' ']⟩ := by
  by_cases hdouble : text.head? = some '{'
  · obtain ⟨text, rfl⟩ := List.head?_eq_some_iff.mp hdouble
    exact congrArg (Match.after '{') (marker_space hrest)
  · rw [brace_of_single hdouble] at hrest ⊢
    obtain rfl : text = [] := hrest
    rfl

/-- The kinds of tokens that go on after a space. -/
def goesOn (kind : Kind) : Bool :=
  match kind with
  | .lineComment | .blockComment | .unterminatedComment | .unterminatedString => true
  | _ => false

theorem begun?_space {c : Char} {text : List Char} {m : Match} (hbegun : begun? c text = some m)
    (hrest : m.rest = []) (hends : goesOn m.kind = false) (hblank : isBlank c = false) :
    begun? c (text ++ [' ']) = some ⟨m.kind, text, [' ']⟩ := by
  by_cases hbrace : c = '{'
  · subst hbrace
    cases hbegun
    exact congrArg some (brace_space hrest)
  · have hsplits := begun?_splits hbegun
    rw [Match.Splits, hrest, List.append_nil] at hsplits
    have hspace : endsBefore m.kind ' ' = true := by
      have hstarts := starts_of_begun? hbegun
      cases hkind : m.kind <;> rw [hkind] at hstarts hends <;>
        first | rfl | contradiction | simp [starts, hbrace, hblank] at hstarts
    have hfound := begun?_append hbegun (.of_ends hspace [] _)
    rwa [hsplits] at hfound

theorem begun?_space_eq_none {c : Char} {text : List Char} (hnone : begun? c text = none) :
    begun? c (text ++ [' ']) = none := by
  by_cases htext : text = []
  · subst htext
    have hbegins := begins c
    generalize begun? c = scan at hnone hbegins ⊢
    cases hbegins with
    | comment => rfl
    | nothing => rfl
    | _ => contradiction
  · exact (begun?_append_eq_none_iff htext [' ']).mpr hnone

theorem garbage_space {text : List Char} (hrest : (garbage text).rest = []) :
    garbage (text ++ [' ']) = ⟨.garbage, text, [' ']⟩ := by
  induction text with
  | nil => rfl
  | cons c text ih =>
      rw [garbage] at hrest
      split at hrest
      · contradiction
      next hnone =>
        have hspace := begun?_space_eq_none (Option.not_isSome_iff_eq_none.mp hnone)
        rw [List.cons_append, garbage, hspace, ih hrest]
        rfl

theorem next_space {c : Char} {text : List Char} (hrest : (next c text).rest = [])
    (hends : goesOn (next c text).kind = false) :
    next c (text ++ [' ']) = ⟨(next c text).kind, text, [' ']⟩ ∨
      next c (text ++ [' ']) = ⟨.whitespace, text ++ [' '], []⟩ := by
  cases hbegun : begun? c text with
  | none =>
      have hnext : next c text = garbage text := by rw [next, hbegun, Option.getD_none]
      rw [hnext] at hrest ⊢
      rw [next, begun?_space_eq_none hbegun, Option.getD_none, garbage_space hrest, garbage_kind]
      exact Or.inl rfl
  | some m =>
      have hnext : next c text = m := by rw [next, hbegun, Option.getD_some]
      rw [hnext] at hrest hends ⊢
      cases hblank : isBlank c with
      | false =>
          rw [next, begun?_space hbegun hrest hends hblank, Option.getD_some]
          exact Or.inl rfl
      | true =>
          rw [begun?_of_isBlank hblank] at hbegun
          cases hbegun
          have htext : ∀ d ∈ text, isBlank d = true := List.dropWhile_eq_nil_iff.mp hrest
          have hblanks : ∀ d ∈ text ++ [' '], isBlank d = true := by
            rw [List.forall_mem_append]
            exact ⟨htext, List.forall_mem_singleton.mpr rfl⟩
          have hend : ∀ d, ([] : List Char).head? = some d → isBlank d = false := by simp
          have hrun := run_of_forall hblanks hend
          rw [List.append_nil] at hrun
          rw [next, begun?_of_isBlank hblank, Option.getD_some, hrun]
          exact Or.inr rfl

/-- If a text does not end in a comment or an open string, then a space after it is white space,
perhaps with blanks before it. -/
theorem exists_cut_space {text : List Char}
    (hlast : ∀ piece ∈ (cut text).getLast?, goesOn piece.1 = false) :
    ∃ front blanks, cut (text ++ [' ']) = front ++ [(.whitespace, blanks)] := by
  fun_induction cut text with
  | case1 => exact ⟨[], [' '], by simp [cut, next, begun?, isBlank, run]⟩
  | case2 c text ih =>
      by_cases hrest : (next c text).rest = []
      · rw [hrest, cut] at hlast
        have hends := hlast _ rfl
        rw [List.cons_append, cut]
        rcases next_space hrest hends with hnext | hnext <;> rw [hnext]
        · refine ⟨[((next c text).kind, c :: text)], [' '], ?_⟩
          simp [cut, next, begun?, isBlank, run]
        · exact ⟨[], c :: (text ++ [' ']), by simp [cut]⟩
      · have hmore : cut (next c text).rest ≠ [] := by
          intro hnil
          have hflat := flatMap_cut (next c text).rest
          rw [hnil] at hflat
          exact hrest hflat.symm
        obtain ⟨front, blanks, hcut⟩ := ih fun piece hpiece => hlast piece (by
          rwa [List.getLast?_cons_of_ne_nil hmore])
        refine ⟨((next c text).kind, c :: (next c text).text) :: front, blanks, ?_⟩
        rw [List.cons_append, cut, next_append (Or.inl hrest), hcut, List.cons_append]

theorem goesOn_checked (kind : Kind) (text : List Char) :
    goesOn (checked kind text) = goesOn kind := by
  unfold checked
  split
  · split <;> rfl
  · split <;> rfl
  · rfl

theorem cut_append_of_blanks {text : List Char} {front : List (Kind × List Char)}
    {blanks : List Char} (hcut : cut text = front ++ [(.whitespace, blanks)]) {c : Char}
    (hc : isBlank c = false) (later : List Char) :
    cut (text ++ c :: later) = cut text ++ cut (c :: later) := by
  have hback : [(Kind.whitespace, blanks)] ≠ [] := List.cons_ne_nil _ _
  have hblanks := cut_flatMap hcut
  have hlater := cut_append_text hcut (Or.inl hback) (c :: later)
  simp only [List.flatMap_cons, List.flatMap_nil, List.append_nil] at hblanks hlater
  rw [hlater, hcut, List.append_assoc, List.append_cancel_left_eq, List.singleton_append]
  cases blanks with
  | nil => simp [cut] at hblanks
  | cons d body =>
      have hfound : Kind.whitespace ≠ .garbage := by decide
      obtain ⟨m, hbegun, hpiece, hrest⟩ := begun?_of_cut hblanks hfound
      obtain ⟨hkind, htext⟩ := Prod.mk.inj hpiece
      obtain rfl : body = m.text := (List.cons.inj htext).2
      have hwhole : begun? d m.text = some ⟨.whitespace, m.text, []⟩ := by
        have hsplits := begun?_splits hbegun
        rw [Match.Splits, eq_nil_of_cut_eq_nil hrest.symm, List.append_nil] at hsplits
        rw [hbegun, hkind, ← eq_nil_of_cut_eq_nil hrest.symm]
      exact cut_token hwhole (.of_ends (by rw [endsBefore, hc]; rfl) _ _)

theorem exists_cut_comment {c : Char} {text part rest : List Char} {m : Match}
    (hfound : begun? c text = some m) (hkind : m.kind = .lineComment ∨ m.kind = .blockComment)
    (htext : m.text = part ++ rest) (hrest : rest ≠ []) :
    c = '/' ∧ ∃ kind, cut (c :: part) = [(kind, c :: part)] ∧
      (part = [] ∧ kind = .garbage ∨
        part ≠ [] ∧ (kind = .lineComment ∨ kind = .unterminatedComment)) := by
  have hslash : c = '/' := by
    have hstarts := starts_of_begun? hfound
    rcases hkind with hkind | hkind <;> simpa [hkind, starts] using hstarts
  subst hslash
  have hsound : m.kind.isLexicalError = false := by
    rcases hkind with hkind | hkind <;> rw [hkind] <;> rfl
  refine ⟨rfl, _, cut_broken hfound hsound htext hrest, ?_⟩
  by_cases hpart : part = []
  · refine Or.inl ⟨hpart, ?_⟩
    rcases hkind with hkind | hkind <;> simp [hkind, brokenKind, hpart]
  · refine Or.inr ⟨hpart, ?_⟩
    rcases hkind with hkind | hkind <;> simp [hkind, brokenKind, hpart]

end Lexer

/-- A text that is one comment, with its end. -/
def IsComment (text : String) : Prop :=
  ∃ lexeme, lex text = [lexeme] ∧ (lexeme.kind = .lineComment ∨ lexeme.kind = .blockComment)

open Lexer

variable {source comment part : String}

theorem exists_lex_space (hlast : ∀ last ∈ (lex source).getLast?, goesOn last.kind = false) :
    ∃ before blank, lex (source ++ " ") = before ++ [blank] ∧ blank.kind = .whitespace ∧
      ∀ c later, isBlank c = false →
        lex (source ++ " " ++ String.ofList (c :: later)) =
          before ++ blank :: place (Utf8.size (source ++ " ").toList) (cut (c :: later)) := by
  have hpieces : ∀ piece ∈ (cut source.toList).getLast?, goesOn piece.1 = false := by
    intro piece hpiece
    obtain ⟨last, hmem, hkind⟩ := getLast?_place hpiece 0
    rw [← goesOn_checked piece.1 piece.2, ← hkind]
    exact hlast last hmem
  obtain ⟨front, blanks, hcut⟩ := exists_cut_space hpieces
  have htext : (source ++ " ").toList = source.toList ++ [' '] := String.toList_append
  let blank := Lexeme.placed .whitespace (Utf8.size (front.flatMap Prod.snd)) blanks
  refine ⟨place 0 front, blank, ?_, rfl, ?_⟩
  · rw [lex, htext, hcut, place_append, Nat.zero_add]
    rfl
  · intro c later hc
    have hmore := cut_append_of_blanks hcut hc later
    rw [lex, String.toList_append, String.toList_ofList, htext, hmore, place_append, flatMap_cut,
      hcut, place_append, Nat.zero_add, Nat.zero_add, List.append_assoc]
    rfl

/-- After a space, a beginning of a comment that stops before its end is one token. -/
theorem exists_lex_cut_comment
    (hlast : ∀ last ∈ (lex source).getLast?, goesOn last.kind = false)
    (hcomment : IsComment comment) (htaken : part.toList <+: comment.toList)
    (hproper : part ≠ comment) (hpart : part ≠ "") :
    ∃ before blank last, lex (source ++ " ") = before ++ [blank] ∧ blank.kind = .whitespace ∧
      lex (source ++ " " ++ part) = before ++ [blank] ++ [last] ∧
      last.span.start = Utf8.size (source ++ " ").toList ∧
      (part = "/" → last.kind = .garbage) ∧ (part ≠ "/" → last.kind.isTrivia = true) := by
  obtain ⟨lexeme, hlex, hkind⟩ := hcomment
  obtain ⟨rest, hrest⟩ := htaken
  have hsound : lexeme.kind.isLexicalError = false := by
    rcases hkind with hkind | hkind <;> rw [hkind] <;> rfl
  obtain ⟨c, text, m, hbegun, htext, hsame⟩ :=
    exists_begun?_of_mem_lex (hlex ▸ List.mem_singleton_self lexeme) hsound
  have hwhole : part.toList ++ rest = c :: m.text := by
    have hflat := flatMap_lex comment
    rw [hlex, List.flatMap_singleton, htext] at hflat
    rw [hrest, hflat]
  have hopen : rest ≠ [] := by
    rintro rfl
    rw [List.append_nil] at hrest
    exact hproper (String.toList_inj.mp hrest)
  have hnonempty : part.toList ≠ [] := mt String.toList_eq_nil_iff.mp hpart
  obtain ⟨d, body, hbody⟩ := List.exists_cons_of_ne_nil hnonempty
  rw [hbody, List.cons_append, List.cons.injEq] at hwhole
  obtain ⟨rfl, hmore⟩ := hwhole
  obtain ⟨rfl, kind, hcut, hbroken⟩ :=
    exists_cut_comment hbegun (hsame ▸ hkind) hmore.symm hopen
  obtain ⟨before, blank, hspace, hblank, hlater⟩ := exists_lex_space hlast
  have hagain := hlater '/' body rfl
  rw [hcut, ← hbody, String.ofList_toList] at hagain
  have hslash : part = "/" ↔ body = [] := by
    rw [← String.toList_inj, hbody]
    simp
  refine ⟨before, blank, _, hspace, hblank, hagain.trans (List.append_cons _ _ _), rfl, ?_⟩
  rcases hbroken with ⟨hnil, rfl⟩ | ⟨hmore, rfl | rfl⟩
  · exact ⟨fun _ => rfl, fun hother => absurd (hslash.mpr hnil) hother⟩
  · exact ⟨fun hsame => absurd (hslash.mp hsame) hmore, fun _ => rfl⟩
  · exact ⟨fun hsame => absurd (hslash.mp hsame) hmore, fun _ => rfl⟩

namespace Reader

variable {setting : Setting} {lexeme : Lexeme}

/-- The reader skips what comes next, up to a comma or a bracket, or ignores the rest. -/
def overlooks (reader : Reader) : Bool :=
  match reader.focus with
  | .skip _ _ _ | .skipParameter _ | .stopped _ _ => true
  | _ => false

theorem take_garbage_of_overlooks (hkind : lexeme.kind = .garbage) {reader : Reader}
    (hoverlooks : reader.overlooks = true) : reader.take setting lexeme = reader := by
  have hpass (depth : Nat) : pass lexeme depth = depth := by simp [pass, hkind]
  have hrecovery : KindSet.valueRecovery.contains .garbage = false := rfl
  have hparameter : KindSet.parameterRecovery.contains .garbage = false := rfl
  obtain ⟨focus, holes, reports⟩ := reader
  cases focus with
  | skip depth container next => simp [take, skip, hkind, hrecovery, hpass]
  | skipParameter depth => simp [take, skipParameter, hkind, hparameter, hpass]
  | stopped root isCut => rfl
  | _ => contradiction

/-- Garbage is reported wherever it is not skipped. -/
theorem exists_suffix_take_garbage (setting : Setting) (hkind : lexeme.kind = .garbage)
    {reader : Reader} (hoverlooks : reader.overlooks = false) :
    ∃ diagnostic, diagnostic.IsAbout lexeme.toToken ∧
      Report.add diagnostic reader.reports <:+ (reader.take setting lexeme).reports := by
  have hcut : setting.isCutIn lexeme = false := by
    simp [Setting.isCutIn, Lexeme.isOpen, hkind]
  have hmarker : setting.isCutInMarker lexeme = false := by
    simp [Setting.isCutInMarker, hcut, hkind]
  have hrecovery : KindSet.valueRecovery.contains .garbage = false := rfl
  have hfirst : KindSet.valueFirst.contains .garbage = false := rfl
  obtain ⟨focus, holes, reports⟩ := reader
  -- at each place the report comes first, and the recovery after it only adds more
  have hvalue (holes : List Hole) : (value setting lexeme holes reports).reports =
      Report.add (Report.noValue lexeme) reports := by
    simp [value, hcut, hrecovery, hkind, Lexeme.scalar?]
  cases focus with
  | value => exact ⟨_, Report.noValue_isAbout lexeme, (hvalue holes).symm ▸ List.suffix_rfl⟩
  | part container comma =>
      cases container with
      | array opener items =>
          refine ⟨_, Report.noValue_isAbout lexeme, ?_⟩
          simp only [take, part, hkind, hrecovery, hvalue, Bool.false_eq_true, if_false]
          exact List.suffix_rfl
      | object opener members =>
          refine ⟨_, Report.noProperty_isAbout lexeme, ?_⟩
          simp only [take, part, property, hkind, hrecovery, hcut, reduceCtorEq,
            Bool.false_eq_true, if_false]
          exact suffix_skip _ _ _ _ _ _
  | separator container =>
      refine ⟨_, Report.instead_isAbout .missingComma lexeme, ?_⟩
      simp only [take, separator, hkind, hrecovery, Bool.false_eq_true, if_false]
      split
      · exact suffix_part _ _ _ _ _ _
      · exact suffix_skip _ _ _ _ _ _
  | colon opener members key =>
      refine ⟨_, Report.instead_isAbout .expectedColon lexeme, ?_⟩
      simp only [take, colon, hcut, hkind, hfirst, reduceCtorEq, Bool.false_eq_true, if_false]
      exact suffix_skip _ _ _ _ _ _
  | parameterName marker =>
      refine ⟨_, Report.instead_isAbout .expectedParameterName lexeme, ?_⟩
      simp only [take, parameterName, hcut, hkind, reduceCtorEq, Bool.false_eq_true, if_false]
      exact suffix_skipParameter _ _ _ _
  | parameterClose marker name =>
      refine ⟨_, Report.instead_isAbout .expectedParameterClose lexeme, ?_⟩
      simp only [take, parameterClose, hmarker, hkind, reduceCtorEq, Bool.false_eq_true, if_false]
      exact suffix_giveUp _ _ _
  | finished root =>
      refine ⟨_, Report.instead_isAbout .trailingContent lexeme, ?_⟩
      simp only [take, hcut, Bool.false_eq_true, if_false]
      exact List.suffix_rfl
  | _ => contradiction

theorem finish_congr_of_fragments {first second : Setting}
    (hfirst : first.allowsFragments = true) (hsecond : second.allowsFragments = true)
    (reader : Reader) : reader.finish first false = reader.finish second false := by
  obtain ⟨focus, holes, reports⟩ := reader
  cases focus with
  | value => cases holes <;> simp [finish, endBefore, hfirst, hsecond]
  | colon opener members key => simp [finish, endAfterName, endIn, hfirst, hsecond]
  | skipParameter depth => cases holes <;> simp [finish, endWithout, endIn, hfirst, hsecond]
  | _ => simp [finish, endBefore, endIn, hfirst, hsecond]

end Reader

/-- A fragment is read up to a space as any longer one is. -/
theorem run_longer {limit : Option Nat} {before : List Lexeme} {blank : Lexeme} {later : String}
    (hlex : lex source = before ++ [blank]) (hblank : blank.kind = .whitespace)
    (hsize : Utf8.size source.toList ≤ Utf8.size later.toList) :
    Reader.start.run ((Options.fragmentWithin limit).setting later) (lex source) =
      Reader.start.run ((Options.fragmentWithin limit).setting source) (lex source) := by
  let long := (Options.fragmentWithin limit).setting later
  let short := (Options.fragmentWithin limit).setting source
  have hcut : ∀ lexeme ∈ significant (lex source), long.isCutIn lexeme = short.isCutIn lexeme ∧
      long.isCutInMarker lexeme = short.isCutInMarker lexeme := by
    intro lexeme hmem
    have hlexeme : lexeme ∈ before := by
      rw [hlex, significant_append, significant_cons_of_isTrivia (by rw [hblank]; rfl),
        significant_nil, List.append_nil] at hmem
      exact List.mem_of_mem_filter hmem
    have hstop : lexeme.span.stop < short.size := (stops_of_lex hlex).2 lexeme hlexeme
    have hlonger : short.size ≤ long.size := hsize
    have hlong : lexeme.span.stop ≠ long.size := by omega
    simp [Setting.isCutInMarker, Setting.isCutIn, hstop.ne, hlong]
  have hclosed : ∀ lexeme ∈ significant (lex source), lexeme.kind ≠ .unterminatedComment := by
    intro lexeme hmem hkind
    have htrivia := isTrivia_of_mem_significant hmem
    rw [hkind] at htrivia
    contradiction
  have hlimit : long.nestingLimit = short.nestingLimit := rfl
  calc
    Reader.start.run long (lex source)
    _ = Reader.start.run long (significant (lex source)) := Reader.run_significant (Or.inl rfl) _
    _ = Reader.start.run short (significant (lex source)) :=
          Reader.run_congr hlimit hcut hclosed _
    _ = Reader.start.run short (lex source) := (Reader.run_significant (Or.inl rfl) _).symm

theorem offset_lt_of_mem_run {setting : Setting} :
    ∀ diagnostic ∈ (Reader.start.run setting (lex source)).reports,
      diagnostic.offset < Utf8.size source.toList := by
  refine Reader.forall_mem_run fun lexeme hmem diagnostic hreported => ?_
  obtain ⟨_, hstop, hsize⟩ := (tiles_lex source).mem hmem
  rw [hreported.offset_eq]
  omega

/-- A comment that is cut off somewhere is read like the white space before it, if more of it than
the slash is there or the slash is skipped. -/
theorem parse_cut_comment_iff (limit : Option Nat)
    (hlast : ∀ last ∈ (lex source).getLast?, goesOn last.kind = false)
    (hcomment : IsComment comment) (htaken : part.toList <+: comment.toList)
    (hproper : part ≠ comment) (hpart : part ≠ "") :
    let raw := Options.fragmentWithin limit
    raw.parse (source ++ " " ++ part) = raw.parse (source ++ " ") ↔
      (part = "/" → (Reader.start.run (raw.setting (source ++ " "))
        (lex (source ++ " "))).overlooks = true) := by
  intro raw
  obtain ⟨before, blank, last, hspace, hblank, hlex, hstart, hslash, htrivia⟩ :=
    exists_lex_cut_comment hlast hcomment htaken hproper hpart
  let short := raw.setting (source ++ " ")
  let long := raw.setting (source ++ " " ++ part)
  let reader := Reader.start.run short (lex (source ++ " "))
  have hsize : short.size ≤ long.size := by
    simp [short, long, Options.setting, String.toList_append, Utf8.size_append]
  have hfragments : short.allowsFragments = true ∧ long.allowsFragments = true := ⟨rfl, rfl⟩
  have hshort : raw.parse (source ++ " ") = .ofOutcome (reader.finish short false) := rfl
  have hlong : raw.parse (source ++ " " ++ part) =
      .ofOutcome ((reader.step long last).finish long false) := by
    change Body.ofOutcome ((Reader.start.run long (lex _)).finish long false) = _
    rw [hlex, ← hspace, Reader.run_append, run_longer hspace hblank hsize]
    rfl
  have hsame (hstep : reader.step long last = reader) :
      raw.parse (source ++ " " ++ part) = raw.parse (source ++ " ") := by
    rw [hlong, hshort, hstep, Reader.finish_congr_of_fragments hfragments.2 hfragments.1]
  -- both runs come to the same place; the one token that is left is trivia but for a lone `/`
  by_cases hpartSlash : part = "/"
  · have hkind := hslash hpartSlash
    have htake : reader.step long last = reader.take long last :=
      Reader.step_of_not_isTrivia (by rw [hkind]; rfl) reader
    constructor
    · intro hparse _
      by_contra hreads
      obtain ⟨diagnostic, habout, hsuffix⟩ :=
        Reader.exists_suffix_take_garbage long hkind (Bool.eq_false_of_not_eq_true hreads)
      -- no report is at the slash yet, so this one is not dropped as a repeated one
      have hearlier : ∀ earlier ∈ reader.reports, earlier.offset < diagnostic.offset := by
        rw [habout.offset_eq, hstart]
        exact offset_lt_of_mem_run
      rw [hlong, hshort, htake] at hparse
      have hreports : (reader.take long last).reports = reader.reports := by
        have hdiagnostics := congrArg (·.diagnostics.toList.reverse) hparse
        simpa [Body.ofOutcome, Reader.finish_reports_of_fragments hfragments.1,
          Reader.finish_reports_of_fragments hfragments.2] using hdiagnostics
      rw [hreports, Report.add_of_forall_lt hearlier] at hsuffix
      have hlength := hsuffix.length_le
      simp at hlength
    · intro hoverlooks
      exact hsame (htake.trans (Reader.take_garbage_of_overlooks hkind (hoverlooks hpartSlash)))
  · refine iff_of_true (hsame ?_) fun hother => absurd hother hpartSlash
    rw [Reader.step, if_pos (htrivia hpartSlash)]
    simp [Reader.ignore, hfragments.2]

theorem parse_cut_comment_of_two_lines :
    (Options.fragmentWithin (some 1)).parse "[\x7b\"a\" /* 1\n" =
      (Options.fragmentWithin (some 1)).parse "[\x7b\"a\" " := by
  have hlast : ∀ last ∈ (lex "[\x7b\"a\"").getLast?, goesOn last.kind = false := by
    have hlex : (lex "[\x7b\"a\"").getLast? = some (.placed .string 2 ['"', 'a', '"']) := by
      decide +kernel
    simp [hlex, Lexeme.placed, goesOn]
  have hcomment : IsComment "/* 1\n 2 */" :=
    ⟨.placed .blockComment 0 "/* 1\n 2 */".toList, by decide +kernel, Or.inr rfl⟩
  have htaken : "/* 1\n".toList <+: "/* 1\n 2 */".toList := by decide
  exact (parse_cut_comment_iff (some 1) hlast hcomment htaken (by decide) (by decide)).mpr
    fun hslash => absurd hslash (by decide)

/-- A slash after an item is reported, also if it is the beginning of a comment. -/
theorem parse_ne_of_slash :
    ¬∀ (limit : Option Nat) (source comment part : String),
      (∀ last ∈ (lex source).getLast?, goesOn last.kind = false) → IsComment comment →
        part.toList <+: comment.toList → part ≠ comment → part ≠ "" →
          (Options.fragmentWithin limit).parse (source ++ " " ++ part) =
            (Options.fragmentWithin limit).parse (source ++ " ") := by
  intro hall
  have hlast : ∀ last ∈ (lex "[1").getLast?, goesOn last.kind = false := by
    have hlex : (lex "[1").getLast? = some (.placed .number 1 ['1']) := by
      decide +kernel
    simp [hlex, Lexeme.placed, goesOn]
  have hcomment : IsComment "// x" :=
    ⟨.placed .lineComment 0 "// x".toList, by decide +kernel, Or.inl rfl⟩
  have hsame := hall none "[1" "// x" "/" hlast hcomment (by decide) (by decide) (by decide)
  have hreported : ((Options.fragmentWithin none).parse "[1 /").diagnostics.isEmpty = false := by
    decide +kernel
  have hsilent : ((Options.fragmentWithin none).parse "[1 ").diagnostics.isEmpty = true := by
    decide +kernel
  have hbodies : (Options.fragmentWithin none).parse "[1 /" =
      (Options.fragmentWithin none).parse "[1 " := hsame
  rw [hbodies, hsilent] at hreported
  contradiction

end QueryBody
