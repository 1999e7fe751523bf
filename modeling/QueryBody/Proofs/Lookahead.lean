import QueryBody.Proofs.Beginnings
import Mathlib.Tactic

/-!
# Tokens do not depend on what is far behind them

A token that has been found is found again in front of any other text, if the first
character of that text could not go on with it.  So a body that is cut off between
two tokens and continued in another way keeps the tokens before the cut.
-/

namespace QueryBody
namespace Lexer

/-- No token of this kind goes on with the character. -/
def endsBefore (kind : Kind) (c : Char) : Bool :=
  match kind with
  | .braceClose | .bracketOpen | .bracketClose | .colon | .comma | .newline | .string
  | .blockComment | .parameterOpen | .parameterClose | .endOfInput => true
  | .braceOpen => c ≠ '{'
  | .number => !(c.isDigit || c = '.' || c = 'e' || c = 'E' || c = '+' || c = '-')
  | .trueWord | .falseWord | .nullWord | .identifier => !isWordPart c
  | .whitespace => !isBlank c
  | _ => false

/-- A match is found again in front of another text. -/
def Looks (scan : List Char → Match) : Prop :=
  ∀ text later, Replaces (endsBefore (scan text).kind) later (scan text).rest →
    scan ((scan text).text ++ later) = ⟨(scan text).kind, (scan text).text, later⟩

theorem Replaces.head_eq {later rest : List Char} {kind : Kind}
    (hreplaces : Replaces (endsBefore kind) later rest)
    (hnever : endsBefore kind = fun _ => false) :
    later = [] ∨ later.head? = rest.head? := by
  rcases hreplaces with hnil | hsame | ⟨c, _, hends⟩
  · exact Or.inl hnil
  · exact Or.inr hsame
  · rw [hnever] at hends
    contradiction

theorem Replaces.eq_nil {later rest : List Char} {kind : Kind}
    (hreplaces : Replaces (endsBefore kind) later rest)
    (hnever : endsBefore kind = fun _ => false) (hrest : rest = []) : later = [] := by
  rcases hreplaces.head_eq hnever with hnil | hsame
  · exact hnil
  · rw [hrest] at hsame
    exact List.head?_eq_none_iff.mp hsame

theorem Replaces.of_always {kind : Kind} (halways : ∀ c, endsBefore kind c = true)
    (later : List Char) : Replaces (endsBefore kind) later [] := by
  cases later with
  | nil => exact .nil []
  | cons c later => exact .of_ends (halways c) _ _

/-! ### Numbers -/

theorem sign_eq : sign = lead (fun c => c = '+' || c = '-') stay := by
  funext text
  unfold sign
  split
  · rfl
  · rfl
  next hplus hminus =>
    cases text with
    | nil => rfl
    | cons c text =>
        have hother : ¬(c = '+' ∨ c = '-') := by
          rintro (rfl | rfl)
          · exact hplus text rfl
          · exact hminus text rfl
        simp [lead, hother]

theorem fraction_eq : fraction = lead (fun c => c = '.') (run Char.isDigit) := by
  funext text
  unfold fraction
  split
  · rfl
  next hpoint =>
    cases text with
    | nil => rfl
    | cons c text =>
        have hother : c ≠ '.' := by
          rintro rfl
          exact hpoint text rfl
        simp [lead, hother]

theorem exponent_eq :
    exponent = lead (fun c => c = 'e' || c = 'E') (andThen sign (run Char.isDigit)) := by
  funext text
  cases text with
  | nil => rfl
  | cons c text => simp [exponent, lead, andThen]

/-- The scanner of the digits of a number and what follows them. -/
def scanDigits : List Char → List Char × List Char :=
  andThen (run Char.isDigit) (andThen fraction exponent)

theorem digits_eq (text : List Char) :
    digits text = ⟨.number, (scanDigits text).1, (scanDigits text).2⟩ := by
  simp [digits, scanDigits, andThen]

theorem negative_eq (text : List Char) :
    negative text =
      ⟨.number, (lead Char.isDigit scanDigits text).1, (lead Char.isDigit scanDigits text).2⟩ := by
  cases text with
  | nil => rfl
  | cons c text =>
      cases hdigit : c.isDigit with
      | false => simp [negative, lead, hdigit]
      | true => simp [negative, lead, hdigit, digits, scanDigits, andThen, run]

theorem not_of_endsBefore_number {c : Char} (hends : endsBefore .number c = true) :
    c.isDigit = false ∧ c ≠ '.' ∧ c ≠ 'e' ∧ c ≠ 'E' ∧ c ≠ '+' ∧ c ≠ '-' := by
  simpa [endsBefore, and_assoc] using hends

theorem scans_scanDigits : Scans (endsBefore .number) scanDigits := by
  have hdigit : ∀ c, endsBefore .number c = true → c.isDigit = false :=
    fun c hends => (not_of_endsBefore_number hends).1
  have hsign : Scans (endsBefore .number) sign := by
    rw [sign_eq]
    refine Scans.lead (Scans.stay _) ?_
    intro c hends
    have hnot := not_of_endsBefore_number hends
    simp [hnot]
  have hexponent : Scans (endsBefore .number) exponent := by
    rw [exponent_eq]
    refine Scans.lead (Scans.andThen hsign (Scans.run hdigit)) ?_
    intro c hends
    have hnot := not_of_endsBefore_number hends
    simp [hnot]
  have hfraction : Scans (endsBefore .number) fraction := by
    rw [fraction_eq]
    refine Scans.lead (Scans.run hdigit) ?_
    intro c hends
    have hnot := not_of_endsBefore_number hends
    simp [hnot]
  exact Scans.andThen (Scans.run hdigit) (Scans.andThen hfraction hexponent)

theorem scans_negative : Scans (endsBefore .number) (lead Char.isDigit scanDigits) := by
  refine Scans.lead scans_scanDigits ?_
  intro c hends
  exact (not_of_endsBefore_number hends).1

theorem looks_digits : Looks digits := by
  intro text later hlater
  rw [digits_eq] at hlater ⊢
  simp only at hlater ⊢
  rw [digits_eq, scans_scanDigits.looks text later hlater]

theorem looks_negative : Looks negative := by
  intro text later hlater
  rw [negative_eq] at hlater ⊢
  simp only at hlater ⊢
  rw [negative_eq, scans_negative.looks text later hlater]

/-! ### Strings and comments -/

theorem looks_quoted : Looks quoted := by
  intro text later hlater
  fun_induction quoted text with
  | case1 =>
      have hnil := hlater.eq_nil rfl rfl
      subst hnil
      rfl
  | case2 text => rfl
  | case3 =>
      have hnil := hlater.eq_nil rfl rfl
      subst hnil
      rfl
  | case4 text =>
      cases later with
      | nil => rfl
      | cons d later =>
          have hsame : d = '\n' := by simpa using hlater.head_eq rfl
          subst hsame
          rfl
  | case5 c text hline ih =>
      have hagain := ih hlater
      have hline : c ≠ '\n' := hline
      simp only [Match.after, List.cons_append]
      rw [quoted, hagain]
      · rfl
      · exact hline
  | case6 c text hquote hslash hescape hbreak ih =>
      have hagain := ih hlater
      have hplain : c ≠ '\\' := by
        rintro rfl
        cases text with
        | nil => exact hslash rfl rfl
        | cons d text => exact hbreak d text rfl rfl
      simp only [Match.after, List.cons_append]
      rw [quoted, hagain]
      · rfl
      · exact hquote
      · exact fun hsame => absurd hsame hplain
      · exact fun _ hsame => absurd hsame hplain
      · exact fun _ _ hsame => absurd hsame hplain

theorem blockComment_cons (c : Char) (text : List Char) :
    ∃ more, (blockComment (c :: text)).text = c :: more := by
  rw [blockComment.eq_def]
  split
  · contradiction
  next hsame =>
    obtain ⟨rfl, _⟩ := List.cons.inj hsame
    exact ⟨_, rfl⟩
  next hsame =>
    obtain ⟨rfl, _⟩ := List.cons.inj hsame
    exact ⟨_, rfl⟩

theorem looks_blockComment : Looks blockComment := by
  intro text later hlater
  fun_induction blockComment text with
  | case1 =>
      have hnil := hlater.eq_nil rfl rfl
      subst hnil
      rfl
  | case2 text => rfl
  | case3 c text hopen ih =>
      have hagain := ih hlater
      simp only [Match.after, List.cons_append]
      rw [blockComment, hagain]
      · rfl
      · intro more hstar hslash
        cases text with
        | nil =>
            -- the comment has no end here, so nothing may follow it
            have hnil := hlater.eq_nil rfl rfl
            rw [hnil] at hslash
            contradiction
        | cons d text =>
            obtain ⟨front, hfront⟩ := blockComment_cons d text
            rw [hfront, List.cons_append, List.cons.injEq] at hslash
            exact hopen text hstar (by rw [hslash.1])

/-! ### Markers -/

theorem commonStart_self (pattern later : List Char) :
    commonStart pattern (pattern ++ later) = (pattern, later) := by
  induction pattern with
  | nil => cases later <;> rfl
  | cons p pattern ih => simp [commonStart, ih]

theorem commonStart_eq_of_length {pattern text : List Char}
    (hlength : (commonStart pattern text).1.length = pattern.length) :
    (commonStart pattern text).1 = pattern := by
  induction pattern generalizing text with
  | nil => cases text <;> rfl
  | cons p pattern ih =>
      cases text with
      | nil => simp [commonStart] at hlength
      | cons c text =>
          by_cases hsame : p = c
          · subst hsame
            simp only [commonStart, if_true, List.length_cons, Nat.add_right_cancel_iff]
              at hlength ⊢
            rw [ih hlength]
          · simp [commonStart, hsame] at hlength

theorem looks_commonStart {pattern text later : List Char}
    (hlater : later = [] ∨ later.head? = (commonStart pattern text).2.head?) :
    commonStart pattern ((commonStart pattern text).1 ++ later) =
      ((commonStart pattern text).1, later) := by
  induction pattern generalizing text with
  | nil => cases text <;> cases later <;> rfl
  | cons p pattern ih =>
      cases text with
      | nil =>
          have hnil : later = [] := by
            rcases hlater with hnil | hsame
            · exact hnil
            · exact List.head?_eq_none_iff.mp hsame
          subst hnil
          rfl
      | cons c text =>
          by_cases hc : p = c
          · subst hc
            simp only [commonStart, if_true] at hlater ⊢
            simp only [List.cons_append, commonStart, if_true, ih hlater]
          · simp only [commonStart, hc, if_false] at hlater ⊢
            cases later with
            | nil => rfl
            | cons d later =>
                have hd : d = c := by simpa using hlater
                simp [commonStart, hd, hc]

theorem looks_signedMarker (whole : Kind) : Looks (signedMarker whole) := by
  intro text later hlater
  unfold signedMarker at hlater ⊢
  dsimp only at hlater ⊢
  split at hlater
  next hwhole =>
    have hlength : (commonStart (markerName ++ ['}']) text).1.length =
        (markerName ++ ['}']).length := hwhole
    have hfound := commonStart_eq_of_length hlength
    rw [hfound, commonStart_self]
  next hpart =>
    rw [looks_commonStart (hlater.head_eq rfl), if_neg hpart]

theorem marker_of_unsigned {text : List Char} (hopen : text.head? ≠ some '#')
    (hclose : text.head? ≠ some '/') :
    marker text =
      ⟨.partialMarker, (commonStart markerName text).1, (commonStart markerName text).2⟩ := by
  unfold marker
  split
  · simp at hopen
  · simp at hclose
  · rfl

theorem looks_marker : Looks marker := by
  intro text later hlater
  by_cases hopen : text.head? = some '#'
  · obtain ⟨text, rfl⟩ := List.head?_eq_some_iff.mp hopen
    exact congrArg (Match.after '#') (looks_signedMarker .parameterOpen text later hlater)
  by_cases hclose : text.head? = some '/'
  · obtain ⟨text, rfl⟩ := List.head?_eq_some_iff.mp hclose
    exact congrArg (Match.after '/') (looks_signedMarker .parameterClose text later hlater)
  rw [marker_of_unsigned hopen hclose] at hlater ⊢
  have hahead := (hlater.append_left (commonStart markerName text).1).head_eq rfl
  rw [commonStart_append] at hahead
  have hunsigned : ∀ c, text.head? ≠ some c →
      ((commonStart markerName text).1 ++ later).head? ≠ some c := by
    intro c hother
    rcases hahead with hnil | hsame
    · simp [hnil]
    · rwa [hsame]
  rw [marker_of_unsigned (hunsigned '#' hopen) (hunsigned '/' hclose)]
  rw [looks_commonStart (hlater.head_eq rfl)]

theorem brace_of_single {text : List Char} (hsingle : text.head? ≠ some '{') :
    brace text = ⟨.braceOpen, [], text⟩ := by
  unfold brace
  split
  · simp at hsingle
  · rfl

theorem looks_brace : Looks brace := by
  intro text later hlater
  by_cases hdouble : text.head? = some '{'
  · obtain ⟨text, rfl⟩ := List.head?_eq_some_iff.mp hdouble
    exact congrArg (Match.after '{') (looks_marker text later hlater)
  · rw [brace_of_single hdouble] at hlater ⊢
    apply brace_of_single
    rcases hlater with rfl | hsame | ⟨c, hhead, hends⟩
    · simp
    · rw [List.nil_append, hsame]
      exact hdouble
    · rw [List.nil_append, hhead]
      intro hbrace
      cases hbrace
      contradiction

/-! ### Tokens -/

theorem endsBefore_wordKind (word : List Char) :
    endsBefore (wordKind word) = fun c => !isWordPart c := by
  have hkind := wordKind_mem word
  simp only [List.mem_cons, List.not_mem_nil, or_false] at hkind
  rcases hkind with hkind | hkind | hkind | hkind <;> rw [hkind] <;> rfl

theorem scans_blanks : Scans (endsBefore .whitespace) (run isBlank) :=
  Scans.run (by simp [endsBefore])

theorem scans_word : Scans (fun c => !isWordPart c) (run isWordPart) :=
  Scans.run (by simp)

theorem looks_comment? {text later : List Char} {m : Match} (hfound : comment? text = some m)
    (hlater : Replaces (endsBefore m.kind) later m.rest) :
    comment? (m.text ++ later) = some ⟨m.kind, m.text, later⟩ := by
  unfold comment? at hfound
  split at hfound
  next text =>
    cases hfound
    have hline : Scans (endsBefore .lineComment) (run (· ≠ '\n')) :=
      Scans.run (by simp [endsBefore])
    have hagain := hline.looks text later hlater
    simp only [List.cons_append, comment?, hagain]
  next text =>
    cases hfound
    have hagain := looks_blockComment text later hlater
    simp only [Match.after, List.cons_append, comment?, hagain]
  · contradiction

/-- A token is found again in front of another text that could not go on with it. -/
theorem begun?_append {c : Char} {text later : List Char} {m : Match}
    (hfound : begun? c text = some m) (hlater : Replaces (endsBefore m.kind) later m.rest) :
    begun? c (m.text ++ later) = some ⟨m.kind, m.text, later⟩ := by
  have hbegins := begins c
  generalize begun? c = scan at hfound hbegins ⊢
  cases hbegins with
  | brace =>
      cases hfound
      exact congrArg some (looks_brace text later hlater)
  | single hsingle =>
      cases hfound
      rfl
  | quoted =>
      cases hfound
      exact congrArg some (looks_quoted text later hlater)
  | negative =>
      cases hfound
      exact congrArg some (looks_negative text later hlater)
  | comment => exact looks_comment? hfound hlater
  | digits hdigit =>
      cases hfound
      exact congrArg some (looks_digits text later hlater)
  | blanks hblank =>
      cases hfound
      have hagain := scans_blanks.looks text later hlater
      simp only [hagain]
  | word hstart =>
      cases hfound
      rw [endsBefore_wordKind] at hlater
      have hagain := scans_word.looks text later hlater
      simp only [hagain]
  | nothing => contradiction

/-- What stands between the tokens of values: punctuation, blanks and line breaks. -/
def delimiters : List Char := [',', ':', ']', '}', ' ', '\t', '\n', '\r']

/-- Delimiters end every token of the grammar. -/
theorem endsBefore_delimiter {kind : Kind} (hsound : kind.isLexicalError = false)
    (hsignificant : kind.isTrivia = false) {c : Char} (hc : c ∈ delimiters) :
    endsBefore kind c = true := by
  simp only [delimiters, List.mem_cons, List.not_mem_nil, or_false] at hc
  rcases hc with rfl | rfl | rfl | rfl | rfl | rfl | rfl | rfl <;>
    cases kind <;> first | contradiction | rfl

/-- What may follow a token of the grammar without going on with it. -/
def Separates (later : List Char) : Prop :=
  ∀ c, later.head? = some c → c ∈ delimiters

namespace Separates

theorem nil : Separates [] := by
  intro c hhead
  contradiction

theorem cons {c : Char} (hc : c ∈ delimiters) (later : List Char) :
    Separates (c :: later) := by
  intro d hhead
  cases hhead
  exact hc

theorem append {front later : List Char} (hfront : Separates front) (hlater : Separates later) :
    Separates (front ++ later) := by
  cases front with
  | nil => exact hlater
  | cons c front => exact .cons (hfront c rfl) _

theorem replaces {later : List Char} (hlater : Separates later) {kind : Kind}
    (hsound : kind.isLexicalError = false) (hsignificant : kind.isTrivia = false)
    (rest : List Char) : Replaces (endsBefore kind) later rest := by
  cases later with
  | nil => exact .nil rest
  | cons c later => exact .of_ends (endsBefore_delimiter hsound hsignificant (hlater c rfl)) _ _

end Separates

theorem cut_of_begun? {c : Char} {text : List Char} {m : Match} (hfound : begun? c text = some m) :
    cut (c :: text) = (m.kind, c :: m.text) :: cut m.rest := by
  rw [cut, next, hfound, Option.getD_some]

/-- A whole token and a text that could not go on with it. -/
theorem cut_token {c : Char} {body later : List Char} {kind : Kind}
    (hwhole : begun? c body = some ⟨kind, body, []⟩)
    (hlater : Replaces (endsBefore kind) later []) :
    cut (c :: body ++ later) = (kind, c :: body) :: cut later := by
  have hagain := begun?_append hwhole hlater
  rw [List.cons_append, cut_of_begun? hagain]

theorem begun?_of_cut {c : Char} {text : List Char} {piece : Kind × List Char}
    {pieces : List (Kind × List Char)} (hcut : cut (c :: text) = piece :: pieces)
    (hfound : piece.1 ≠ .garbage) :
    ∃ m, begun? c text = some m ∧ piece = (m.kind, c :: m.text) ∧ pieces = cut m.rest := by
  cases hbegun : begun? c text with
  | none =>
      rw [cut, next, hbegun, Option.getD_none, List.cons.injEq] at hcut
      rw [← hcut.1] at hfound
      exact absurd (garbage_kind text) hfound
  | some m =>
      rw [cut_of_begun? hbegun, List.cons.injEq] at hcut
      exact ⟨m, rfl, hcut.1.symm, hcut.2.symm⟩

theorem ne_nil_of_mem_cut {text : List Char} {piece : Kind × List Char}
    (hmem : piece ∈ cut text) : piece.2 ≠ [] := by
  fun_induction cut text with
  | case1 => contradiction
  | case2 c text ih =>
      rcases List.mem_cons.mp hmem with rfl | hrest
      · exact List.cons_ne_nil _ _
      · exact ih hrest

/-- The pieces before a cut are found again in front of another text that could not go on with
the last of them. -/
theorem cut_append {text later : List Char} {front back : List (Kind × List Char)}
    (hcut : cut text = front ++ back) (hfront : ∀ piece ∈ front, piece.1 ≠ .garbage)
    (hlater : ∀ piece ∈ front.getLast?,
      Replaces (endsBefore piece.1) later (back.flatMap Prod.snd)) :
    cut (front.flatMap Prod.snd ++ later) = front ++ cut later := by
  induction front generalizing text with
  | nil => rfl
  | cons piece front ih =>
      cases text with
      | nil =>
          rw [cut, List.cons_append] at hcut
          contradiction
      | cons c text =>
          rw [List.cons_append] at hcut
          obtain ⟨m, hbegun, rfl, hrest⟩ :=
            begun?_of_cut hcut (hfront piece List.mem_cons_self)
          have htext : front.flatMap Prod.snd ++ back.flatMap Prod.snd = m.rest := by
            rw [← List.flatMap_append, hrest, flatMap_cut]
          have hahead :
              Replaces (endsBefore m.kind) (front.flatMap Prod.snd ++ later) m.rest := by
            cases front with
            | nil => exact htext ▸ hlater _ rfl
            | cons second front =>
                have hmem : second ∈ cut m.rest := hrest ▸ List.mem_cons_self
                obtain ⟨d, more, hsecond⟩ := List.exists_cons_of_ne_nil (ne_nil_of_mem_cut hmem)
                rw [← htext]
                exact Or.inr (Or.inl (by simp [hsecond]))
          have hmore : cut (front.flatMap Prod.snd ++ later) = front ++ cut later := by
            apply ih hrest.symm fun later hmem => hfront later (List.mem_cons_of_mem _ hmem)
            intro last hlast
            cases front with
            | nil => contradiction
            | cons second front => exact hlater last (by simpa using hlast)
          have hagain := cut_of_begun? (begun?_append hbegun hahead)
          rw [hmore] at hagain
          simpa using hagain

end Lexer
end QueryBody
