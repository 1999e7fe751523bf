import QueryBody.Proofs.Admission
import QueryBody.Proofs.Scanning
import Mathlib.Tactic

/-!
# What begins a token

The first character of a token decides which scanner takes the rest of it, and the
scanner decides the kind.  So a number token is a number, and an identifier token is
a name.
-/

namespace QueryBody
namespace Lexer

/-- The characters that are tokens by themselves. -/
def singles : List (Char × Kind) :=
  [('}', .braceClose), ('[', .bracketOpen), (']', .bracketClose), (':', .colon), (',', .comma),
    ('\n', .newline)]

/-- The scanners that take the rest of a token, with the characters that begin it. -/
inductive Begins : Char → (List Char → Option Match) → Prop
  | brace : Begins '{' fun text => some (brace text)
  | single {c : Char} {kind : Kind} (hsingle : (c, kind) ∈ singles) :
      Begins c fun text => some ⟨kind, [], text⟩
  | quoted : Begins '"' fun text => some (quoted text)
  | negative : Begins '-' fun text => some (negative text)
  | comment : Begins '/' comment?
  | digits {c : Char} (hdigit : c.isDigit = true) : Begins c fun text => some (digits text)
  | blanks {c : Char} (hblank : isBlank c = true) :
      Begins c fun text => some ⟨.whitespace, (run isBlank text).1, (run isBlank text).2⟩
  | word {c : Char} (hstart : isWordStart c = true) :
      Begins c fun text => some
        ⟨wordKind (c :: (run isWordPart text).1), (run isWordPart text).1,
          (run isWordPart text).2⟩
  | nothing {c : Char} (hdigit : c.isDigit = false) (hstart : isWordStart c = false) :
      Begins c fun _ => none

theorem begins (c : Char) : Begins c (begun? c) := by
  have single {c : Char} (kind : Kind) (hsingle : (c, kind) ∈ singles) :
      Begins c fun text => some ⟨kind, [], text⟩ := .single hsingle
  by_cases hsign : c ∈ ['{', '}', '[', ']', ':', ',', '"', '-', '\n', '/']
  · simp only [List.mem_cons, List.not_mem_nil, or_false] at hsign
    rcases hsign with rfl | rfl | rfl | rfl | rfl | rfl | rfl | rfl | rfl | rfl
    · exact .brace
    · exact single .braceClose (by decide)
    · exact single .bracketOpen (by decide)
    · exact single .bracketClose (by decide)
    · exact single .colon (by decide)
    · exact single .comma (by decide)
    · exact .quoted
    · exact .negative
    · exact single .newline (by decide)
    · exact .comment
  · have hbegun : begun? c = fun text =>
        if c.isDigit then some (digits text)
        else if isBlank c then some ⟨.whitespace, (run isBlank text).1, (run isBlank text).2⟩
        else if isWordStart c then
          some ⟨wordKind (c :: (run isWordPart text).1), (run isWordPart text).1,
            (run isWordPart text).2⟩
        else none := by
      funext text
      unfold begun?
      split
      all_goals first
        | rfl
        | simp at hsign
    rw [hbegun]
    by_cases hdigit : c.isDigit = true
    · simp only [hdigit, if_true]
      exact .digits hdigit
    by_cases hblank : isBlank c = true
    · simp only [hdigit, hblank, if_true]
      exact .blanks hblank
    by_cases hstart : isWordStart c = true
    · simp only [hdigit, hblank, hstart, if_true]
      exact .word hstart
    · simp only [hdigit, hblank, hstart]
      exact .nothing (by simpa using hdigit) (by simpa using hstart)

/-! ### Kinds -/

theorem signedMarker_kind (whole : Kind) (text : List Char) :
    (signedMarker whole text).kind = whole ∨ (signedMarker whole text).kind = .partialMarker := by
  unfold signedMarker
  dsimp only
  split
  · exact Or.inl rfl
  · exact Or.inr rfl

theorem marker_kind (text : List Char) :
    (marker text).kind ∈ [Kind.parameterOpen, .parameterClose, .partialMarker] := by
  unfold marker
  split
  next text =>
    rcases signedMarker_kind .parameterOpen text with hkind | hkind
      <;> simp [Match.after, hkind]
  next text =>
    rcases signedMarker_kind .parameterClose text with hkind | hkind
      <;> simp [Match.after, hkind]
  · simp

theorem brace_kind (text : List Char) :
    (brace text).kind ∈ [Kind.braceOpen, .parameterOpen, .parameterClose, .partialMarker] := by
  unfold brace
  split
  · exact List.mem_cons_of_mem _ (marker_kind _)
  · simp

theorem quoted_kind (text : List Char) :
    (quoted text).kind ∈ [Kind.string, .unterminatedString] := by
  fun_induction quoted text with
  | case1 => simp
  | case2 => simp
  | case3 => simp
  | case4 => simp
  | case5 c text _ ih => exact ih
  | case6 c text _ _ _ _ ih => exact ih

theorem negative_kind (text : List Char) : (negative text).kind = .number := by
  unfold negative
  split
  · split <;> rfl
  · rfl

theorem blockComment_kind (text : List Char) :
    (blockComment text).kind ∈ [Kind.blockComment, .unterminatedComment] := by
  fun_induction blockComment text with
  | case1 => simp
  | case2 => simp
  | case3 c text _ ih => exact ih

theorem comment?_kind {text : List Char} {m : Match} (hfound : comment? text = some m) :
    m.kind ∈ [Kind.lineComment, .blockComment, .unterminatedComment] := by
  unfold comment? at hfound
  split at hfound
  · cases hfound
    simp
  · cases hfound
    exact List.mem_cons_of_mem _ (blockComment_kind _)
  · contradiction

theorem garbage_kind (text : List Char) : (garbage text).kind = .garbage := by
  induction text with
  | nil => rfl
  | cons c text ih =>
      unfold garbage
      split
      · rfl
      · exact ih

theorem wordKind_mem (word : List Char) :
    wordKind word ∈ [Kind.trueWord, .falseWord, .nullWord, .identifier] := by
  unfold wordKind
  split
  next hfind =>
    have hmem := List.mem_of_find?_eq_some hfind
    simp only [valueWords, List.mem_cons, Prod.mk.injEq, List.not_mem_nil, or_false] at hmem
    rcases hmem with ⟨_, rfl⟩ | ⟨_, rfl⟩ | ⟨_, rfl⟩ <;> simp
  · simp

/-! ### First characters -/

/-- The characters that a token of a kind begins with. -/
def starts (kind : Kind) (c : Char) : Bool :=
  match kind with
  | .braceOpen | .parameterOpen | .parameterClose | .partialMarker => c = '{'
  | .braceClose | .bracketOpen | .bracketClose | .colon | .comma | .newline => (c, kind) ∈ singles
  | .string | .unterminatedString => c = '"'
  | .number => c = '-' || c.isDigit
  | .lineComment | .blockComment | .unterminatedComment => c = '/'
  | .whitespace => isBlank c
  | .trueWord | .falseWord | .nullWord | .identifier => isWordStart c
  | _ => false

theorem starts_of_begun? {c : Char} {text : List Char} {m : Match}
    (hfound : begun? c text = some m) : starts m.kind c = true := by
  have hbegins := begins c
  generalize begun? c = scan at hfound hbegins
  cases hbegins with
  | brace =>
      cases hfound
      have hmem := brace_kind text
      simp only [List.mem_cons, List.not_mem_nil, or_false] at hmem
      rcases hmem with hkind | hkind | hkind | hkind <;> rw [hkind] <;> rfl
  | single hsingle =>
      cases hfound
      simp only [singles, List.mem_cons, Prod.mk.injEq, List.not_mem_nil, or_false] at hsingle
      rcases hsingle with ⟨rfl, rfl⟩ | ⟨rfl, rfl⟩ | ⟨rfl, rfl⟩ | ⟨rfl, rfl⟩ | ⟨rfl, rfl⟩ |
        ⟨rfl, rfl⟩ <;> rfl
  | quoted =>
      cases hfound
      have hmem := quoted_kind text
      simp only [List.mem_cons, List.not_mem_nil, or_false] at hmem
      rcases hmem with hkind | hkind <;> rw [hkind] <;> rfl
  | negative =>
      cases hfound
      rw [negative_kind]
      rfl
  | comment =>
      have hmem := comment?_kind hfound
      simp only [List.mem_cons, List.not_mem_nil, or_false] at hmem
      rcases hmem with hkind | hkind | hkind <;> rw [hkind] <;> rfl
  | digits hdigit =>
      cases hfound
      simp [starts, digits, hdigit]
  | blanks hblank =>
      cases hfound
      exact hblank
  | word hstart =>
      cases hfound
      have hmem := wordKind_mem (c :: (run isWordPart text).1)
      simp only [List.mem_cons, List.not_mem_nil, or_false] at hmem
      rcases hmem with hkind | hkind | hkind | hkind <;> rw [hkind] <;> exact hstart
  | nothing => contradiction

theorem not_isWordStart_of_isDigit {c : Char} (hdigit : c.isDigit = true) :
    isWordStart c = false := by
  have hrange : 48 ≤ c.toNat ∧ c.toNat ≤ 57 := by
    simpa [Char.isDigit, UInt32.le_iff_toNat_le] using hdigit
  have hother : ∀ d : Char, ¬(48 ≤ d.toNat ∧ d.toNat ≤ 57) → c ≠ d := by
    rintro d hd rfl
    exact hd hrange
  have hupper : c.isUpper = false := by
    refine decide_eq_false fun hbounds => ?_
    have hlow : 65 ≤ c.toNat := UInt32.le_iff_toNat_le.mp hbounds.1
    omega
  have hlower : c.isLower = false := by
    refine Bool.and_eq_false_imp.mpr fun hbound => ?_
    have hlow : 97 ≤ c.toNat := UInt32.le_iff_toNat_le.mp (of_decide_eq_true hbound)
    omega
  have halpha : c.isAlpha = false := Bool.or_eq_false_iff.mpr ⟨hupper, hlower⟩
  simp [isWordStart, halpha, hother '_' (by decide), hother '$' (by decide),
    hother '@' (by decide)]

theorem begun?_of_isDigit {c : Char} (hdigit : c.isDigit = true) (text : List Char) :
    begun? c text = some (digits text) := by
  have hbegins := begins c
  generalize begun? c = scan at hbegins ⊢
  cases hbegins with
  | single hsingle =>
      simp only [singles, List.mem_cons, Prod.mk.injEq, List.not_mem_nil, or_false] at hsingle
      rcases hsingle with ⟨rfl, _⟩ | ⟨rfl, _⟩ | ⟨rfl, _⟩ | ⟨rfl, _⟩ | ⟨rfl, _⟩ | ⟨rfl, _⟩ <;>
        contradiction
  | digits _ => rfl
  | blanks hblank =>
      simp only [isBlank, Bool.or_eq_true, decide_eq_true_eq] at hblank
      rcases hblank with (rfl | rfl) | rfl <;> contradiction
  | word hstart =>
      rw [not_isWordStart_of_isDigit hdigit] at hstart
      contradiction
  | nothing hnot _ => simp [hdigit] at hnot
  | brace => contradiction
  | quoted => contradiction
  | negative => contradiction
  | comment => contradiction

theorem begun?_of_isWordStart {c : Char} (hstart : isWordStart c = true) (text : List Char) :
    begun? c text =
      some ⟨wordKind (c :: (run isWordPart text).1), (run isWordPart text).1,
        (run isWordPart text).2⟩ := by
  have hbegins := begins c
  generalize begun? c = scan at hbegins ⊢
  cases hbegins with
  | brace => contradiction
  | single hsingle =>
      simp only [singles, List.mem_cons, Prod.mk.injEq, List.not_mem_nil, or_false] at hsingle
      rcases hsingle with ⟨rfl, _⟩ | ⟨rfl, _⟩ | ⟨rfl, _⟩ | ⟨rfl, _⟩ | ⟨rfl, _⟩ | ⟨rfl, _⟩ <;>
        contradiction
  | quoted => contradiction
  | negative => contradiction
  | comment => contradiction
  | digits hdigit =>
      rw [not_isWordStart_of_isDigit hdigit] at hstart
      contradiction
  | blanks hblank =>
      simp only [isBlank, Bool.or_eq_true, decide_eq_true_eq] at hblank
      rcases hblank with (rfl | rfl) | rfl <;> contradiction
  | word _ => rfl
  | nothing _ hnot => simp [hstart] at hnot

theorem isName_of_begun? {c : Char} {text : List Char} {m : Match}
    (hfound : begun? c text = some m) (hkind : m.kind = .identifier) : IsName (c :: m.text) := by
  have hstart : isWordStart c = true := by
    have hstarts := starts_of_begun? hfound
    rwa [hkind] at hstarts
  rw [begun?_of_isWordStart hstart] at hfound
  cases hfound
  exact ⟨c, _, rfl, hstart, fun d hd => mem_run hd, hkind⟩

theorem isName_of_next {c : Char} {text : List Char} (hkind : (next c text).kind = .identifier) :
    IsName (c :: (next c text).text) := by
  unfold next at hkind ⊢
  cases hfound : begun? c text with
  | none =>
      rw [hfound, Option.getD_none, garbage_kind] at hkind
      contradiction
  | some m =>
      rw [hfound] at hkind
      exact isName_of_begun? hfound hkind

/-! ### Checked kinds -/

theorem shape_of_checked {kind : Kind} {text : List Char} (hchecked : checked kind text = .number) :
    Shape.of text = .complete := by
  unfold checked at hchecked
  split at hchecked
  · split at hchecked <;> contradiction
  · split at hchecked
    next hshape => exact hshape
    · contradiction
  · contradiction

theorem unescape_of_checked {kind : Kind} {text : List Char}
    (hchecked : checked kind text = .string) :
    ∃ content, unescape text.tail.dropLast = .ok content := by
  unfold checked at hchecked
  split at hchecked
  · split at hchecked
    next hread =>
      cases hcontent : unescape text.tail.dropLast with
      | ok content => exact ⟨content, rfl⟩
      | error error =>
          rw [hcontent] at hread
          contradiction
    · contradiction
  · split at hchecked <;> contradiction
  next hstring _ => exact absurd hchecked hstring

theorem eq_of_checked {kind checkedKind : Kind} {text : List Char}
    (hchecked : checked kind text = checkedKind) (hstring : checkedKind ≠ .invalidString)
    (hnumber : checkedKind ≠ .malformedNumber) : kind = checkedKind := by
  unfold checked at hchecked
  split at hchecked
  · split at hchecked
    · exact hchecked
    · exact absurd hchecked.symm hstring
  · split at hchecked
    · exact hchecked
    · exact absurd hchecked.symm hnumber
  · exact hchecked

theorem mem_place {offset : Nat} {pieces : List (Kind × List Char)} {lexeme : Lexeme}
    (hmem : lexeme ∈ place offset pieces) :
    ∃ kind, (kind, lexeme.text) ∈ pieces ∧ lexeme.kind = checked kind lexeme.text := by
  induction pieces generalizing offset with
  | nil => contradiction
  | cons piece pieces ih =>
      rcases List.mem_cons.mp hmem with rfl | hrest
      · exact ⟨piece.1, List.mem_cons_self, rfl⟩
      · obtain ⟨kind, hpiece, hkind⟩ := ih hrest
        exact ⟨kind, List.mem_cons_of_mem _ hpiece, hkind⟩

theorem isName_of_mem_cut {text word : List Char} (hmem : (.identifier, word) ∈ cut text) :
    IsName word := by
  fun_induction cut text with
  | case1 => contradiction
  | case2 c text ih =>
      rcases List.mem_cons.mp hmem with hpiece | hrest
      · rw [Prod.mk.injEq] at hpiece
        obtain ⟨hkind, rfl⟩ := hpiece
        exact isName_of_next hkind.symm
      · exact ih hrest

end Lexer

theorem isLegible_of_mem_lex {source : String} {lexeme : Lexeme} (hmem : lexeme ∈ lex source) :
    lexeme.IsLegible where
  number hkind := by
    obtain ⟨kind, _, hchecked⟩ := Lexer.mem_place hmem
    exact Lexer.shape_of_checked (hchecked.symm.trans hkind)
  name hkind := by
    obtain ⟨kind, hpiece, hchecked⟩ := Lexer.mem_place hmem
    have hsame := Lexer.eq_of_checked (hchecked.symm.trans hkind) (by decide) (by decide)
    subst hsame
    exact Lexer.isName_of_mem_cut hpiece

/-- The content of a string token can be decoded. -/
theorem unescape_content_of_mem_lex {source : String} {lexeme : Lexeme}
    (hmem : lexeme ∈ lex source) (hkind : lexeme.kind = .string) :
    unescape lexeme.content = .ok lexeme.string.toList := by
  obtain ⟨kind, _, hchecked⟩ := Lexer.mem_place hmem
  obtain ⟨content, hcontent⟩ := Lexer.unescape_of_checked (hchecked.symm.trans hkind)
  have hread : unescape lexeme.content = .ok content := hcontent
  rw [hread, Lexeme.string, hread, String.toList_ofList]

end QueryBody
