import QueryBody.Proofs.Layout
import Mathlib.Tactic

/-!
# The same tokens in two bodies

Tokens with the same kinds and texts have the same meaning, wherever they stand.  So what
is known of some tokens of one body is known of those of another.
-/

namespace QueryBody

/-! ### What values say at other places -/

namespace Value

variable (relocation : Relocation)

mutual

theorem datum_relocate (value : Value) : (value.relocate relocation).datum = value.datum := by
  cases value with
  | scalar token content => rfl
  | array opener items => rw [relocate, datum, datum, itemData_relocate]
  | object opener members => rw [relocate, datum, datum, memberData_relocate]

theorem itemData_relocate (items : List Value) :
    itemData (relocateItems relocation items) = itemData items := by
  cases items with
  | nil => rfl
  | cons item rest => rw [relocateItems, itemData, itemData, datum_relocate, itemData_relocate]

theorem memberData_relocate (members : List Member) :
    memberData (relocateMembers relocation members) = memberData members := by
  cases members with
  | nil => rfl
  | cons member rest =>
      cases member with
      | bare key => rw [relocateMembers, memberData, memberData, memberData_relocate]; rfl
      | pair key value =>
          rw [relocateMembers, memberData, memberData, datum_relocate, memberData_relocate]
          rfl

end

end Value

namespace Layout

/-- Some tokens of a body. -/
def ofSublist {source : String} {lexemes : List Lexeme} (hsublist : lexemes.Sublist (lex source)) :
    Layout where
  lexemes := lexemes
  size := Utf8.size source.toList
  ordered := (tiles_lex source).pairwise.sublist hsublist
  before lexeme hmem := by
    obtain ⟨_, hstop, hsize⟩ := (tiles_lex source).mem (hsublist.subset hmem)
    exact hstop.trans_le hsize

end Layout

/-- What pieces are does not depend on where they stand. -/
theorem Lexer.map_piece_significant_place (first second : Nat)
    (pieces : List (Kind × List Char)) :
    (significant (place first pieces)).map Lexeme.piece =
      (significant (place second pieces)).map Lexeme.piece := by
  induction pieces generalizing first second with
  | nil => rfl
  | cons piece rest ih =>
      obtain ⟨kind, text⟩ := piece
      have hrest := ih (first + Utf8.size text) (second + Utf8.size text)
      cases htrivia : (checked kind text).isTrivia with
      | true =>
          rw [place, place, significant_cons_of_isTrivia htrivia,
            significant_cons_of_isTrivia htrivia, hrest]
      | false =>
          rw [place, place, significant_cons_of_not_isTrivia htrivia,
            significant_cons_of_not_isTrivia htrivia, List.map_cons, List.map_cons, hrest]
          rfl

theorem Lexeme.forall_kind_of_pieces {first second : List Lexeme}
    (hpieces : first.map Lexeme.piece = second.map Lexeme.piece)
    (hgrammar : ∀ lexeme ∈ first, lexeme.kind.isTrivia = false) :
    ∀ lexeme ∈ second, lexeme.kind.isTrivia = false := by
  intro lexeme hmem
  have hpiece : lexeme.piece ∈ first.map Lexeme.piece := hpieces ▸ List.mem_map_of_mem hmem
  obtain ⟨other, hother, hsame⟩ := List.mem_map.mp hpiece
  have hkind : other.kind = lexeme.kind := congrArg Prod.fst hsame
  rw [← hkind, hgrammar other hother]

theorem Reader.exists_of_relocate_eq_finished {relocation : Relocation} {reader : Reader}
    {value : Value} (hreader : reader.relocate relocation = ⟨.finished (some value), [], []⟩) :
    ∃ other, reader = ⟨.finished (some other), [], []⟩ ∧ other.relocate relocation = value := by
  obtain ⟨focus, holes, reports⟩ := reader
  rw [relocate_mk, Reader.mk.injEq, List.map_eq_nil_iff, List.map_eq_nil_iff] at hreader
  obtain ⟨hfocus, rfl, rfl⟩ := hreader
  cases focus with
  | finished root =>
      rw [Focus.relocate, Focus.finished.injEq, Option.map_eq_some_iff] at hfocus
      obtain ⟨other, rfl, hsame⟩ := hfocus
      exact ⟨other, rfl, hsame⟩
  | _ => simp [Focus.relocate] at hfocus

/-- Tokens that come to a value without a report come to one that says the same wherever they
stand. -/
theorem exists_run_of_pieces {setting : Setting} (hstrict : setting.allowsFragments = false)
    {source other : String} {first second : List Lexeme} (hfirst : first.Sublist (lex source))
    (hsecond : second.Sublist (lex other))
    (hgrammar : ∀ lexeme ∈ first, lexeme.kind.isTrivia = false)
    (hpieces : first.map Lexeme.piece = second.map Lexeme.piece) {value : Value}
    (hrun : Reader.start.run setting first = ⟨.finished (some value), [], []⟩) :
    ∃ same, same.datum = value.datum ∧
      Reader.start.run setting second = ⟨.finished (some same), [], []⟩ := by
  have hone := (Layout.ofSublist hfirst).run_lexemes hstrict hgrammar
  have hother := (Layout.ofSublist hsecond).run_lexemes hstrict
    (Lexeme.forall_kind_of_pieces hpieces hgrammar)
  simp only [Layout.ofSublist] at hone hother
  rw [hrun, hpieces] at hone
  generalize Reader.start.run setting (numbered (second.map Lexeme.piece)) = reader
    at hone hother
  obtain ⟨numbers, rfl, rfl⟩ := Reader.exists_of_relocate_eq_finished hone.symm
  rw [hother]
  exact ⟨numbers.relocate _, by rw [Value.datum_relocate, Value.datum_relocate], rfl⟩

end QueryBody
