import QueryBody.Datum.Json
import QueryBody.Number.Reading
import QueryBody.Proofs.CodeUnits
import QueryBody.Proofs.NumberText
import Mathlib.Tactic

/-!
# The grammar of JSON

The JSON texts as the standard has them, character by character, and the value that each
of them denotes.  Nothing here knows of tokens.  Strings denote what their code units
stand for, a number denotes what it is read as, and of the members with one key the last
one counts.
-/

namespace QueryBody
namespace JsonText

/-- Decimal digits, one at least. -/
def IsDigits (text : List Char) : Prop := text ≠ [] ∧ ∀ c ∈ text, c.isDigit = true

/-- The part of a number before the point has no leading zeros. -/
inductive IsWhole : List Char → Prop
  | zero : IsWhole ['0']
  | digits {first : Char} {rest : List Char} (hfirst : first.isDigit = true)
      (hzero : first ≠ '0') (hrest : ∀ c ∈ rest, c.isDigit = true) : IsWhole (first :: rest)

inductive IsFraction : List Char → Prop
  | none : IsFraction []
  | digits {digits : List Char} (hdigits : IsDigits digits) : IsFraction ('.' :: digits)

inductive IsExponent : List Char → Prop
  | none : IsExponent []
  | digits {mark : Char} {sign digits : List Char} (hmark : mark = 'e' ∨ mark = 'E')
      (hsign : sign = [] ∨ sign = ['+'] ∨ sign = ['-']) (hdigits : IsDigits digits) :
      IsExponent (mark :: (sign ++ digits))

inductive IsNumber : List Char → Prop
  | mk {sign whole fraction exponent : List Char} (hsign : sign = [] ∨ sign = ['-'])
      (hwhole : IsWhole whole) (hfraction : IsFraction fraction)
      (hexponent : IsExponent exponent) : IsNumber (sign ++ (whole ++ (fraction ++ exponent)))

/-! ### Strings -/

/-- The escapes of one letter, with the characters that they stand for. -/
def letterEscapes : List (Char × Char) :=
  [('"', '"'), ('\\', '\\'), ('/', '/'), ('b', '\x08'), ('f', '\x0c'), ('n', '\n'), ('r', '\r'),
    ('t', '\t')]

def lowerHexDigits : List Char := "0123456789abcdef".toList
def upperHexDigits : List Char := "0123456789ABCDEF".toList

/-- The character is the hexadecimal digit of a value. -/
def IsHexDigit (c : Char) (value : Nat) : Prop :=
  lowerHexDigits[value]? = some c ∨ upperHexDigits[value]? = some c

/-- A value with the blanks around it. -/
structure Element where
  before : List Char
  text : List Char
  after : List Char
  json : Json

/-- A member of an object: the content of its name and the key that it spells, the blanks before
both, the blanks before the colon, and the value. -/
structure Pair where
  before : List Char
  name : List Char
  key : String
  beforeColon : List Char
  value : Element

def Element.chars (element : Element) : List Char :=
  element.before ++ (element.text ++ element.after)

/-- The text of a pair up to the end of its value. -/
def Pair.core (pair : Pair) : List Char :=
  '"' :: (pair.name ++ ['"']) ++
    (pair.beforeColon ++ ':' :: (pair.value.before ++ pair.value.text))

def Pair.chars (pair : Pair) : List Char := pair.before ++ (pair.core ++ pair.value.after)

theorem run_whole {text : List Char} (hwhole : IsWhole text) {state : Shape.Progress}
    (hbegins : state.Begins) :
    ∃ whole : Shape.Progress, state.run text = some whole ∧ whole.IsWhole := by
  cases hwhole with
  | zero => exact Shape.Progress.run_first hbegins rfl
  | digits hfirst hzero hrest =>
      exact ⟨_, Shape.Progress.run_whole hbegins hfirst hzero hrest, Or.inr rfl⟩

/-- The states in which a number is complete and an exponent may follow. -/
theorem run_fraction {text : List Char} (hfraction : IsFraction text) {state : Shape.Progress}
    (hwhole : state.IsWhole) :
    ∃ last : Shape.Progress, state.run text = some last ∧ last.shape = .complete ∧
      ∀ mark, mark = 'e' ∨ mark = 'E' → last.next? mark = some .exponent := by
  cases hfraction with
  | none =>
      refine ⟨state, rfl, ?_, ?_⟩
      · rcases hwhole with rfl | rfl <;> rfl
      · rintro mark (rfl | rfl) <;> rcases hwhole with rfl | rfl <;> rfl
  | digits hdigits =>
      refine ⟨.fraction, ?_, rfl, ?_⟩
      · exact Shape.Progress.run_append_some (Shape.Progress.run_point hwhole)
          (Shape.Progress.run_fraction hdigits.1 hdigits.2)
      · rintro mark (rfl | rfl) <;> rfl

theorem run_exponent {text : List Char} (hexponent : IsExponent text) {state : Shape.Progress}
    (hshape : state.shape = .complete)
    (hmark : ∀ mark, mark = 'e' ∨ mark = 'E' → state.next? mark = some .exponent) :
    ∃ last : Shape.Progress, state.run text = some last ∧ last.shape = .complete := by
  cases hexponent with
  | none => exact ⟨state, rfl, hshape⟩
  | digits hchar hsign hdigits =>
      refine ⟨.exponentDigits, ?_, rfl⟩
      rw [Shape.Progress.run, hmark _ hchar, Option.bind_some]
      rcases hsign with rfl | rfl | rfl
      · have hnext : ∀ c, c.isDigit = true →
            Shape.Progress.exponent.next? c = some .exponentDigits := by
          intro c hdigit
          have hplus : c ≠ '+' := by
            rintro rfl
            contradiction
          have hminus : c ≠ '-' := by
            rintro rfl
            contradiction
          simp [Shape.Progress.next?, hplus, hminus, hdigit]
        exact Shape.Progress.run_some_digits hnext (Or.inr (Or.inr rfl)) hdigits.1 hdigits.2
      · exact Shape.Progress.run_append_some rfl
          (Shape.Progress.run_exponentDigits hdigits.1 hdigits.2)
      · exact Shape.Progress.run_append_some rfl
          (Shape.Progress.run_exponentDigits hdigits.1 hdigits.2)

theorem shape_of_isNumber {text : List Char} (hnumber : IsNumber text) :
    Shape.of text = .complete := by
  cases hnumber with
  | mk hsign hwhole hfraction hexponent =>
      rename_i sign whole fraction exponent
      have hunsigned : ∀ state : Shape.Progress, state.Begins →
          ∃ last, state.run (whole ++ (fraction ++ exponent)) = some last ∧
            last.shape = .complete := by
        intro state hbegins
        obtain ⟨first, hfirst, hisWhole⟩ := run_whole hwhole hbegins
        obtain ⟨second, hsecond, hshape, hmark⟩ := run_fraction hfraction hisWhole
        obtain ⟨last, hlast, hcomplete⟩ := run_exponent hexponent hshape hmark
        exact ⟨last, Shape.Progress.run_append_some hfirst
          (Shape.Progress.run_append_some hsecond hlast), hcomplete⟩
      rcases hsign with rfl | rfl
      · exact Number.shape_signed false hunsigned
      · exact Number.shape_signed true hunsigned

end JsonText
end QueryBody
