import QueryBody.Proofs.Lookahead
import Mathlib.Tactic

/-!
# Numbers are number tokens

Text that the automaton of numbers accepts is taken whole by the scanner of numbers.
-/

namespace QueryBody
namespace Lexer

open Shape (Progress)

variable {text : List Char} {last : Progress}

theorem andThen_of_stays {first second : List Char → List Char × List Char}
    (hfirst : first text = ([], text)) : andThen first second text = second text := by
  simp [andThen, hfirst]

theorem andThen_run_cons {p : Char → Bool} {second : List Char → List Char × List Char}
    {c : Char} (hc : p c = true) :
    andThen (run p) second (c :: text) =
      (c :: (andThen (run p) second text).1, (andThen (run p) second text).2) := by
  simp [andThen, run, hc]

theorem run_of_head {p : Char → Bool} {c : Char} (hc : p c = false) :
    run p (c :: text) = ([], c :: text) := by
  simp [run, hc]

/-- A character after which an automaton goes on. -/
theorem exists_next {c : Char} {state : Progress} (hrun : state.run (c :: text) = some last) :
    ∃ next, state.next? c = some next ∧ next.run text = some last := by
  rwa [Progress.run, Option.bind_eq_some_iff] at hrun

theorem run_of_exponentDigits (hrun : Progress.exponentDigits.run text = some last) :
    run Char.isDigit text = (text, []) := by
  induction text with
  | nil => rfl
  | cons c text ih =>
      obtain ⟨next, hnext, hmore⟩ := exists_next hrun
      simp only [Progress.next?] at hnext
      split at hnext
      next hdigit =>
        cases hnext
        have hrest := ih hmore
        rw [run, Prod.mk.injEq] at hrest
        simp [run, hdigit, hrest.1, hrest.2]
      · contradiction

theorem run_of_exponentSign (hrun : Progress.exponentSign.run text = some last) :
    run Char.isDigit text = (text, []) := by
  cases text with
  | nil => rfl
  | cons c text =>
      obtain ⟨next, hnext, hmore⟩ := exists_next hrun
      have hagain : Progress.exponentDigits.run (c :: text) = some last := by
        have hsame : Progress.exponentDigits.next? c = some next := hnext
        rw [Progress.run, hsame, Option.bind_some, hmore]
      exact run_of_exponentDigits hagain

theorem scan_of_exponent (hrun : Progress.exponent.run text = some last) :
    andThen sign (run Char.isDigit) text = (text, []) := by
  cases text with
  | nil => rfl
  | cons c text =>
      obtain ⟨next, hnext, hmore⟩ := exists_next hrun
      simp only [Progress.next?] at hnext
      split at hnext
      next hsign =>
        cases hnext
        have hrest := run_of_exponentSign hmore
        rcases hsign with rfl | rfl <;> simp [andThen, sign, hrest]
      next hsign =>
        have hstays : sign (c :: text) = ([], c :: text) := by
          rw [sign_eq]
          simp [lead, hsign]
        rw [andThen_of_stays hstays]
        have hagain : Progress.exponentSign.run (c :: text) = some last := by
          have hsame : Progress.exponentSign.next? c = some next := hnext
          rw [Progress.run, hsame, Option.bind_some, hmore]
        exact run_of_exponentSign hagain

theorem exponent_of_mark {c : Char} (hmark : c = 'e' ∨ c = 'E')
    (hrun : Progress.exponent.run text = some last) :
    exponent (c :: text) = (c :: text, []) := by
  rw [exponent_eq]
  rcases hmark with rfl | rfl <;> simp [lead, scan_of_exponent hrun]

theorem not_isDigit_of_mark {c : Char} (hmark : c = 'e' ∨ c = 'E') : c.isDigit = false := by
  rcases hmark with rfl | rfl <;> decide

theorem scan_of_fraction (hrun : Progress.fraction.run text = some last) :
    andThen (run Char.isDigit) exponent text = (text, []) := by
  induction text with
  | nil => rfl
  | cons c text ih =>
      obtain ⟨next, hnext, hmore⟩ := exists_next hrun
      simp only [Progress.next?] at hnext
      split at hnext
      next hdigit =>
        cases hnext
        rw [andThen_run_cons hdigit, ih hmore]
      · split at hnext
        next hmark =>
          cases hnext
          rw [andThen_of_stays (run_of_head (not_isDigit_of_mark hmark)),
            exponent_of_mark hmark hmore]
        · contradiction

theorem scan_of_point (hrun : Progress.point.run text = some last) :
    andThen (run Char.isDigit) exponent text = (text, []) := by
  cases text with
  | nil => rfl
  | cons c text =>
      obtain ⟨next, hnext, hmore⟩ := exists_next hrun
      simp only [Progress.next?] at hnext
      split at hnext
      next hdigit =>
        cases hnext
        rw [andThen_run_cons hdigit, scan_of_fraction hmore]
      · contradiction

theorem scan_after_point (hrun : Progress.point.run text = some last) :
    andThen fraction exponent ('.' :: text) = ('.' :: text, []) := by
  have hrest := scan_of_point hrun
  rw [andThen, Prod.mk.injEq] at hrest
  simp [andThen, fraction, hrest.1, hrest.2]

theorem fraction_of_mark {c : Char} (hmark : c = 'e' ∨ c = 'E') :
    fraction (c :: text) = ([], c :: text) := by
  rw [fraction_eq]
  rcases hmark with rfl | rfl <;> simp [lead]

theorem scanDigits_of_zero (hrun : Progress.zero.run text = some last) :
    scanDigits text = (text, []) := by
  cases text with
  | nil => rfl
  | cons c text =>
      obtain ⟨next, hnext, hmore⟩ := exists_next hrun
      simp only [Progress.next?] at hnext
      split at hnext
      next hpoint =>
        cases hnext
        subst hpoint
        rw [scanDigits, andThen_of_stays (run_of_head (by decide)), scan_after_point hmore]
      · split at hnext
        next hmark =>
          cases hnext
          rw [scanDigits, andThen_of_stays (run_of_head (not_isDigit_of_mark hmark)),
            andThen_of_stays (fraction_of_mark hmark), exponent_of_mark hmark hmore]
        · contradiction

theorem scanDigits_of_integer (hrun : Progress.integer.run text = some last) :
    scanDigits text = (text, []) := by
  induction text with
  | nil => rfl
  | cons c text ih =>
      obtain ⟨next, hnext, hmore⟩ := exists_next hrun
      simp only [Progress.next?] at hnext
      split at hnext
      next hdigit =>
        cases hnext
        have hrest := ih hmore
        rw [scanDigits] at hrest ⊢
        rw [andThen_run_cons hdigit, hrest]
      next hdigit =>
        have hagain : Progress.zero.run (c :: text) = some last := by
          have hsame : Progress.zero.next? c = some next := hnext
          rw [Progress.run, hsame, Option.bind_some, hmore]
        exact scanDigits_of_zero hagain

/-- After its first digit. -/
theorem scanDigits_of_first {c : Char} {state : Progress}
    (hbegins : state = .start ∨ state = .minus) (hminus : c ≠ '-')
    (hrun : state.run (c :: text) = some last) :
    c.isDigit = true ∧ scanDigits (c :: text) = (c :: text, []) := by
  have hfirst : c.isDigit = true ∧ scanDigits text = (text, []) := by
    obtain ⟨next, hnext, hmore⟩ := exists_next hrun
    rcases hbegins with rfl | rfl
    all_goals
      simp only [Progress.next?, hminus, if_false] at hnext
      split at hnext
      next hzero =>
        cases hnext
        subst hzero
        exact ⟨rfl, scanDigits_of_zero hmore⟩
      · split at hnext
        next hdigit =>
          cases hnext
          exact ⟨hdigit, scanDigits_of_integer hmore⟩
        · contradiction
  refine ⟨hfirst.1, ?_⟩
  have hrest := hfirst.2
  rw [scanDigits] at hrest ⊢
  rw [andThen_run_cons hfirst.1, hrest]

/-- A complete number is one number token. -/
theorem begun?_of_shape (hshape : Shape.of text = .complete) :
    ∃ c body, text = c :: body ∧ begun? c body = some ⟨.number, body, []⟩ := by
  unfold Shape.of at hshape
  cases hrun : Progress.start.run text with
  | none =>
      rw [hrun] at hshape
      contradiction
  | some last =>
      cases text with
      | nil =>
          cases hrun
          contradiction
      | cons c body =>
          refine ⟨c, body, rfl, ?_⟩
          by_cases hminus : c = '-'
          · subst hminus
            have hbody : Progress.minus.run body = some last := hrun
            have hnegative : lead Char.isDigit scanDigits body = (body, []) := by
              cases body with
              | nil => rfl
              | cons d body =>
                  have hother : d ≠ '-' := by
                    rintro rfl
                    contradiction
                  obtain ⟨hdigit, hscan⟩ := scanDigits_of_first (Or.inr rfl) hother hbody
                  rw [scanDigits, andThen_run_cons hdigit, ← scanDigits, Prod.mk.injEq] at hscan
                  have hrest := (List.cons.inj hscan.1).2
                  simp [lead, hdigit, hrest, hscan.2]
            have hbegun : begun? '-' body = some (negative body) := rfl
            rw [hbegun, negative_eq, hnegative]
          · obtain ⟨hdigit, hscan⟩ := scanDigits_of_first (Or.inl rfl) hminus hrun
            rw [scanDigits, andThen_run_cons hdigit, ← scanDigits, Prod.mk.injEq] at hscan
            have hrest := (List.cons.inj hscan.1).2
            rw [begun?_of_isDigit hdigit, digits_eq, hrest, hscan.2]

end Lexer
end QueryBody
