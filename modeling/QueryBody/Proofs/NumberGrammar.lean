import QueryBody.Proofs.BrokenToken
import QueryBody.Proofs.JsonGrammar
import QueryBody.Proofs.NumberToken
import Mathlib.Tactic

/-!
# The shape of a number tells what can become of it

A text has the shape of a complete number exactly if the grammar derives it, and that of
an unfinished one exactly if the grammar derives only texts that begin with it and go on.
-/

namespace QueryBody

open JsonText (IsDigits IsExponent IsFraction IsNumber)

namespace Shape
namespace Progress

/-- What may follow where the automaton has come to: the rest of the grammar. -/
def Completes : Progress → List Char → Prop
  | start, text => IsNumber text
  | minus, text => ∃ whole decimals power, JsonText.IsWhole whole ∧ IsFraction decimals ∧
      IsExponent power ∧ text = whole ++ (decimals ++ power)
  | zero, text => ∃ decimals power, IsFraction decimals ∧ IsExponent power ∧
      text = decimals ++ power
  | integer, text => ∃ digits decimals power, (∀ c ∈ digits, c.isDigit = true) ∧
      IsFraction decimals ∧ IsExponent power ∧ text = digits ++ (decimals ++ power)
  | point, text => ∃ digits power, IsDigits digits ∧ IsExponent power ∧ text = digits ++ power
  | fraction, text => ∃ digits power, (∀ c ∈ digits, c.isDigit = true) ∧ IsExponent power ∧
      text = digits ++ power
  | exponent, text => ∃ sign digits, (sign = [] ∨ sign = ['+'] ∨ sign = ['-']) ∧
      IsDigits digits ∧ text = sign ++ digits
  | exponentSign, text => IsDigits text
  | exponentDigits, text => ∀ c ∈ text, c.isDigit = true

variable {state next last : Progress} {c : Char} {rest text : List Char}

/-- The automaton may stop where the grammar may end. -/
theorem completes_nil (hshape : state.shape = .complete) : state.Completes [] := by
  cases state with
  | zero => exact ⟨[], [], .none, .none, rfl⟩
  | integer => exact ⟨[], [], [], by simp, .none, .none, rfl⟩
  | fraction => exact ⟨[], [], by simp, .none, rfl⟩
  | exponentDigits => simp [Completes]
  | start | minus | point | exponent | exponentSign => contradiction

theorem isDigits_cons (hc : c.isDigit = true) {digits : List Char}
    (hdigits : ∀ d ∈ digits, d.isDigit = true) : IsDigits (c :: digits) :=
  ⟨List.cons_ne_nil c digits, List.forall_mem_cons.mpr ⟨hc, hdigits⟩⟩

theorem completes_whole (hnext : Progress.minus.next? c = some next) (hrest : next.Completes rest) :
    Progress.minus.Completes (c :: rest) := by
  simp only [next?] at hnext
  split at hnext
  next hzero =>
    cases hnext
    obtain ⟨decimals, power, hdecimals, hpower, rfl⟩ := hrest
    exact ⟨['0'], decimals, power, .zero, hdecimals, hpower, by rw [hzero]; rfl⟩
  next hzero =>
    split at hnext
    next hdigit =>
      cases hnext
      obtain ⟨digits, decimals, power, hdigits, hdecimals, hpower, rfl⟩ := hrest
      exact ⟨c :: digits, decimals, power, .digits hdigit hzero hdigits, hdecimals, hpower,
        rfl⟩
    · contradiction

theorem completes_tail (hnext : Progress.zero.next? c = some next) (hrest : next.Completes rest) :
    Progress.zero.Completes (c :: rest) := by
  simp only [next?] at hnext
  split at hnext
  next hpoint =>
    cases hnext
    obtain ⟨digits, power, hdigits, hpower, rfl⟩ := hrest
    exact ⟨'.' :: digits, power, .digits hdigits, hpower, by rw [hpoint]; rfl⟩
  · split at hnext
    next hmark =>
      cases hnext
      obtain ⟨sign, digits, hsign, hdigits, rfl⟩ := hrest
      exact ⟨[], c :: (sign ++ digits), .none, .digits hmark hsign hdigits, rfl⟩
    · contradiction

theorem completes_start (hnext : Progress.start.next? c = some next)
    (hrest : next.Completes rest) : Progress.start.Completes (c :: rest) := by
  by_cases hminus : c = '-'
  · simp only [next?, hminus, if_true, Option.some.injEq] at hnext
    subst hnext
    obtain ⟨whole, decimals, power, hwhole, hdecimals, hpower, rfl⟩ := hrest
    have hnumber : IsNumber (['-'] ++ (whole ++ (decimals ++ power))) :=
      .mk (Or.inr rfl) hwhole hdecimals hpower
    rw [hminus]
    exact hnumber
  · have hunsigned : Progress.minus.next? c = some next := by
      rw [next?, if_neg hminus] at hnext
      exact hnext
    obtain ⟨whole, decimals, power, hwhole, hdecimals, hpower, htext⟩ :=
      completes_whole hunsigned hrest
    have hnumber : IsNumber ([] ++ (whole ++ (decimals ++ power))) :=
      .mk (Or.inl rfl) hwhole hdecimals hpower
    rw [htext]
    exact hnumber

theorem completes_fraction (hnext : Progress.fraction.next? c = some next)
    (hrest : next.Completes rest) : Progress.fraction.Completes (c :: rest) := by
  simp only [next?] at hnext
  split at hnext
  next hdigit =>
    cases hnext
    obtain ⟨digits, power, hdigits, hpower, rfl⟩ := hrest
    exact ⟨c :: digits, power, List.forall_mem_cons.mpr ⟨hdigit, hdigits⟩, hpower, rfl⟩
  · split at hnext
    next hmark =>
      cases hnext
      obtain ⟨sign, digits, hsign, hdigits, rfl⟩ := hrest
      exact ⟨[], c :: (sign ++ digits), by simp, .digits hmark hsign hdigits, rfl⟩
    · contradiction

theorem completes_exponent (hnext : Progress.exponent.next? c = some next)
    (hrest : next.Completes rest) : Progress.exponent.Completes (c :: rest) := by
  simp only [next?] at hnext
  split at hnext
  next hsign =>
    cases hnext
    have hchar : [c] = ['+'] ∨ [c] = ['-'] := by simpa using hsign
    exact ⟨[c], rest, Or.inr hchar, hrest, rfl⟩
  · split at hnext
    next hdigit =>
      cases hnext
      exact ⟨[], c :: rest, Or.inl rfl, isDigits_cons hdigit hrest, rfl⟩
    · contradiction

/-- What may follow one character later may follow after that character. -/
theorem completes_cons (hnext : state.next? c = some next) (hrest : next.Completes rest) :
    state.Completes (c :: rest) := by
  cases state with
  | start => exact completes_start hnext hrest
  | minus => exact completes_whole hnext hrest
  | zero => exact completes_tail hnext hrest
  | fraction => exact completes_fraction hnext hrest
  | exponent => exact completes_exponent hnext hrest
  | integer =>
      by_cases hdigit : c.isDigit = true
      · simp only [next?, hdigit, if_true, Option.some.injEq] at hnext
        subst hnext
        obtain ⟨digits, decimals, power, hdigits, hdecimals, hpower, rfl⟩ := hrest
        exact ⟨c :: digits, decimals, power, List.forall_mem_cons.mpr ⟨hdigit, hdigits⟩,
          hdecimals, hpower, rfl⟩
      · have htail : Progress.zero.next? c = some next := by
          rw [next?, if_neg hdigit] at hnext
          exact hnext
        obtain ⟨decimals, power, hdecimals, hpower, htext⟩ := completes_tail htail hrest
        exact ⟨[], decimals, power, by simp, hdecimals, hpower, htext⟩
  | point =>
      simp only [next?, Option.ite_none_right_eq_some, Option.some.injEq] at hnext
      obtain ⟨hdigit, rfl⟩ := hnext
      obtain ⟨digits, power, hdigits, hpower, rfl⟩ := hrest
      exact ⟨c :: digits, power, isDigits_cons hdigit hdigits, hpower, rfl⟩
  | exponentSign =>
      simp only [next?, Option.ite_none_right_eq_some, Option.some.injEq] at hnext
      obtain ⟨hdigit, rfl⟩ := hnext
      exact isDigits_cons hdigit hrest
  | exponentDigits =>
      simp only [next?, Option.ite_none_right_eq_some, Option.some.injEq] at hnext
      obtain ⟨hdigit, rfl⟩ := hnext
      exact List.forall_mem_cons.mpr ⟨hdigit, hrest⟩

/-- A run that ends in a complete number has read what the grammar allows where it began. -/
theorem completes_of_run (hrun : state.run text = some last) (hshape : last.shape = .complete) :
    state.Completes text := by
  induction text generalizing state with
  | nil =>
      cases hrun
      exact completes_nil hshape
  | cons c text ih =>
      obtain ⟨next, hnext, hmore⟩ := Lexer.exists_next hrun
      exact completes_cons hnext (ih hmore)

theorem exists_run_zero (hshape : last.shape = .unfinished) :
    ∃ final, last.run ['0'] = some final ∧ final.shape = .complete := by
  cases last with
  | minus => exact ⟨zero, rfl, rfl⟩
  | point => exact ⟨fraction, rfl, rfl⟩
  | exponent => exact ⟨exponentDigits, rfl, rfl⟩
  | exponentSign => exact ⟨exponentDigits, rfl, rfl⟩
  | start | zero | integer | fraction | exponentDigits => contradiction

end Progress

theorem exists_run {text : List Char} (hshape : Shape.of text ≠ .invalid) :
    ∃ last, Progress.start.run text = some last ∧ last.shape = Shape.of text := by
  unfold Shape.of at hshape ⊢
  cases hrun : Progress.start.run text with
  | none =>
      rw [hrun] at hshape
      exact absurd rfl hshape
  | some last => exact ⟨last, rfl, rfl⟩

theorem isNumber_of_complete {text : List Char} (hshape : Shape.of text = .complete) :
    IsNumber text := by
  have hvalid : Shape.of text ≠ .invalid := by
    rw [hshape]
    decide
  obtain ⟨last, hrun, hlast⟩ := exists_run hvalid
  exact Progress.completes_of_run hrun (hlast.trans hshape)

theorem complete_iff_isNumber {text : List Char} : Shape.of text = .complete ↔ IsNumber text :=
  ⟨isNumber_of_complete, JsonText.shape_of_isNumber⟩

theorem complete_append_zero {text : List Char} (hshape : Shape.of text = .unfinished) :
    Shape.of (text ++ ['0']) = .complete := by
  have hvalid : Shape.of text ≠ .invalid := by
    rw [hshape]
    decide
  obtain ⟨last, hrun, hlast⟩ := exists_run hvalid
  obtain ⟨final, hfinal, hcomplete⟩ := Progress.exists_run_zero (hlast.trans hshape)
  exact of_eq_complete (Progress.run_append_some hrun hfinal) hcomplete

theorem ne_nil_of_valid {text : List Char} (hshape : Shape.of text ≠ .invalid) : text ≠ [] := by
  rintro rfl
  exact hshape rfl

theorem valid_iff {text : List Char} :
    Shape.of text ≠ .invalid ↔ text ≠ [] ∧ ∃ more, IsNumber (text ++ more) := by
  constructor
  · intro hvalid
    refine ⟨ne_nil_of_valid hvalid, ?_⟩
    cases hshape : Shape.of text with
    | complete => exact ⟨[], by rw [List.append_nil]; exact isNumber_of_complete hshape⟩
    | unfinished => exact ⟨['0'], isNumber_of_complete (complete_append_zero hshape)⟩
    | invalid => exact absurd hshape hvalid
  · rintro ⟨hne, more, hnumber⟩
    exact of_broken (complete_iff_isNumber.mpr hnumber) hne

end Shape

/-- A text is a number, or not one but the beginning of one, or neither, and its shape says
which. -/
theorem shape_eq_iff (text : List Char) :
    (Shape.of text = .complete ↔ IsNumber text) ∧
      (Shape.of text = .unfinished ↔
        text ≠ [] ∧ ¬IsNumber text ∧ ∃ more, more ≠ [] ∧ IsNumber (text ++ more)) ∧
      (Shape.of text = .invalid ↔
        text = [] ∨ ¬IsNumber text ∧ ∀ more, more ≠ [] → ¬IsNumber (text ++ more)) := by
  refine ⟨Shape.complete_iff_isNumber, ?_, ?_⟩
  · constructor
    · intro hshape
      have hvalid : Shape.of text ≠ .invalid := by
        rw [hshape]
        decide
      have hother : ¬IsNumber text := by
        rw [← Shape.complete_iff_isNumber, hshape]
        decide
      exact ⟨Shape.ne_nil_of_valid hvalid, hother, ['0'], List.cons_ne_nil _ _,
        Shape.isNumber_of_complete (Shape.complete_append_zero hshape)⟩
    · rintro ⟨hne, hother, more, _, hnumber⟩
      have hvalid := Shape.valid_iff.mpr ⟨hne, more, hnumber⟩
      cases hshape : Shape.of text with
      | complete => exact absurd (Shape.isNumber_of_complete hshape) hother
      | unfinished => rfl
      | invalid => exact absurd hshape hvalid
  · rw [← not_iff_not, ← ne_eq, Shape.valid_iff]
    constructor
    · rintro ⟨hne, more, hnumber⟩ (hnil | ⟨hother, hall⟩)
      · exact hne hnil
      · by_cases hmore : more = []
        · rw [hmore, List.append_nil] at hnumber
          exact hother hnumber
        · exact hall more hmore hnumber
    · intro hnot
      rw [not_or] at hnot
      refine ⟨hnot.1, ?_⟩
      by_contra hnone
      refine hnot.2 ⟨fun hnumber => hnone ⟨[], by rwa [List.append_nil]⟩, ?_⟩
      intro more _ hnumber
      exact hnone ⟨more, hnumber⟩

end QueryBody
