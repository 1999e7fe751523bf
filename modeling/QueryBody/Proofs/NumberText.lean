import QueryBody.Number.Writing
import QueryBody.Number.Shape
import Mathlib.Tactic

/-!
# Written numbers have the shape of numbers

Whatever number is written, its text is one that the grammar of numbers accepts.
-/

namespace QueryBody

open Shape (Progress)

namespace Shape
namespace Progress

/-- States in which more digits change nothing. -/
def KeepsDigits (state : Progress) : Prop :=
  state = integer ∨ state = fraction ∨ state = exponentDigits

theorem run_digits {state : Progress} (hkeeps : state.KeepsDigits) {digits : List Char}
    (hdigits : ∀ c ∈ digits, c.isDigit = true) : state.run digits = some state := by
  induction digits with
  | nil => rfl
  | cons c digits ih =>
      have hc := hdigits c List.mem_cons_self
      have hnext : state.next? c = some state := by
        rcases hkeeps with rfl | rfl | rfl <;> simp [next?, hc]
      have hrest := ih fun d hd => hdigits d (List.mem_cons_of_mem c hd)
      rw [run, hnext, Option.bind_some, hrest]

/-- One digit at least leads from one state to another, which keeps digits. -/
theorem run_some_digits {first second : Progress}
    (hfirst : ∀ c, c.isDigit = true → first.next? c = some second)
    (hkeeps : second.KeepsDigits) {digits : List Char} (hne : digits ≠ [])
    (hdigits : ∀ c ∈ digits, c.isDigit = true) : first.run digits = some second := by
  obtain ⟨c, digits, rfl⟩ := List.exists_cons_of_ne_nil hne
  have hrest := run_digits hkeeps fun d hd => hdigits d (List.mem_cons_of_mem c hd)
  rw [run, hfirst c (hdigits c List.mem_cons_self), Option.bind_some, hrest]

theorem run_fraction {digits : List Char} (hne : digits ≠ [])
    (hdigits : ∀ c ∈ digits, c.isDigit = true) : point.run digits = some fraction :=
  run_some_digits (fun c hc => by simp [next?, hc]) (Or.inr (Or.inl rfl)) hne hdigits

theorem run_exponentDigits {digits : List Char} (hne : digits ≠ [])
    (hdigits : ∀ c ∈ digits, c.isDigit = true) :
    exponentSign.run digits = some exponentDigits :=
  run_some_digits (fun c hc => by simp [next?, hc]) (Or.inr (Or.inr rfl)) hne hdigits

theorem run_append_some {first second third : Progress} {front back : List Char}
    (hfront : first.run front = some second) (hback : second.run back = some third) :
    first.run (front ++ back) = some third := by
  rw [run_append, hfront, Option.bind_some, hback]

/-- States after the digits before the point. -/
def IsWhole (state : Progress) : Prop := state = zero ∨ state = integer

theorem run_point {state : Progress} (hwhole : state.IsWhole) : state.run ['.'] = some point := by
  rcases hwhole with rfl | rfl <;> rfl

end Progress

theorem of_eq_complete {text : List Char} {state : Progress}
    (hrun : Progress.start.run text = some state) (hshape : state.shape = .complete) :
    Shape.of text = .complete := by
  rw [Shape.of, hrun, Option.map_some, Option.getD_some, hshape]

end Shape

/-! ### Digits of natural numbers -/

theorem isDigit_of_mem_toDigits {n : Nat} : ∀ c ∈ Nat.toDigits 10 n, c.isDigit = true :=
  fun _ hmem => Nat.isDigit_of_mem_toDigits (by decide) (by decide) hmem

theorem exists_toDigits_eq_cons {n : Nat} (hpos : 0 < n) :
    ∃ d rest, Nat.toDigits 10 n = d :: rest ∧ d.isDigit = true ∧ d ≠ '0' := by
  induction n using Nat.strongRecOn with
  | ind n ih =>
      by_cases hsmall : n < 10
      · rw [Nat.toDigits_of_lt_base hsmall]
        refine ⟨n.digitChar, [], rfl, ?_, ?_⟩
        · interval_cases n <;> decide
        · interval_cases n <;> decide
      · obtain ⟨d, rest, hdigits, hd, hzero⟩ := ih (n / 10) (by omega) (by omega)
        rw [Nat.toDigits_of_base_le (by decide) (by omega), hdigits]
        exact ⟨d, rest ++ [(n % 10).digitChar], rfl, hd, hzero⟩

namespace Shape.Progress

/-- The states in which a number may begin. -/
def Begins (state : Progress) : Prop := state = start ∨ state = minus

theorem run_first {state : Progress} (hbegins : state.Begins) {d : Char}
    (hd : d.isDigit = true) : ∃ whole : Progress, state.run [d] = some whole ∧ whole.IsWhole := by
  by_cases hzero : d = '0'
  · subst hzero
    exact ⟨zero, by rcases hbegins with rfl | rfl <;> rfl, Or.inl rfl⟩
  · have hminus : d ≠ '-' := by
      rintro rfl
      contradiction
    refine ⟨integer, ?_, Or.inr rfl⟩
    rcases hbegins with rfl | rfl <;> simp [run, next?, hzero, hminus, hd]

theorem run_whole {state : Progress} (hbegins : state.Begins) {d : Char} {rest : List Char}
    (hd : d.isDigit = true) (hzero : d ≠ '0') (hrest : ∀ c ∈ rest, c.isDigit = true) :
    state.run (d :: rest) = some integer := by
  have hminus : d ≠ '-' := by
    rintro rfl
    contradiction
  have hfirst : state.run [d] = some integer := by
    rcases hbegins with rfl | rfl <;> simp [run, next?, hzero, hminus, hd]
  exact run_append_some hfirst (run_digits (Or.inl rfl) hrest)

theorem run_toDigits {state : Progress} (hbegins : state.Begins) (n : Nat) :
    ∃ whole : Progress, state.run (Nat.toDigits 10 n) = some whole ∧ whole.IsWhole := by
  rcases Nat.eq_zero_or_pos n with rfl | hpos
  · exact run_first hbegins rfl
  · obtain ⟨d, rest, hdigits, hd, hzero⟩ := exists_toDigits_eq_cons hpos
    have hrest : ∀ c ∈ rest, c.isDigit = true := by
      intro c hmem
      exact isDigit_of_mem_toDigits c (hdigits ▸ List.mem_cons_of_mem d hmem)
    exact ⟨integer, hdigits ▸ run_whole hbegins hd hzero hrest, Or.inr rfl⟩

end Shape.Progress

/-! ### Decimals -/

namespace Decimal

theorem run_exponentText {state : Progress}
    (hmark : state.next? 'e' = some Progress.exponent) (exponent : Int) :
    state.run (exponentText exponent) = some Progress.exponentDigits := by
  have hdigits : Progress.exponentSign.run (Nat.toDigits 10 exponent.natAbs) =
      some Progress.exponentDigits :=
    Progress.run_exponentDigits Nat.toDigits_ne_nil isDigit_of_mem_toDigits
  have hsign : Progress.exponent.next? (if exponent < 0 then '-' else '+') =
      some Progress.exponentSign := by
    split <;> rfl
  rw [exponentText, Progress.run, hmark, Option.bind_some, Progress.run, hsign,
    Option.bind_some, hdigits]

theorem run_scientific {state : Progress} (hbegins : state.Begins) {digits : List Char}
    (hne : digits ≠ []) (hdigits : ∀ c ∈ digits, c.isDigit = true) (exponent : Int) :
    state.run (scientific digits exponent) = some Progress.exponentDigits := by
  obtain ⟨d, others, rfl⟩ := List.exists_cons_of_ne_nil hne
  obtain ⟨whole, hfirst, hwhole⟩ := Progress.run_first hbegins (hdigits d List.mem_cons_self)
  cases others with
  | nil =>
      refine Progress.run_append_some hfirst (run_exponentText ?_ exponent)
      rcases hwhole with rfl | rfl <;> rfl
  | cons second others =>
      have hfraction : Progress.point.run (second :: others) = some Progress.fraction :=
        Progress.run_fraction (List.cons_ne_nil _ _)
          fun c hmem => hdigits c (List.mem_cons_of_mem d hmem)
      have hfront : state.run ([d] ++ (['.'] ++ (second :: others))) = some Progress.fraction :=
        Progress.run_append_some hfirst
          (Progress.run_append_some (Progress.run_point hwhole) hfraction)
      have hall := Progress.run_append_some hfront (run_exponentText rfl exponent)
      simpa [scientific] using hall

theorem run_positional {state : Progress} (hbegins : state.Begins) {d : Char}
    {rest : List Char} (hd : d.isDigit = true) (hzero : d ≠ '0')
    (hrest : ∀ c ∈ rest, c.isDigit = true) (places : Nat) :
    state.run (positional (d :: rest) (places + 1)) = some Progress.fraction := by
  let fraction := rest.drop places
  have hwhole : state.run (d :: (rest.take places ++
      List.replicate (places + 1 - (d :: rest).length) '0')) = some Progress.integer := by
    apply Progress.run_whole hbegins hd hzero
    intro c hmem
    rcases List.mem_append.mp hmem with hmem | hmem
    · exact hrest c (List.mem_of_mem_take hmem)
    · rw [List.eq_of_mem_replicate hmem]
      rfl
  have hfraction : Progress.point.run (if fraction.isEmpty then ['0'] else fraction) =
      some Progress.fraction := by
    apply Progress.run_fraction
    · split
      · simp
      next hsome => simpa using hsome
    · intro c hmem
      split at hmem
      · rw [List.mem_singleton] at hmem
        rw [hmem]
        rfl
      · exact hrest c (List.mem_of_mem_drop hmem)
  have hall := Progress.run_append_some hwhole
    (Progress.run_append_some (Progress.run_point (Or.inr rfl)) hfraction)
  simpa [positional, fraction] using hall

theorem run_small {state : Progress} (hbegins : state.Begins) {digits : List Char}
    (hne : digits ≠ []) (hdigits : ∀ c ∈ digits, c.isDigit = true) (zeros : Nat) :
    state.run ('0' :: '.' :: List.replicate zeros '0' ++ digits) = some Progress.fraction := by
  have hfraction : Progress.point.run (List.replicate zeros '0' ++ digits) =
      some Progress.fraction := by
    apply Progress.run_fraction
    · simp [hne]
    · intro c hmem
      rcases List.mem_append.mp hmem with hmem | hmem
      · rw [List.eq_of_mem_replicate hmem]
        rfl
      · exact hdigits c hmem
  have hfront : state.run ['0', '.'] = some Progress.point := by
    rcases hbegins with rfl | rfl <;> rfl
  have hall := Progress.run_append_some hfront hfraction
  simpa using hall

/-- A decimal whose text is a number: any one but a zero that is scaled. -/
def IsPlain (decimal : Decimal) : Prop := 0 < decimal.digits ∨ decimal = ⟨0, 0⟩

theorem run_text {state : Progress} (hbegins : state.Begins) {decimal : Decimal}
    (hplain : decimal.IsPlain) :
    ∃ last, state.run decimal.text = some last ∧ last.shape = .complete := by
  rcases hplain with hpos | rfl
  · obtain ⟨d, rest, hcons, hd, hzero⟩ := exists_toDigits_eq_cons hpos
    have hne : Nat.toDigits 10 decimal.digits ≠ [] := Nat.toDigits_ne_nil
    unfold text
    dsimp only
    split
    · exact ⟨_, run_scientific hbegins hne isDigit_of_mem_toDigits _, rfl⟩
    · split
      · exact ⟨_, run_small hbegins hne isDigit_of_mem_toDigits _, rfl⟩
      · have hrest : ∀ c ∈ rest, c.isDigit = true := by
          intro c hmem
          exact isDigit_of_mem_toDigits c (hcons ▸ List.mem_cons_of_mem d hmem)
        rw [hcons]
        exact ⟨_, run_positional hbegins hd hzero hrest _, rfl⟩
  · have htext : text ⟨0, 0⟩ = ['0', '.', '0'] := by decide
    rw [htext]
    rcases hbegins with rfl | rfl <;> exact ⟨_, rfl, rfl⟩

theorem not_readsBack_zero {b : Binary} (hpos : 0 < b.m) (g : Int) :
    readsBack b g 0 = false := by
  have hbelow : 0 < b.below := by
    unfold Binary.below
    split <;> omega
  have hscale : 0 < quarterScale b.q g :=
    Nat.mul_pos (Nat.pow_pos (by decide)) (Nat.pow_pos (by decide))
  have hlow : 0 < b.below * quarterScale b.q g := Nat.mul_pos hbelow hscale
  unfold readsBack
  simp only [Nat.zero_mul]
  split
  · simp [hlow.ne']
  · simp

theorem digits_pos_of_onGrid? {b : Binary} (hpos : 0 < b.m) {g : Int} {decimal : Decimal}
    (hfound : onGrid? b g = some decimal) : 0 < decimal.digits := by
  have hlow : ∀ point, readsBack b g point = true → 0 < point := by
    intro point hreads
    rcases Nat.eq_zero_or_pos point with rfl | hpoint
    · rw [not_readsBack_zero hpos] at hreads
      contradiction
    · exact hpoint
  unfold onGrid? at hfound
  dsimp only at hfound
  split at hfound
  · contradiction
  next hreads _ =>
    cases hfound
    exact hlow _ hreads
  next _ hreads =>
    cases hfound
    exact hlow _ hreads
  next hreads hreadsHigh =>
    split at hfound
    · cases hfound
      exact hlow _ hreads
    · cases hfound
      exact hlow _ hreadsHigh

theorem isPlain_of_shortest? {b : Binary} (hzero : b.m = 0 → b = ⟨0, -1074, false⟩)
    {decimal : Decimal} (hfound : shortest? b = some decimal) : decimal.IsPlain := by
  rcases Nat.eq_zero_or_pos b.m with hm | hpos
  · rw [hzero hm] at hfound
    have hwhole : shortest? ⟨0, -1074, false⟩ = some ⟨0, 0⟩ := by decide +kernel
    rw [hwhole] at hfound
    cases hfound
    exact Or.inr rfl
  · obtain ⟨g, _, hgrid⟩ := List.exists_of_findSome?_eq_some hfound
    exact Or.inl (digits_pos_of_onGrid? hpos hgrid)

theorem Binary.ofFloat_eq_of_m_eq_zero {value : Float} (hm : (Binary.ofFloat value).m = 0) :
    Binary.ofFloat value = ⟨0, -1074, false⟩ := by
  unfold Binary.ofFloat at hm ⊢
  dsimp only at hm ⊢
  split
  next hbiased =>
    rw [if_pos hbiased] at hm
    have hmantissa : value.toBits.toNat % mantissas = 0 := hm
    rw [hmantissa]
  next hbiased =>
    rw [if_neg hbiased] at hm
    simp only [mantissas] at hm
    omega

end Decimal

namespace Number

theorem run_floatMagnitude {state : Progress} (hbegins : state.Begins) (value : Float) :
    ∃ last, state.run (floatMagnitude value) = some last ∧ last.shape = .complete := by
  unfold floatMagnitude
  split
  next decimal hfound =>
    have hplain := Decimal.isPlain_of_shortest? Decimal.Binary.ofFloat_eq_of_m_eq_zero hfound
    exact Decimal.run_text hbegins hplain
  · rcases hbegins with rfl | rfl <;> exact ⟨_, rfl, rfl⟩

theorem shape_signed (isNegative : Bool) {text : List Char}
    (htext : ∀ state : Progress, state.Begins →
      ∃ last, state.run text = some last ∧ last.shape = .complete) :
    Shape.of ((if isNegative then ['-'] else []) ++ text) = .complete := by
  cases isNegative with
  | true =>
      obtain ⟨last, hrun, hshape⟩ := htext .minus (Or.inr rfl)
      exact Shape.of_eq_complete (Progress.run_append_some rfl hrun) hshape
  | false =>
      obtain ⟨last, hrun, hshape⟩ := htext .start (Or.inl rfl)
      exact Shape.of_eq_complete hrun hshape

/-- The text of a number is a number. -/
theorem shape_chars (number : Number) : Shape.of number.chars = .complete := by
  cases number with
  | integer value =>
      have hdigits : ∀ state : Progress, state.Begins →
          ∃ last, state.run (Nat.toDigits 10 value.natAbs) = some last ∧
            last.shape = .complete := by
        intro state hbegins
        obtain ⟨whole, hrun, hwhole⟩ := Progress.run_toDigits hbegins value.natAbs
        refine ⟨whole, hrun, ?_⟩
        rcases hwhole with rfl | rfl <;> rfl
      have hsigned := shape_signed (decide (value < 0)) hdigits
      simpa [chars] using hsigned
  | float value =>
      have hsigned := shape_signed (!decide (value.toBits.toNat < UInt64.size / 2))
        fun state hbegins => run_floatMagnitude hbegins value
      unfold chars
      by_cases hsign : value.toBits.toNat < UInt64.size / 2
      · simpa [hsign] using hsigned
      · simpa [hsign] using hsigned

end Number
end QueryBody
