import QueryBody.Token.Lexer
import Mathlib.Data.List.TakeWhile
import Mathlib.Tactic

/-!
# Scanning one character ahead

A scanner splits a text.  The scanners of the lexer decide from the next character
alone whether they go on, and every beginning of what they take they take too.  Both
properties survive composition, so the scanners of numbers, words and blanks have them.
-/

namespace QueryBody
namespace Lexer

/-- A text may stand in place of another one after a token: it is empty, or begins with
the same character, or with a character at which the token ends anyway. -/
def Replaces (ends : Char → Bool) (later rest : List Char) : Prop :=
  later = [] ∨ later.head? = rest.head? ∨ ∃ c, later.head? = some c ∧ ends c = true

namespace Replaces

variable {ends : Char → Bool} {later rest : List Char}

theorem nil (rest : List Char) : Replaces ends [] rest := Or.inl rfl

theorem of_ends {c : Char} (hends : ends c = true) (later rest : List Char) :
    Replaces ends (c :: later) rest := Or.inr (Or.inr ⟨c, rfl, hends⟩)

theorem append_left (hreplaces : Replaces ends later rest) (front : List Char) :
    Replaces ends (front ++ later) (front ++ rest) := by
  cases front with
  | nil => exact hreplaces
  | cons c front => exact Or.inr (Or.inl rfl)

/-- What does not begin with a character of a class is replaced by the same. -/
theorem head_fails {p : Char → Bool} (hreplaces : Replaces ends later rest)
    (hfails : ∀ c, ends c = true → p c = false)
    (hrest : ∀ c, rest.head? = some c → p c = false) :
    ∀ c, later.head? = some c → p c = false := by
  intro c hhead
  rcases hreplaces with rfl | hsame | ⟨d, hd, hends⟩
  · contradiction
  · exact hrest c (hsame ▸ hhead)
  · rw [hhead] at hd
    cases hd
    exact hfails c hends

end Replaces

/-- A scanner that looks one character ahead. -/
structure Scans (ends : Char → Bool) (scan : List Char → List Char × List Char) : Prop where
  splits : ∀ text, (scan text).1 ++ (scan text).2 = text
  looks : ∀ text later, Replaces ends later (scan text).2 →
    scan ((scan text).1 ++ later) = ((scan text).1, later)
  shrinks : ∀ text front back, (scan text).1 = front ++ back → scan front = (front, [])

def andThen (first second : List Char → List Char × List Char) (text : List Char) :
    List Char × List Char :=
  ((first text).1 ++ (second (first text).2).1, (second (first text).2).2)

/-- A character of a class and the scanner after it, or nothing. -/
def lead (p : Char → Bool) (scan : List Char → List Char × List Char) :
    List Char → List Char × List Char
  | [] => ([], [])
  | c :: text => if p c then (c :: (scan text).1, (scan text).2) else ([], c :: text)

def stay (text : List Char) : List Char × List Char := ([], text)

namespace Scans

variable {ends : Char → Bool} {scan first second : List Char → List Char × List Char}

theorem of_nil (hscan : Scans ends scan) : scan [] = ([], []) := by
  have hsplit := List.append_eq_nil_iff.mp (hscan.splits [])
  exact Prod.ext hsplit.1 hsplit.2

theorem stay (ends : Char → Bool) : Scans ends Lexer.stay where
  splits _ := rfl
  looks _ _ _ := rfl
  shrinks text front back htext := by
    have hfront := (List.append_eq_nil_iff.mp htext.symm).1
    subst hfront
    rfl

theorem andThen (hfirst : Scans ends first) (hsecond : Scans ends second) :
    Scans ends (andThen first second) where
  splits text := by
    rw [Lexer.andThen, List.append_assoc, hsecond.splits, hfirst.splits]
  looks text later hlater := by
    change Replaces ends later (second (first text).2).2 at hlater
    have hmiddle : Replaces ends ((second (first text).2).1 ++ later) (first text).2 := by
      have happend := hlater.append_left (second (first text).2).1
      rwa [hsecond.splits] at happend
    have hleft := hfirst.looks text _ hmiddle
    have hright := hsecond.looks (first text).2 later hlater
    simp only [Lexer.andThen, List.append_assoc, hleft, hright]
  shrinks text front back htext := by
    rcases List.append_eq_append_iff.mp htext with ⟨more, hfront, hback⟩ | ⟨more, hfirstText, _⟩
    · -- the front reaches into what the second scanner takes
      have hmiddle : Replaces ends more (first text).2 := by
        cases more with
        | nil => exact .nil _
        | cons c more =>
            refine Or.inr (Or.inl ?_)
            rw [← hsecond.splits (first text).2, hback]
            rfl
      have hleft := hfirst.looks text more hmiddle
      have hright := hsecond.shrinks (first text).2 more back hback
      simp only [Lexer.andThen, hfront, hleft, hright]
    · have hleft := hfirst.shrinks text front more hfirstText
      simp only [Lexer.andThen, hleft, hsecond.of_nil, List.append_nil]

theorem lead {p : Char → Bool} (hscan : Scans ends scan)
    (hends : ∀ c, ends c = true → p c = false) : Scans ends (lead p scan) where
  splits text := by
    cases text with
    | nil => rfl
    | cons c text =>
        by_cases hc : p c = true
        · simp [Lexer.lead, hc, hscan.splits]
        · simp [Lexer.lead, hc]
  looks text later hlater := by
    have hstay (hfails : ∀ c, later.head? = some c → p c = false) :
        Lexer.lead p scan later = ([], later) := by
      cases later with
      | nil => rfl
      | cons d later => simp [Lexer.lead, hfails d rfl]
    cases text with
    | nil => exact hstay (hlater.head_fails hends (by simp [Lexer.lead]))
    | cons c text =>
        by_cases hc : p c = true
        · simp only [Lexer.lead, hc, if_true] at hlater ⊢
          simp only [List.cons_append, hc, if_true, hscan.looks text later hlater]
        · have hcut : Lexer.lead p scan (c :: text) = ([], c :: text) := by
            simp [Lexer.lead, hc]
          rw [hcut] at hlater ⊢
          exact hstay (hlater.head_fails hends (by simpa using hc))
  shrinks text front back htext := by
    cases text with
    | nil =>
        have hfront := (List.append_eq_nil_iff.mp htext.symm).1
        subst hfront
        rfl
    | cons c text =>
        by_cases hc : p c = true
        · simp only [Lexer.lead, hc, if_true] at htext
          cases front with
          | nil => rfl
          | cons d front =>
              rw [List.cons_append, List.cons.injEq] at htext
              obtain ⟨rfl, hmore⟩ := htext
              simp only [Lexer.lead, hc, if_true, hscan.shrinks text front back hmore]
        · simp only [Lexer.lead, hc] at htext
          have hfront := (List.append_eq_nil_iff.mp htext.symm).1
          subst hfront
          rfl

end Scans

theorem run_of_forall {p : Char → Bool} {front later : List Char}
    (hfront : ∀ c ∈ front, p c = true) (hlater : ∀ c, later.head? = some c → p c = false) :
    run p (front ++ later) = (front, later) := by
  induction front with
  | nil =>
      cases later with
      | nil => rfl
      | cons c later => simp [run, hlater c rfl]
  | cons c front ih =>
      have hc := hfront c List.mem_cons_self
      have hrest := ih fun d hd => hfront d (List.mem_cons_of_mem c hd)
      simp only [run, Prod.mk.injEq] at hrest ⊢
      simp [hc, hrest.1, hrest.2]

theorem mem_run {p : Char → Bool} {text : List Char} {c : Char} (hmem : c ∈ (run p text).1) :
    p c = true := List.mem_takeWhile_imp hmem

theorem head_run_rest {p : Char → Bool} (text : List Char) :
    ∀ c, (run p text).2.head? = some c → p c = false := by
  induction text with
  | nil => simp [run]
  | cons d text ih =>
      intro c hhead
      by_cases hd : p d = true
      · exact ih c (by simpa [run, hd] using hhead)
      · have hsame : d = c := by simpa [run, hd] using hhead
        simpa [hsame] using hd

theorem Scans.run {ends : Char → Bool} {p : Char → Bool}
    (hends : ∀ c, ends c = true → p c = false) : Scans ends (run p) where
  splits := run_append p
  looks text later hlater :=
    run_of_forall (fun _ hmem => mem_run hmem) (hlater.head_fails hends (head_run_rest text))
  shrinks text front back htext := by
    have hfront : ∀ c ∈ front, p c = true := by
      intro c hmem
      have htaken : c ∈ (Lexer.run p text).1 := htext ▸ List.mem_append_left back hmem
      exact mem_run htaken
    have hrun : Lexer.run p (front ++ []) = (front, []) := run_of_forall hfront (by simp)
    rwa [List.append_nil] at hrun

end Lexer
end QueryBody
