import QueryBody.Proofs.UncutFragments
import Mathlib.Tactic

/-!
# Tokens after the root

A value is read from its own tokens, whatever follows.  The first token after it is
reported, and nothing else is, unless the body is cut off in that token: then the
body is the value alone.
-/

namespace QueryBody
namespace Reader

variable {setting : Setting}

theorem run_finished_cons {extra : Lexeme} (hsignificant : extra.kind.isTrivia = false)
    (root : Option Value) (holes : List Hole) (reports : List Diagnostic) (back : List Lexeme) :
    run setting ⟨.finished root, holes, reports⟩ (extra :: back) =
      if setting.isCutIn extra then ⟨.stopped root true, [], reports⟩
      else excess extra root reports := by
  rw [run_cons, step_of_not_isTrivia hsignificant, take]
  split
  · exact run_stopped root true [] reports back
  · exact run_stopped root false [] _ back

theorem run_spells_append {value : Value} {front : List Lexeme} (hspells : Spells value front)
    (hallows : Allows setting.nestingLimit value.nesting)
    (hcut : ∀ lexeme ∈ front, setting.isCutIn lexeme = false) (back : List Lexeme) :
    start.run setting (front ++ back) = run setting ⟨.finished (some value), [], []⟩ back := by
  have hroom : Allows setting.nestingLimit (([] : List Hole).length + value.nesting) := by
    simpa using hallows
  rw [run_append, start, hspells.delivers hcut [] [] hroom]
  rfl

end Reader

theorem isCutIn_of_significant (options : Options) {source : String} {front back : List Lexeme}
    {extra : Lexeme} (hsignificant : significant (lex source) = front ++ extra :: back) :
    ∀ lexeme ∈ front, (options.setting source).isCutIn lexeme = false := by
  intro lexeme hmem
  obtain ⟨before, after, rfl⟩ := List.append_of_mem hmem
  rw [List.append_assoc, List.cons_append] at hsignificant
  have hlt := stop_lt_of_significant hsignificant (by simp)
  simp [Setting.isCutIn, Options.setting, hlt.ne]

/-- A body that is a value and more tokens has the value as its tree.  It has one diagnostic, at
the first of those tokens, unless the body is cut off in that token. -/
theorem parse_of_excess {options : Options} {source : String} {value : Value}
    {front back : List Lexeme} {extra : Lexeme}
    (hclosed : ∀ lexeme ∈ lex source, lexeme.kind ≠ .unterminatedComment)
    (hspells : Spells value front) (hallows : Allows options.nestingLimit value.nesting)
    (hsignificant : significant (lex source) = front ++ extra :: back) :
    options.parse source =
      if (options.setting source).isCutIn extra then ⟨some value, ⟨[]⟩, true⟩
      else ⟨some value, ⟨[Report.instead .trailingContent extra]⟩, false⟩ := by
  have hmem : extra ∈ significant (lex source) := by simp [hsignificant]
  have hextra := isTrivia_of_mem_significant hmem
  have hcut := isCutIn_of_significant options hsignificant
  rw [Options.parse, Reader.run_significant (Or.inr hclosed), hsignificant,
    Reader.run_spells_append hspells hallows hcut, Reader.run_finished_cons hextra]
  split <;> rfl

theorem parse_of_excess_comma :
    ∃ value front extra back,
      significant (lex "[1] /* x */ , 12") = front ++ extra :: back ∧ extra.kind = .comma ∧
        (Options.fragmentWithin none).parse "[1] /* x */ , 12" =
          ⟨some value, ⟨[Report.instead .trailingContent extra]⟩, false⟩ := by
  let number : Lexeme := .placed .number 1 ['1']
  let opening : Lexeme := .placed .bracketOpen 0 ['[']
  let closing : Lexeme := .placed .bracketClose 2 [']']
  let comma : Lexeme := .placed .comma 12 [',']
  obtain ⟨content, hcontent⟩ : ∃ content, number.scalar? = some content :=
    Option.isSome_iff_exists.mp (by decide +kernel)
  let item : Writing := ⟨.scalar number.toToken content, [number]⟩
  have hspells : Spells (.array opening.toToken [item.value]) [opening, number, closing] :=
    .array rfl rfl (.first item) (List.forall_mem_singleton.mpr (.scalar hcontent))
  have hclosed : ∀ lexeme ∈ lex "[1] /* x */ , 12", lexeme.kind ≠ .unterminatedComment := by
    have hkinds : (lex "[1] /* x */ , 12").all (·.kind ≠ .unterminatedComment) = true := by decide +kernel
    simpa using hkinds
  have hsignificant : significant (lex "[1] /* x */ , 12") =
      [opening, number, closing] ++ comma :: [.placed .number 14 ['1', '2']] := by decide +kernel
  have hallows : Allows (Options.fragmentWithin none).nestingLimit
      (Value.array opening.toToken [item.value]).nesting := by
    simp [Allows, Options.fragmentWithin]
  have hcut : ((Options.fragmentWithin none).setting "[1] /* x */ , 12").isCutIn comma = false := by
    decide +kernel
  have hbody := parse_of_excess hclosed hspells hallows hsignificant
  rw [hcut, if_neg Bool.false_ne_true] at hbody
  exact ⟨_, _, comma, _, hsignificant, rfl, hbody⟩

/-- A number after the root is not reported where more input could change it. -/
theorem parse_ne_of_last_number :
    ¬∀ (options : Options) (source : String) (value : Value) (front back : List Lexeme)
      (extra : Lexeme), options.nestingLimit = none →
      (∀ lexeme ∈ lex source, lexeme.kind ≠ .unterminatedComment) → Spells value front →
        significant (lex source) = front ++ extra :: back →
        (options.parse source).root = some value ∧
          (options.parse source).diagnostics.toList = [Report.instead .trailingContent extra] := by
  intro hall
  let opening : Lexeme := .placed .bracketOpen 0 ['[']
  let closing : Lexeme := .placed .bracketClose 1 [']']
  have hspells : Spells (.array opening.toToken []) [opening, closing] :=
    .array rfl rfl .nil (fun _ hmem => absurd hmem List.not_mem_nil)
  have hclosed : ∀ lexeme ∈ lex "[] 12", lexeme.kind ≠ .unterminatedComment := by
    have hkinds : (lex "[] 12").all (·.kind ≠ .unterminatedComment) = true := by decide +kernel
    simpa using hkinds
  have hsignificant : significant (lex "[] 12") =
      [opening, closing] ++ .placed .number 3 ['1', '2'] :: [] := by decide +kernel
  have hone := (hall (Options.fragmentWithin none) "[] 12" _ _ _ _ rfl hclosed hspells
    hsignificant).2
  have hnone : ((Options.fragmentWithin none).parse "[] 12").diagnostics.toList = [] := by decide +kernel
  rw [hnone] at hone
  contradiction

end QueryBody
