import QueryBody.Proofs.SilentRun
import Mathlib.Tactic

/-!
# Silent fragments

A fragment that is read without a report follows the grammar up to the place where
it is cut off, and its root is what the reader has there.
-/

namespace QueryBody

theorem Lexeme.not_valueRecovery_of_isOpen {lexeme : Lexeme} (hopen : lexeme.isOpen = true) :
    KindSet.valueRecovery.contains lexeme.kind = false := by
  unfold isOpen at hopen
  split at hopen
  next hkind => rw [hkind]; rfl
  next hkind => rw [hkind]; rfl
  next hkind => rw [hkind]; rfl
  next hkind => rw [hkind]; rfl
  next hkind => rw [hkind]; rfl
  · contradiction

namespace Reader

variable {setting : Setting}

/-- The root if the body is cut off here. -/
def cutRoot (reader : Reader) : Option Value :=
  match reader.focus with
  | .value | .parameterName _ | .parameterClose _ _ | .skipParameter _ =>
      Hole.cutOff reader.holes
  | .part container _ | .separator container | .skip _ container _ =>
      some (container.cutOff reader.holes)
  | .colon opener members _ => some ((Container.object opener members).cutOff reader.holes)
  | .finished root | .stopped root _ => root

theorem isOpen_of_isCutIn {lexeme : Lexeme} (hcut : setting.isCutIn lexeme = true) :
    lexeme.isOpen = true := by
  unfold Setting.isCutIn at hcut
  exact (Bool.and_eq_true_iff.mp hcut).2

theorem part_of_isCutIn {lexeme : Lexeme} (hcut : setting.isCutIn lexeme = true)
    (container : Container) (comma : Option Token) (holes : List Hole)
    (reports : List Diagnostic) :
    part setting lexeme container comma holes reports =
      ⟨.stopped (some (container.cutOff holes)) true, [], reports⟩ := by
  have hrecovery := Lexeme.not_valueRecovery_of_isOpen (isOpen_of_isCutIn hcut)
  unfold part
  rw [hrecovery]
  cases container with
  | array opener items =>
      simp only [value, hcut, if_true]
      rfl
  | object opener members => simp [property, hcut]

theorem take_of_isCutIn {reader : Reader} {lexeme : Lexeme} {lexemes : List Lexeme}
    (hfollows : reader.Follows lexemes) (hcut : setting.isCutIn lexeme = true)
    (hsilent : (reader.take setting lexeme).reports = []) :
    reader.take setting lexeme = ⟨.stopped reader.cutRoot true, [], reader.reports⟩ := by
  cases hfollows with
  | value hsurround reports => simp [take, value, hcut, cutRoot]
  | opened hsurround hholds hempty reports => exact part_of_isCutIn hcut _ _ _ _
  | separated hsurround hholds hne hcomma reports => exact part_of_isCutIn hcut _ _ _ _
  | separator hsurround hholds hne reports =>
      rename_i container holes front back
      have hrecovery := Lexeme.not_valueRecovery_of_isOpen (isOpen_of_isCutIn hcut)
      change (separator setting lexeme container holes reports).reports = [] at hsilent
      unfold separator at hsilent
      rw [hrecovery] at hsilent
      dsimp only at hsilent
      split at hsilent
      · contradiction
      · split at hsilent
        · exact (not_silent_of_add (suffix_part _ _ _ _ _ _) hsilent).elim
        · exact (not_silent_of_add (suffix_skip _ _ _ _ _ _) hsilent).elim
  | colon hsurround hawaits hname reports => simp [take, colon, hcut, cutRoot]
  | parameterName hsurround hmarker reports => simp [take, parameterName, hcut, cutRoot]
  | parameterClose hsurround hmarker hname reports =>
      simp [take, parameterClose, Setting.isCutInMarker, hcut, cutRoot]
  | finished hspells reports => simp [take, hcut, cutRoot]

theorem take_of_isCutInMarker {reader : Reader} {lexeme : Lexeme} {lexemes : List Lexeme}
    (hfollows : reader.Follows lexemes) (hawaits : reader.awaitsMarker = true)
    (hcut : setting.isCutInMarker lexeme = true) :
    reader.take setting lexeme = ⟨.stopped reader.cutRoot true, [], reader.reports⟩ := by
  cases hfollows with
  | parameterClose hsurround hmarker hname reports => simp [take, parameterClose, hcut, cutRoot]
  | _ => contradiction

theorem step_stopped (root : Option Value) (isCut : Bool) (holes : List Hole)
    (reports : List Diagnostic) (lexeme : Lexeme) :
    step setting ⟨.stopped root isCut, holes, reports⟩ lexeme =
      ⟨.stopped root isCut, holes, reports⟩ := by
  unfold step
  split
  · simp [ignore, isStopped]
  · rfl

theorem run_stopped (root : Option Value) (isCut : Bool) (holes : List Hole)
    (reports : List Diagnostic) (lexemes : List Lexeme) :
    run setting ⟨.stopped root isCut, holes, reports⟩ lexemes =
      ⟨.stopped root isCut, holes, reports⟩ := by
  induction lexemes with
  | nil => rfl
  | cons lexeme rest ih => rw [run_cons, step_stopped, ih]

/-- A token of a silent fragment goes on with the sentence, or the body is cut off in it. -/
theorem follows_or_cut_step {reader : Reader} {lexeme : Lexeme} {lexemes : List Lexeme}
    (hfollows : reader.Follows lexemes) (hsilent : (reader.step setting lexeme).reports = []) :
    (reader.step setting lexeme).Follows (lexemes ++ significant [lexeme]) ∨
      reader.step setting lexeme = ⟨.stopped reader.cutRoot true, [], []⟩ := by
  have hbefore := reports_eq_nil_of_suffix (suffix_step setting reader lexeme) hsilent
  cases htrivia : lexeme.kind.isTrivia with
  | true =>
      simp only [step, htrivia, if_true] at hsilent ⊢
      rw [ignore_of_silent hsilent, significant_cons_of_isTrivia htrivia]
      exact Or.inl (by simpa using hfollows)
  | false =>
      rw [step_of_not_isTrivia htrivia] at hsilent ⊢
      rw [significant_cons_of_not_isTrivia htrivia]
      cases hcut : setting.isCutIn lexeme with
      | true =>
          have htake := take_of_isCutIn hfollows hcut hsilent
          rw [hbefore] at htake
          exact Or.inr htake
      | false =>
          by_cases hmarker : reader.awaitsMarker = true ∧ setting.isCutInMarker lexeme = true
          · have htake := take_of_isCutInMarker hfollows hmarker.1 hmarker.2
            rw [hbefore] at htake
            exact Or.inr htake
          · have hopen : reader.awaitsMarker = true → setting.isCutInMarker lexeme = false := by
              intro hawaits
              simpa [hawaits] using hmarker
            exact Or.inl (follows_take hfollows hcut hopen hsilent)

theorem follows_or_cut_run {reader : Reader} {front lexemes : List Lexeme}
    (hfollows : reader.Follows front) (hsilent : (reader.run setting lexemes).reports = []) :
    ∃ before after last, lexemes = before ++ after ∧
      Follows last (front ++ significant before) ∧
      (reader.run setting lexemes = last ∨
        reader.run setting lexemes = ⟨.stopped last.cutRoot true, [], []⟩) := by
  induction lexemes generalizing reader front with
  | nil => exact ⟨[], [], reader, rfl, by simpa using hfollows, Or.inl rfl⟩
  | cons lexeme rest ih =>
      rw [run_cons] at hsilent ⊢
      have hstep := reports_eq_nil_of_suffix (suffix_run setting _ rest) hsilent
      rcases follows_or_cut_step hfollows hstep with hnext | hcut
      · obtain ⟨before, after, last, hrest, hlast, hrun⟩ := ih hnext hsilent
        refine ⟨lexeme :: before, after, last, by rw [hrest, List.cons_append], ?_, hrun⟩
        have happend : significant (lexeme :: before) =
            significant [lexeme] ++ significant before := significant_append [lexeme] before
        rwa [happend, ← List.append_assoc]
      · refine ⟨[], lexeme :: rest, reader, rfl, by simpa using hfollows, Or.inr ?_⟩
        rw [hcut, run_stopped]

/-- What is missing at the end of a fragment is left out. -/
theorem finish_of_follows {reader : Reader} {lexemes : List Lexeme}
    (hfollows : reader.Follows lexemes) (hfragments : setting.allowsFragments = true) :
    (reader.finish setting false).root = reader.cutRoot ∧
      (reader.finish setting false).reports = reader.reports := by
  cases hfollows with
  | value hsurround reports =>
      rename_i holes
      cases holes with
      | nil => exact ⟨rfl, rfl⟩
      | cons hole rest => simp [finish, endBefore, hfragments, cutRoot]
  | opened hsurround hholds hempty reports => simp [finish, endIn, hfragments, cutRoot]
  | separated hsurround hholds hne hcomma reports => simp [finish, endIn, hfragments, cutRoot]
  | separator hsurround hholds hne reports => simp [finish, endIn, hfragments, cutRoot]
  | colon hsurround hawaits hname reports =>
      simp [finish, endAfterName, endIn, hfragments, cutRoot]
  | parameterName hsurround hmarker reports => simp [finish, endBefore, hfragments, cutRoot]
  | parameterClose hsurround hmarker hname reports =>
      simp [finish, endBefore, hfragments, cutRoot]
  | finished hspells reports => exact ⟨rfl, rfl⟩

end Reader
end QueryBody
