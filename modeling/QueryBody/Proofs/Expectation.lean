import QueryBody.Proofs.Acceptance
import QueryBody.Proofs.SilentFragment
import QueryBody.Proofs.SoundTokens
import Mathlib.Tactic

/-!
# What a reader expects

The kinds that a reader takes without a report, how many containers are open after
the tokens it has taken, and what of the setting matters for the next one.
-/

namespace QueryBody

/-- The kinds that are taken without a report. -/
def Focus.Expects (focus : Focus) (kind : Kind) : Prop :=
  match focus with
  | .value => KindSet.valueFirst.contains kind = true
  | .part container comma =>
      Reader.beginsPart container kind = true ∨ comma = none ∧ kind = container.closer
  | .separator container => kind = .comma ∨ kind = container.closer
  | .colon _ _ _ => kind = .colon
  | .parameterName _ => kind = .identifier
  | .parameterClose _ _ => kind = .parameterClose
  | _ => False

namespace Reader

variable {setting : Setting}

theorem valueFirst_of_value {lexeme : Lexeme} {holes : List Hole} {reports : List Diagnostic}
    (hcut : setting.isCutIn lexeme = false)
    (hsilent : (value setting lexeme holes reports).reports = []) :
    KindSet.valueFirst.contains lexeme.kind = true := by
  unfold value at hsilent
  simp only [hcut, Bool.false_eq_true, if_false] at hsilent
  split at hsilent
  · exact (not_silent_of_add (suffix_giveUp _ _ _) hsilent).elim
  · split at hsilent
    next hkind => rw [hkind]; rfl
    next hkind => rw [hkind]; rfl
    next hkind => rw [hkind]; rfl
    · split at hsilent
      next content hcontent =>
        rcases Lexeme.kind_of_scalar? hcontent with hkind | hkind | hkind | hkind | hkind <;>
          rw [hkind] <;> rfl
      · rw [deliver_reports] at hsilent
        exact (Report.add_ne_nil _ _ hsilent).elim

theorem expects_of_part {lexeme : Lexeme} {container : Container} {comma : Option Token}
    {holes : List Hole} {reports : List Diagnostic} (hcut : setting.isCutIn lexeme = false)
    (hsilent : (part setting lexeme container comma holes reports).reports = []) :
    (Focus.part container comma).Expects lexeme.kind := by
  by_cases hrecovery : KindSet.valueRecovery.contains lexeme.kind = true
  · rw [part_of_valueRecovery hrecovery] at hsilent
    rw [emptyPart_eq_close hsilent] at hsilent
    obtain ⟨hkind, hcomma⟩ := closer_of_close hsilent
    exact Or.inr ⟨hcomma, hkind⟩
  · unfold part at hsilent
    rw [if_neg hrecovery] at hsilent
    cases container with
    | array opener items => exact Or.inl (valueFirst_of_value hcut hsilent)
    | object opener members =>
        unfold property at hsilent
        simp only [hcut, Bool.false_eq_true, if_false] at hsilent
        split at hsilent
        next hkind => exact Or.inl (by simp [beginsPart, hkind])
        · exact (not_silent_of_add (suffix_skip _ _ _ _ _ _) hsilent).elim

theorem expects_of_separator {lexeme : Lexeme} {container : Container} {holes : List Hole}
    {reports : List Diagnostic}
    (hsilent : (separator setting lexeme container holes reports).reports = []) :
    lexeme.kind = .comma ∨ lexeme.kind = container.closer := by
  unfold separator at hsilent
  split at hsilent
  · unfold endPart at hsilent
    split at hsilent
    next hkind => exact Or.inl hkind
    · exact Or.inr (closer_of_close hsilent).1
  · dsimp only at hsilent
    split at hsilent
    · exact (not_silent_of_add (suffix_part _ _ _ _ _ _) hsilent).elim
    · exact (not_silent_of_add (suffix_skip _ _ _ _ _ _) hsilent).elim

/-- A token that is taken without a report is one that is expected. -/
theorem expects_of_silent {reader : Reader} {lexeme : Lexeme} {lexemes : List Lexeme}
    (hfollows : reader.Follows lexemes) (hcutMarker : setting.isCutInMarker lexeme = false)
    (hsilent : (reader.take setting lexeme).reports = []) :
    reader.focus.Expects lexeme.kind := by
  have hcut := isCutIn_of_isCutInMarker hcutMarker
  cases hfollows with
  | value hsurround reports => exact valueFirst_of_value hcut hsilent
  | opened hsurround hholds hempty reports => exact expects_of_part hcut hsilent
  | separated hsurround hholds hne hcomma reports => exact expects_of_part hcut hsilent
  | separator hsurround hholds hne reports => exact expects_of_separator hsilent
  | colon hsurround hawaits hname reports =>
      simp only [take, colon, hcut, Bool.false_eq_true, if_false] at hsilent
      split at hsilent
      next hkind => exact hkind
      · split at hsilent
        · exact (not_silent_of_add (suffix_value _ _ _ _) hsilent).elim
        · exact (not_silent_of_add (suffix_skip _ _ _ _ _ _) hsilent).elim
  | parameterName hsurround hmarker reports =>
      simp only [take, parameterName, hcut, Bool.false_eq_true, if_false] at hsilent
      split at hsilent
      next hkind => exact hkind
      · exact (not_silent_of_add (suffix_skipParameter _ _ _ _) hsilent).elim
  | parameterClose hsurround hmarker hname reports =>
      simp only [take, parameterClose, hcutMarker, Bool.false_eq_true, if_false] at hsilent
      split at hsilent
      next hkind => exact hkind
      · exact (not_silent_of_add (suffix_giveUp _ _ _) hsilent).elim
  | finished hspells reports =>
      simp only [take, hcut, Bool.false_eq_true, if_false] at hsilent
      exact (Report.add_ne_nil _ _ hsilent).elim

/-- A token that begins a value, but no property, is read where a value is waited for. -/
theorem exists_take_value (setting : Setting) {reader : Reader} {lexeme : Lexeme}
    (hexpects : reader.focus.Expects lexeme.kind)
    (hfirst : KindSet.valueFirst.contains lexeme.kind = true) (hname : lexeme.kind ≠ .string) :
    ∃ holes, reader.take setting lexeme = take setting ⟨.value, holes, reader.reports⟩ lexeme ∧
      Hole.cutOff holes = reader.cutRoot := by
  obtain ⟨focus, holes, reports⟩ := reader
  cases focus with
  | value => exact ⟨holes, rfl, rfl⟩
  | part container comma =>
      cases container with
      | array opener items => exact ⟨_, take_part_array hfirst opener items comma holes reports, rfl⟩
      | object opener members =>
          rcases hexpects with hbegins | ⟨-, hcloser⟩
          · exact absurd (of_decide_eq_true hbegins) hname
          · rw [hcloser] at hfirst
            contradiction
  | separator container =>
      cases container <;> rcases hexpects with hkind | hkind <;> rw [hkind] at hfirst <;>
        contradiction
  | colon opener members key | parameterName marker | parameterClose marker name =>
      rw [show lexeme.kind = _ from hexpects] at hfirst
      contradiction
  | _ => exact hexpects.elim

end Reader

/-! ### Open containers -/

/-- So many more brackets are open after the tokens than before them. -/
def Opens (count : Nat) (lexemes : List Lexeme) : Prop :=
  ∀ depth, lexemes.foldl (fun depth lexeme => Reader.pass lexeme depth) depth = depth + count

namespace Opens

theorem nil : Opens 0 [] := fun _ => rfl

theorem append {first second : Nat} {front back : List Lexeme} (hfront : Opens first front)
    (hback : Opens second back) : Opens (first + second) (front ++ back) := by
  intro depth
  rw [List.foldl_append, hfront, hback, Nat.add_assoc]

theorem neutral {lexeme : Lexeme} {kind : Kind} (hkind : lexeme.kind = kind)
    (hbrackets : kind ∉ [Kind.braceOpen, .bracketOpen, .braceClose, .bracketClose]) :
    Opens 0 [lexeme] := by
  intro depth
  subst hkind
  simp only [List.foldl_cons, List.foldl_nil, Reader.pass]
  split <;> simp_all

theorem opener {lexeme : Lexeme}
    (hkind : lexeme.kind = .braceOpen ∨ lexeme.kind = .bracketOpen) : Opens 1 [lexeme] := by
  intro depth
  rcases hkind with hkind | hkind <;> simp [Reader.pass, hkind]

theorem closed {lexemes : List Lexeme} {closing : Lexeme} (hopens : Opens 1 lexemes)
    (hkind : closing.kind = .braceClose ∨ closing.kind = .bracketClose) :
    Opens 0 (lexemes ++ [closing]) := by
  intro depth
  rw [List.foldl_append, hopens]
  rcases hkind with hkind | hkind <;> simp [Reader.pass, hkind]

end Opens

theorem Row.opens {α : Type} {spelling : α → List Lexeme} {parts : List α}
    {inner : List Lexeme} (hrow : Row spelling parts inner)
    (hparts : ∀ part ∈ parts, Opens 0 (spelling part)) : Opens 0 inner := by
  induction hrow with
  | nil => exact .nil
  | first part => exact hparts part List.mem_cons_self
  | next hfront hne hcomma part ih =>
      have hlast := hparts part (by simp)
      have hinit := ih fun earlier hmem => hparts earlier (List.mem_append_left _ hmem)
      exact hinit.append ((Opens.neutral hcomma (by decide)).append hlast)

theorem Property.opens {property : Property} (hname : property.name.kind = .string)
    (hcolon : property.colon.kind = .colon) (hwriting : Opens 0 property.writing.lexemes) :
    Opens 0 property.lexemes :=
  (Opens.neutral hname (by decide)).append ((Opens.neutral hcolon (by decide)).append hwriting)

theorem Spells.opens {value : Value} {lexemes : List Lexeme} (hspells : Spells value lexemes) :
    Opens 0 lexemes := by
  induction hspells with
  | scalar hcontent =>
      rcases Lexeme.kind_of_scalar? hcontent with hkind | hkind | hkind | hkind | hkind <;>
        exact .neutral hkind (by decide)
  | parameter hopening hname hclosing =>
      exact (Opens.neutral hopening (by decide)).append
        ((Opens.neutral hname (by decide)).append (.neutral hclosing (by decide)))
  | array hopening hclosing hrow hparts ih =>
      exact ((Opens.opener (Or.inr hopening)).append (hrow.opens ih)).closed (Or.inr hclosing)
  | object hopening hclosing hrow hnames hparts ih =>
      have hinner := hrow.opens fun part hmem =>
        Property.opens (hnames part hmem).1 (hnames part hmem).2 (ih part hmem)
      exact ((Opens.opener (Or.inl hopening)).append hinner).closed (Or.inl hclosing)

theorem Container.Holds.opens {container : Container} {lexemes : List Lexeme}
    (hholds : container.Holds lexemes) : Opens 1 lexemes := by
  cases hholds with
  | array hopening hrow hparts =>
      exact (Opens.opener (Or.inr hopening)).append
        (hrow.opens fun part hmem => (hparts part hmem).opens)
  | object hopening hrow hnames hparts =>
      refine (Opens.opener (Or.inl hopening)).append (hrow.opens fun part hmem => ?_)
      exact Property.opens (hnames part hmem).1 (hnames part hmem).2 (hparts part hmem).opens

theorem Container.Awaits.opens {container : Container} {lexemes : List Lexeme}
    (hawaits : container.Awaits lexemes) : Opens 1 lexemes := by
  cases hawaits with
  | first hholds hempty => exact hholds.opens
  | next hholds hne hcomma => exact hholds.opens.append (.neutral hcomma (by decide))

theorem Hole.Awaits.opens {hole : Hole} {lexemes : List Lexeme} (hawaits : hole.Awaits lexemes) :
    Opens 1 lexemes := by
  cases hawaits with
  | item hawaits => exact hawaits.opens
  | property hawaits hname hcolon =>
      exact hawaits.opens.append
        ((Opens.neutral hname (by decide)).append (.neutral hcolon (by decide)))

theorem Hole.Surround.opens {holes : List Hole} {lexemes : List Lexeme}
    (hsurround : Hole.Surround holes lexemes) : Opens holes.length lexemes := by
  induction hsurround with
  | nil => exact .nil
  | cons hsurround hawaits ih => exact ih.append hawaits.opens

/-- How many brackets are open after the tokens. -/
def openBrackets (lexemes : List Lexeme) : Nat :=
  lexemes.foldl (fun depth lexeme => Reader.pass lexeme depth) 0

theorem openBrackets_significant (lexemes : List Lexeme) :
    openBrackets (significant lexemes) = openBrackets lexemes := by
  unfold openBrackets
  generalize 0 = depth
  induction lexemes generalizing depth with
  | nil => rfl
  | cons lexeme rest ih =>
      rw [List.foldl_cons, ← ih]
      cases htrivia : lexeme.kind.isTrivia with
      | true =>
          have hpass : Reader.pass lexeme depth = depth := by
            unfold Reader.pass
            cases hkind : lexeme.kind <;> rw [hkind] at htrivia <;> first | rfl | contradiction
          rw [significant_cons_of_isTrivia htrivia, hpass]
      | false => rw [significant_cons_of_not_isTrivia htrivia, List.foldl_cons]

theorem openBrackets_eq {lexemes : List Lexeme} {count : Nat}
    (hopens : Opens count (significant lexemes)) : openBrackets lexemes = count := by
  rw [← openBrackets_significant, openBrackets, hopens, Nat.zero_add]

namespace Reader

/-! ### What matters of the setting -/

variable {first second : Setting}

theorem openContainer_congr (hlimit : first.nestingLimit = second.nestingLimit) (lexeme : Lexeme)
    (holes : List Hole) (reports : List Diagnostic) :
    openContainer first lexeme holes reports = openContainer second lexeme holes reports := by
  simp [openContainer, Setting.exceeded?, hlimit]

theorem take_congr (hlimit : first.nestingLimit = second.nestingLimit) {lexeme : Lexeme}
    (hcut : first.isCutIn lexeme = second.isCutIn lexeme) {reader : Reader}
    (hmarker : reader.awaitsMarker = true →
      first.isCutInMarker lexeme = second.isCutInMarker lexeme) :
    reader.take first lexeme = reader.take second lexeme := by
  have hvalue : ∀ holes reports,
      value first lexeme holes reports = value second lexeme holes reports := by
    intro holes reports
    simp only [value, hcut, openContainer_congr hlimit]
  obtain ⟨focus, holes, reports⟩ := reader
  cases focus with
  | value => exact hvalue holes reports
  | part container comma => simp only [take, part, property, hcut, hvalue]
  | separator container => simp only [take, separator, part, property, hcut, hvalue]
  | colon opener members key => simp only [take, colon, hcut, hvalue]
  | parameterName marker => simp only [take, parameterName, hcut]
  | parameterClose marker name => simp only [take, parameterClose, hmarker rfl]
  | skip depth container next => rfl
  | skipParameter depth => rfl
  | finished root => simp only [take, hcut]
  | stopped root isCut => rfl

theorem run_congr (hlimit : first.nestingLimit = second.nestingLimit) {lexemes : List Lexeme}
    (hcut : ∀ lexeme ∈ lexemes, first.isCutIn lexeme = second.isCutIn lexeme ∧
      first.isCutInMarker lexeme = second.isCutInMarker lexeme)
    (hclosed : ∀ lexeme ∈ lexemes, lexeme.kind ≠ .unterminatedComment) (reader : Reader) :
    reader.run first lexemes = reader.run second lexemes := by
  induction lexemes generalizing reader with
  | nil => rfl
  | cons lexeme rest ih =>
      have hstep : reader.step first lexeme = reader.step second lexeme := by
        obtain ⟨hlexeme, hmarker⟩ := hcut lexeme List.mem_cons_self
        unfold step
        rw [take_congr hlimit hlexeme fun _ => hmarker]
        simp [ignore, hclosed lexeme List.mem_cons_self]
      rw [run_cons, run_cons, hstep]
      exact ih (fun later hmem => hcut later (List.mem_cons_of_mem lexeme hmem))
        (fun later hmem => hclosed later (List.mem_cons_of_mem lexeme hmem)) _

/-- In a body that must be complete, only the nesting limit matters. -/
theorem run_congr_of_strict (hfirst : first.allowsFragments = false)
    (hsecond : second.allowsFragments = false)
    (hlimit : first.nestingLimit = second.nestingLimit) {lexemes : List Lexeme}
    (hclosed : ∀ lexeme ∈ lexemes, lexeme.kind ≠ .unterminatedComment) (reader : Reader) :
    reader.run first lexemes = reader.run second lexemes := by
  refine run_congr hlimit (fun lexeme _ => ?_) hclosed reader
  rw [Setting.isCutIn_of_strict hfirst, Setting.isCutIn_of_strict hsecond,
    Setting.isCutInMarker_of_strict hfirst, Setting.isCutInMarker_of_strict hsecond]
  exact ⟨rfl, rfl⟩

end Reader
end QueryBody
