import QueryBody.Proofs.Reports
import QueryBody.Proofs.SentenceRun
import Mathlib.Tactic

/-!
# Silent runs follow the grammar

As long as nothing is reported, the tokens that a reader has taken are the beginning
of a sentence, and its focus and its holes say how far into the sentence it is.
-/

namespace QueryBody

/-- The tokens of an open container: its bracket and its parts so far, without a comma
after the last one. -/
inductive Container.Holds : Container → List Lexeme → Prop
  | array {opening : Lexeme} {parts : List Writing} {inner : List Lexeme}
      (hopening : opening.kind = .bracketOpen) (hrow : Row Writing.lexemes parts inner)
      (hparts : ∀ part ∈ parts, Spells part.value part.lexemes) :
      Holds (.array opening.toToken (parts.map Writing.value).reverse) (opening :: inner)
  | object {opening : Lexeme} {parts : List Property} {inner : List Lexeme}
      (hopening : opening.kind = .braceOpen) (hrow : Row Property.lexemes parts inner)
      (hnames : ∀ part ∈ parts, part.name.kind = .string ∧ part.colon.kind = .colon)
      (hparts : ∀ part ∈ parts, Spells part.writing.value part.writing.lexemes) :
      Holds (.object opening.toToken (parts.map Property.member).reverse) (opening :: inner)

/-- The tokens of an open container up to where its next part begins. -/
inductive Container.Awaits : Container → List Lexeme → Prop
  | first {container : Container} {lexemes : List Lexeme} (hholds : container.Holds lexemes)
      (hempty : container.isEmpty = true) : Awaits container lexemes
  | next {container : Container} {lexemes : List Lexeme} {comma : Lexeme}
      (hholds : container.Holds lexemes) (hne : container.isEmpty = false)
      (hcomma : comma.kind = .comma) : Awaits container (lexemes ++ [comma])

/-- The tokens of a container up to its hole. -/
inductive Hole.Awaits : Hole → List Lexeme → Prop
  | item {opener : Token} {items : List Value} {lexemes : List Lexeme}
      (hawaits : (Container.array opener items).Awaits lexemes) :
      Awaits (.item opener items) lexemes
  | property {opener : Token} {members : List Member} {lexemes : List Lexeme}
      {name colon : Lexeme} (hawaits : (Container.object opener members).Awaits lexemes)
      (hname : name.kind = .string) (hcolon : colon.kind = .colon) :
      Awaits (.property opener members name.key) (lexemes ++ [name, colon])

/-- The tokens of all containers around a place, each up to its hole. -/
inductive Hole.Surround : List Hole → List Lexeme → Prop
  | nil : Surround [] []
  | cons {hole : Hole} {rest : List Hole} {front back : List Lexeme}
      (hsurround : Surround rest front) (hawaits : hole.Awaits back) :
      Surround (hole :: rest) (front ++ back)

/-- The reader has taken these tokens, and they begin a sentence. -/
inductive Reader.Follows : Reader → List Lexeme → Prop
  | value {holes : List Hole} {front : List Lexeme} (hsurround : Hole.Surround holes front)
      (reports : List Diagnostic) : Follows ⟨.value, holes, reports⟩ front
  | opened {container : Container} {holes : List Hole} {front back : List Lexeme}
      (hsurround : Hole.Surround holes front) (hholds : container.Holds back)
      (hempty : container.isEmpty = true) (reports : List Diagnostic) :
      Follows ⟨.part container none, holes, reports⟩ (front ++ back)
  | separated {container : Container} {holes : List Hole} {front back : List Lexeme}
      {comma : Lexeme} (hsurround : Hole.Surround holes front) (hholds : container.Holds back)
      (hne : container.isEmpty = false) (hcomma : comma.kind = .comma)
      (reports : List Diagnostic) :
      Follows ⟨.part container (some comma.toToken), holes, reports⟩ (front ++ (back ++ [comma]))
  | separator {container : Container} {holes : List Hole} {front back : List Lexeme}
      (hsurround : Hole.Surround holes front) (hholds : container.Holds back)
      (hne : container.isEmpty = false) (reports : List Diagnostic) :
      Follows ⟨.separator container, holes, reports⟩ (front ++ back)
  | colon {opener : Token} {members : List Member} {holes : List Hole}
      {front back : List Lexeme} {name : Lexeme} (hsurround : Hole.Surround holes front)
      (hawaits : (Container.object opener members).Awaits back) (hname : name.kind = .string)
      (reports : List Diagnostic) :
      Follows ⟨.colon opener members name.key, holes, reports⟩ (front ++ (back ++ [name]))
  | parameterName {marker : Lexeme} {holes : List Hole} {front : List Lexeme}
      (hsurround : Hole.Surround holes front) (hmarker : marker.kind = .parameterOpen)
      (reports : List Diagnostic) :
      Follows ⟨.parameterName marker.toToken, holes, reports⟩ (front ++ [marker])
  | parameterClose {marker name : Lexeme} {holes : List Hole} {front : List Lexeme}
      (hsurround : Hole.Surround holes front) (hmarker : marker.kind = .parameterOpen)
      (hname : name.kind = .identifier) (reports : List Diagnostic) :
      Follows ⟨.parameterClose marker.toToken name.word, holes, reports⟩ (front ++ [marker, name])
  | finished {root : Value} {lexemes : List Lexeme} (hspells : Spells root lexemes)
      (reports : List Diagnostic) : Follows ⟨.finished (some root), [], reports⟩ lexemes

namespace Container

theorem Holds.close {container : Container} {lexemes : List Lexeme}
    (hholds : container.Holds lexemes) {closing : Lexeme}
    (hclosing : closing.kind = container.closer) :
    Spells container.value (lexemes ++ [closing]) := by
  cases hholds with
  | array hopening hrow hparts =>
      simpa [value] using Spells.array hopening hclosing hrow hparts
  | object hopening hrow hnames hparts =>
      simpa [value] using Spells.object hopening hclosing hrow hnames hparts

theorem ofOpener_holds {opening : Lexeme}
    (hopening : opening.kind = .braceOpen ∨ opening.kind = .bracketOpen) :
    (ofOpener opening.toToken).Holds [opening] ∧ (ofOpener opening.toToken).isEmpty = true := by
  rcases hopening with hkind | hkind
  · rw [Reader.ofOpener_of_brace hkind]
    exact ⟨.object hkind .nil (by simp) (by simp), rfl⟩
  · rw [Reader.ofOpener_of_bracket hkind]
    exact ⟨.array hkind .nil (by simp), rfl⟩

end Container

theorem Row.eq_nil {α : Type} {spelling : α → List Lexeme} {inner : List Lexeme}
    (hrow : Row spelling [] inner) : inner = [] := by
  generalize hparts : ([] : List α) = parts at hrow
  cases hrow with
  | nil => rfl
  | first part => cases hparts
  | next hfront hne hcomma part => simp at hparts

namespace Container

theorem Awaits.item {opener : Token} {items : List Value} {front : List Lexeme}
    (hawaits : (array opener items).Awaits front) {value : Value} {lexemes : List Lexeme}
    (hspells : Spells value lexemes) :
    (array opener (value :: items)).Holds (front ++ lexemes) := by
  cases hawaits with
  | first hholds hempty =>
      cases hholds with
      | array hopening hrow hparts =>
          rename_i parts inner
          have hnone : parts = [] := by simpa [isEmpty] using hempty
          subst hnone
          have hinner := hrow.eq_nil
          subst hinner
          exact .array hopening (.first ⟨value, lexemes⟩) (by simpa using hspells)
  | next hholds hne hcomma =>
      cases hholds with
      | array hopening hrow hparts =>
          rename_i comma opening parts inner
          have hsome : parts ≠ [] := by
            rintro rfl
            simp [isEmpty] at hne
          have hmore := hrow.next hsome hcomma ⟨value, lexemes⟩
          have hall : ∀ part ∈ parts ++ [⟨value, lexemes⟩], Spells part.value part.lexemes :=
            List.forall_mem_append.mpr ⟨hparts, by simpa using hspells⟩
          simpa using Holds.array hopening hmore hall

theorem Awaits.property {opener : Token} {members : List Member} {front : List Lexeme}
    (hawaits : (object opener members).Awaits front) {name colon : Lexeme}
    (hname : name.kind = .string) (hcolon : colon.kind = .colon) {value : Value}
    {lexemes : List Lexeme} (hspells : Spells value lexemes) :
    (object opener (.pair name.key value :: members)).Holds
      (front ++ name :: colon :: lexemes) := by
  let added : Property := ⟨name, colon, ⟨value, lexemes⟩⟩
  cases hawaits with
  | first hholds hempty =>
      cases hholds with
      | object hopening hrow hnames hparts =>
          rename_i parts inner
          have hnone : parts = [] := by simpa [isEmpty] using hempty
          subst hnone
          have hinner := hrow.eq_nil
          subst hinner
          exact .object hopening (.first added) (by simpa [added] using ⟨hname, hcolon⟩)
            (by simpa [added] using hspells)
  | next hholds hne hcomma =>
      cases hholds with
      | object hopening hrow hnames hparts =>
          rename_i comma opening parts inner
          have hsome : parts ≠ [] := by
            rintro rfl
            simp [isEmpty] at hne
          have hmore := hrow.next hsome hcomma added
          have hallNames : ∀ part ∈ parts ++ [added],
              part.name.kind = .string ∧ part.colon.kind = .colon :=
            List.forall_mem_append.mpr ⟨hnames, by simpa [added] using ⟨hname, hcolon⟩⟩
          have hall : ∀ part ∈ parts ++ [added],
              Spells part.writing.value part.writing.lexemes :=
            List.forall_mem_append.mpr ⟨hparts, by simpa [added] using hspells⟩
          simpa [added, Property.member, Property.lexemes] using
            Holds.object hopening hmore hallNames hall

end Container

theorem Hole.Awaits.fill {hole : Hole} {front : List Lexeme} (hawaits : hole.Awaits front)
    {value : Value} {lexemes : List Lexeme} (hspells : Spells value lexemes) :
    (hole.fill (some value)).Holds (front ++ lexemes) := by
  cases hawaits with
  | item hawaits => exact hawaits.item hspells
  | property hawaits hname hcolon =>
      simpa [Hole.fill, Member.of] using hawaits.property hname hcolon hspells

theorem Hole.isEmpty_fill (hole : Hole) (value : Value) :
    (hole.fill (some value)).isEmpty = false := by
  cases hole <;> rfl

namespace Reader

variable {setting : Setting}

theorem follows_deliver {holes : List Hole} {front : List Lexeme}
    (hsurround : Hole.Surround holes front) {value : Value} {lexemes : List Lexeme}
    (hspells : Spells value lexemes) (reports : List Diagnostic) :
    Follows (deliver (some value) holes reports) (front ++ lexemes) := by
  cases hsurround with
  | nil => exact .finished hspells reports
  | cons hsurround hawaits =>
      rename_i hole rest front back
      rw [List.append_assoc]
      exact .separator hsurround (hawaits.fill hspells) (hole.isEmpty_fill value) reports

theorem reports_eq_nil_of_suffix {reports later : List Diagnostic}
    (hsuffix : reports <:+ later) (hsilent : later = []) : reports = [] := by
  rw [hsilent] at hsuffix
  exact List.suffix_nil.mp hsuffix

theorem not_silent_of_add {diagnostic : Diagnostic} {reports later : List Diagnostic}
    (hsuffix : Report.add diagnostic reports <:+ later) (hsilent : later = []) : False :=
  Report.ne_nil_of_suffix_add hsuffix hsilent

theorem follows_openContainer {lexeme : Lexeme} {holes : List Hole} {front : List Lexeme}
    (hsurround : Hole.Surround holes front)
    (hopening : lexeme.kind = .braceOpen ∨ lexeme.kind = .bracketOpen)
    (reports : List Diagnostic)
    (hsilent : (openContainer setting lexeme holes reports).reports = []) :
    Follows (openContainer setting lexeme holes reports) (front ++ [lexeme]) := by
  unfold openContainer at hsilent ⊢
  split at hsilent
  · exact (Report.add_ne_nil _ _ hsilent).elim
  · have hopened := Container.ofOpener_holds hopening
    exact .opened hsurround hopened.1 hopened.2 reports

theorem follows_value {lexeme : Lexeme} {holes : List Hole} {front : List Lexeme}
    (hsurround : Hole.Surround holes front) (hcut : setting.isCutIn lexeme = false)
    (reports : List Diagnostic)
    (hsilent : (value setting lexeme holes reports).reports = []) :
    Follows (value setting lexeme holes reports) (front ++ [lexeme]) := by
  unfold value at hsilent ⊢
  simp only [hcut, Bool.false_eq_true, if_false] at hsilent ⊢
  split at hsilent
  · exact (not_silent_of_add (suffix_giveUp _ _ _) hsilent).elim
  next hrecovery =>
    rw [if_neg hrecovery]
    split at hsilent
    next hkind => exact follows_openContainer hsurround (Or.inl hkind) reports hsilent
    next hkind => exact follows_openContainer hsurround (Or.inr hkind) reports hsilent
    next hkind => exact .parameterName hsurround hkind reports
    · split at hsilent
      next content hcontent => exact follows_deliver hsurround (.scalar hcontent) reports
      next => exact (Report.add_ne_nil _ _ (by simpa using hsilent)).elim

theorem closer_of_close {lexeme : Lexeme} {container : Container} {holes : List Hole}
    {comma : Option Token} {reports : List Diagnostic}
    (hsilent : (close lexeme container comma reports holes).reports = []) :
    lexeme.kind = container.closer ∧ comma = none := by
  unfold close at hsilent
  split at hsilent
  next hkind =>
    rw [deliver_reports] at hsilent
    cases comma with
    | some comma => exact (Report.add_ne_nil _ _ hsilent).elim
    | none => exact ⟨hkind, rfl⟩
  · cases holes with
    | nil => exact (Report.add_ne_nil _ _ hsilent).elim
    | cons hole rest => exact (not_silent_of_add (suffix_close _ _ _ _ _) hsilent).elim

theorem follows_close {lexeme : Lexeme} {container : Container} {holes : List Hole}
    {front back : List Lexeme} (hsurround : Hole.Surround holes front)
    (hholds : container.Holds back) (comma : Option Token) (reports : List Diagnostic)
    (hsilent : (close lexeme container comma reports holes).reports = []) :
    Follows (close lexeme container comma reports holes) (front ++ back ++ [lexeme]) := by
  obtain ⟨hkind, rfl⟩ := closer_of_close hsilent
  unfold close
  rw [if_pos hkind, List.append_assoc]
  exact follows_deliver hsurround (hholds.close hkind) reports

theorem follows_endPart {lexeme : Lexeme} {container : Container} {holes : List Hole}
    {front back : List Lexeme} (hsurround : Hole.Surround holes front)
    (hholds : container.Holds back) (hne : container.isEmpty = false)
    (reports : List Diagnostic)
    (hsilent : (endPart lexeme container holes reports).reports = []) :
    Follows (endPart lexeme container holes reports) (front ++ back ++ [lexeme]) := by
  unfold endPart at hsilent ⊢
  split at hsilent
  next hkind =>
    rw [if_pos hkind, List.append_assoc]
    exact .separated hsurround hholds hne hkind reports
  next hkind =>
    rw [if_neg hkind]
    exact follows_close hsurround hholds none reports hsilent

/-- Where a part of a container may begin, the reader waits for it with these tokens. -/
theorem follows_beginPart {lexeme : Lexeme} {container : Container} {holes : List Hole}
    {front back : List Lexeme} (hsurround : Hole.Surround holes front)
    (hawaits : container.Awaits back) (hcut : setting.isCutIn lexeme = false)
    (hrecovery : ¬KindSet.valueRecovery.contains lexeme.kind = true) (comma : Option Token)
    (reports : List Diagnostic)
    (hsilent : (part setting lexeme container comma holes reports).reports = []) :
    Follows (part setting lexeme container comma holes reports) (front ++ back ++ [lexeme]) := by
  unfold part at hsilent ⊢
  rw [if_neg hrecovery] at hsilent ⊢
  cases container with
  | array opener items =>
      exact follows_value (.cons hsurround (.item hawaits)) hcut reports hsilent
  | object opener members =>
      unfold property at hsilent ⊢
      simp only [hcut, Bool.false_eq_true, if_false] at hsilent ⊢
      split at hsilent
      next hkind =>
        rw [if_pos hkind, List.append_assoc]
        exact .colon hsurround hawaits hkind reports
      next hkind => exact (not_silent_of_add (suffix_skip _ _ _ _ _ _) hsilent).elim

theorem emptyPart_eq_close {lexeme : Lexeme} {container : Container} {holes : List Hole}
    {comma : Option Token} {reports : List Diagnostic}
    (hsilent : (emptyPart lexeme container comma holes reports).reports = []) :
    emptyPart lexeme container comma holes reports =
      close lexeme container comma reports holes := by
  unfold emptyPart at hsilent ⊢
  split at hsilent
  · exact (Report.add_ne_nil _ _ hsilent).elim
  next hkind => rw [if_neg hkind]

theorem part_of_valueRecovery {lexeme : Lexeme}
    (hrecovery : KindSet.valueRecovery.contains lexeme.kind = true) (container : Container)
    (comma : Option Token) (holes : List Hole) (reports : List Diagnostic) :
    part setting lexeme container comma holes reports =
      emptyPart lexeme container comma holes reports := by
  simp [part, hrecovery]

theorem follows_opened {lexeme : Lexeme} {container : Container} {holes : List Hole}
    {front back : List Lexeme} (hsurround : Hole.Surround holes front)
    (hholds : container.Holds back) (hempty : container.isEmpty = true)
    (hcut : setting.isCutIn lexeme = false) (reports : List Diagnostic)
    (hsilent : (part setting lexeme container none holes reports).reports = []) :
    Follows (part setting lexeme container none holes reports) (front ++ back ++ [lexeme]) := by
  by_cases hrecovery : KindSet.valueRecovery.contains lexeme.kind = true
  · rw [part_of_valueRecovery hrecovery] at hsilent ⊢
    have hclose := emptyPart_eq_close hsilent
    rw [hclose] at hsilent ⊢
    exact follows_close hsurround hholds none reports hsilent
  · exact follows_beginPart hsurround (.first hholds hempty) hcut hrecovery none reports hsilent

theorem follows_separated {lexeme comma : Lexeme} {container : Container} {holes : List Hole}
    {front back : List Lexeme} (hsurround : Hole.Surround holes front)
    (hholds : container.Holds back) (hne : container.isEmpty = false)
    (hcomma : comma.kind = .comma) (hcut : setting.isCutIn lexeme = false)
    (reports : List Diagnostic)
    (hsilent :
      (part setting lexeme container (some comma.toToken) holes reports).reports = []) :
    Follows (part setting lexeme container (some comma.toToken) holes reports)
      (front ++ (back ++ [comma]) ++ [lexeme]) := by
  by_cases hrecovery : KindSet.valueRecovery.contains lexeme.kind = true
  · rw [part_of_valueRecovery hrecovery] at hsilent
    rw [emptyPart_eq_close hsilent] at hsilent
    have hnone := (closer_of_close hsilent).2
    contradiction
  · exact follows_beginPart hsurround (.next hholds hne hcomma) hcut hrecovery _ reports hsilent

/-- The next token should close a placeholder. -/
def awaitsMarker (reader : Reader) : Bool :=
  match reader.focus with
  | .parameterClose _ _ => true
  | _ => false

theorem isCutIn_of_isCutInMarker {lexeme : Lexeme}
    (hcut : setting.isCutInMarker lexeme = false) : setting.isCutIn lexeme = false := by
  unfold Setting.isCutInMarker at hcut
  exact (Bool.or_eq_false_iff.mp hcut).1

theorem follows_take {reader : Reader} {lexeme : Lexeme} {lexemes : List Lexeme}
    (hfollows : reader.Follows lexemes) (hcut : setting.isCutIn lexeme = false)
    (hcutMarker : reader.awaitsMarker = true → setting.isCutInMarker lexeme = false)
    (hsilent : (reader.take setting lexeme).reports = []) :
    (reader.take setting lexeme).Follows (lexemes ++ [lexeme]) := by
  cases hfollows with
  | value hsurround reports => exact follows_value hsurround hcut reports hsilent
  | opened hsurround hholds hempty reports =>
      exact follows_opened hsurround hholds hempty hcut reports hsilent
  | separated hsurround hholds hne hcomma reports =>
      exact follows_separated hsurround hholds hne hcomma hcut reports hsilent
  | separator hsurround hholds hne reports =>
      rename_i container holes front back
      change (separator setting lexeme container holes reports).reports = [] at hsilent
      change (separator setting lexeme container holes reports).Follows _
      unfold separator at hsilent ⊢
      split at hsilent
      next hrecovery =>
        rw [if_pos hrecovery]
        exact follows_endPart hsurround hholds hne reports hsilent
      · dsimp only at hsilent
        split at hsilent
        · exact (not_silent_of_add (suffix_part _ _ _ _ _ _) hsilent).elim
        · exact (not_silent_of_add (suffix_skip _ _ _ _ _ _) hsilent).elim
  | colon hsurround hawaits hname reports =>
      rename_i opener members holes front back name
      change (colon setting lexeme opener members name.key holes reports).reports = [] at hsilent
      change (colon setting lexeme opener members name.key holes reports).Follows _
      unfold colon at hsilent ⊢
      simp only [hcut, Bool.false_eq_true, if_false] at hsilent ⊢
      split at hsilent
      next hkind =>
        rw [if_pos hkind]
        have hholes := Hole.Surround.cons hsurround (.property hawaits hname hkind)
        simpa using Follows.value hholes reports
      · split at hsilent
        · exact (not_silent_of_add (suffix_value _ _ _ _) hsilent).elim
        · exact (not_silent_of_add (suffix_skip _ _ _ _ _ _) hsilent).elim
  | parameterName hsurround hmarker reports =>
      rename_i marker holes front
      change (parameterName setting lexeme marker.toToken holes reports).reports = [] at hsilent
      change (parameterName setting lexeme marker.toToken holes reports).Follows _
      unfold parameterName at hsilent ⊢
      simp only [hcut, Bool.false_eq_true, if_false] at hsilent ⊢
      split at hsilent
      next hkind =>
        rw [if_pos hkind]
        simpa using Follows.parameterClose hsurround hmarker hkind reports
      · exact (not_silent_of_add (suffix_skipParameter _ _ _ _) hsilent).elim
  | parameterClose hsurround hmarker hname reports =>
      rename_i marker name holes front
      change (parameterClose setting lexeme marker.toToken name.word holes reports).reports = []
        at hsilent
      change (parameterClose setting lexeme marker.toToken name.word holes reports).Follows _
      unfold parameterClose at hsilent ⊢
      simp only [hcutMarker rfl, Bool.false_eq_true, if_false] at hsilent ⊢
      split at hsilent
      next hkind =>
        rw [if_pos hkind]
        have hspells := Spells.parameter hmarker hname hkind
        simpa using follows_deliver hsurround hspells reports
      · exact (not_silent_of_add (suffix_giveUp _ _ _) hsilent).elim
  | finished hspells reports =>
      simp only [take, hcut, Bool.false_eq_true, if_false] at hsilent
      exact (Report.add_ne_nil _ _ hsilent).elim

theorem Follows.isStopped {reader : Reader} {lexemes : List Lexeme}
    (hfollows : reader.Follows lexemes) : reader.isStopped = false := by
  cases hfollows <;> rfl

/-- A token between the tokens of the grammar changes nothing, unless it is reported. -/
theorem ignore_of_silent {reader : Reader} {lexeme : Lexeme}
    (hsilent : (reader.ignore setting lexeme).reports = []) :
    reader.ignore setting lexeme = reader := by
  unfold ignore at hsilent ⊢
  split at hsilent
  · exact (Report.add_ne_nil _ _ hsilent).elim
  next hquiet => rw [if_neg hquiet]

theorem follows_step {reader : Reader} {lexeme : Lexeme} {lexemes : List Lexeme}
    (hfollows : reader.Follows lexemes) (hcut : setting.isCutInMarker lexeme = false)
    (hsilent : (reader.step setting lexeme).reports = []) :
    (reader.step setting lexeme).Follows (lexemes ++ significant [lexeme]) := by
  cases htrivia : lexeme.kind.isTrivia with
  | true =>
      simp only [step, htrivia, if_true] at hsilent ⊢
      rw [ignore_of_silent hsilent, significant_cons_of_isTrivia htrivia]
      simpa using hfollows
  | false =>
      rw [step_of_not_isTrivia htrivia] at hsilent ⊢
      rw [significant_cons_of_not_isTrivia htrivia]
      exact follows_take hfollows (isCutIn_of_isCutInMarker hcut) (fun _ => hcut) hsilent

/-- A silent run from the beginning of a sentence stays in the sentence. -/
theorem follows_run {reader : Reader} {front lexemes : List Lexeme}
    (hfollows : reader.Follows front)
    (hcut : ∀ lexeme ∈ lexemes, setting.isCutInMarker lexeme = false)
    (hsilent : (reader.run setting lexemes).reports = []) :
    (reader.run setting lexemes).Follows (front ++ significant lexemes) := by
  induction lexemes generalizing reader front with
  | nil => simpa using hfollows
  | cons lexeme rest ih =>
      rw [run_cons] at hsilent ⊢
      have hstep := reports_eq_nil_of_suffix (suffix_run setting _ rest) hsilent
      have hnext := follows_step hfollows (hcut lexeme List.mem_cons_self) hstep
      have hrest := ih hnext
        (fun later hlater => hcut later (List.mem_cons_of_mem lexeme hlater)) hsilent
      rwa [List.append_assoc, ← significant_append] at hrest

theorem start_follows : start.Follows [] := .value .nil []

end Reader
end QueryBody
