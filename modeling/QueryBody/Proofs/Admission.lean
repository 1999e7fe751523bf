import QueryBody.Proofs.Sentence
import QueryBody.Body
import Mathlib.Tactic

/-!
# What every run keeps

Whatever is wrong with a body, the value that is read from it nests no deeper than
the limit allows, its parameters have the names of identifiers, and its numbers out
of range are literals of the grammar.
-/

namespace QueryBody

/-- A word that may name a parameter. -/
def Lexer.IsName (text : List Char) : Prop :=
  ∃ c rest, text = c :: rest ∧ isWordStart c = true ∧ (∀ d ∈ rest, isWordPart d = true) ∧
    wordKind text = .identifier

namespace Scalar

/-- Scalars that a token can write, as far as their texts are kept. -/
def IsLegible : Scalar → Prop
  | number (.outOfRange text) =>
      Shape.of text.toList = .complete ∧ Numeral.read text.toList = .outOfRange text
  | parameter name => Lexer.IsName name.toList
  | _ => True

end Scalar

namespace Lexeme

/-- A number token is a number, and an identifier token is a name. -/
structure IsLegible (lexeme : Lexeme) : Prop where
  number : lexeme.kind = .number → Shape.of lexeme.text = .complete
  name : lexeme.kind = .identifier → Lexer.IsName lexeme.text

theorem IsLegible.scalar {lexeme : Lexeme} (hlegible : lexeme.IsLegible) {content : Scalar}
    (hcontent : lexeme.scalar? = some content) : content.IsLegible := by
  unfold scalar? at hcontent
  split at hcontent
  next hkind =>
    obtain rfl := Option.some.inj hcontent
    trivial
  next hkind =>
    obtain rfl := Option.some.inj hcontent
    cases hread : Numeral.read lexeme.text with
    | finite value => trivial
    | outOfRange text =>
        have htext : text.toList = lexeme.text := by
          unfold Numeral.read at hread
          split at hread
          · contradiction
          · cases hread
            exact String.toList_ofList
        exact ⟨htext ▸ hlegible.number hkind, htext ▸ hread⟩
  all_goals
    cases hcontent
    try trivial

end Lexeme

/-- The value has room at a depth: with the containers around it, it nests no deeper than the
limit allows, and its scalars are legible. -/
inductive Value.Admitted (limit : Option Nat) : Nat → Value → Prop
  | scalar {depth : Nat} {content : Scalar} (hlegible : content.IsLegible) (token : Token) :
      Admitted limit depth (.scalar token content)
  | array {depth : Nat} {items : List Value} (hallows : Allows limit (depth + 1))
      (hitems : ∀ item ∈ items, Admitted limit (depth + 1) item) (opener : Token) :
      Admitted limit depth (.array opener items)
  | object {depth : Nat} {members : List Member} (hallows : Allows limit (depth + 1))
      (hmembers : ∀ key value, .pair key value ∈ members → Admitted limit (depth + 1) value)
      (opener : Token) : Admitted limit depth (.object opener members)

theorem Value.Admitted.allows_nesting {limit : Option Nat} {depth : Nat} {value : Value}
    (hadmitted : value.Admitted limit depth) (hdepth : Allows limit depth) :
    Allows limit (depth + value.nesting) := by
  induction hadmitted with
  | scalar _ _ => exact hdepth
  | array hallows hitems opener ih =>
      rename_i depth items
      intro most hmost
      have hroom : itemsNesting items ≤ most - (depth + 1) := by
        apply itemsNesting_le
        intro item hitem
        have hle := ih item hitem hallows most hmost
        omega
      have hopen := hallows most hmost
      simp only [nesting]
      omega
  | object hallows hmembers opener ih =>
      rename_i depth members
      intro most hmost
      have hroom : membersNesting members ≤ most - (depth + 1) := by
        apply membersNesting_le
        intro key value hmem
        have hle := ih key value hmem hallows most hmost
        omega
      have hopen := hallows most hmost
      simp only [nesting]
      omega

theorem Allows.zero (limit : Option Nat) : Allows limit 0 := fun most _ => Nat.zero_le most

namespace Hole

/-- Every container around a place has room where it stands, with the parts it has. -/
def AllAdmitted (limit : Option Nat) : List Hole → Prop
  | [] => True
  | hole :: rest => hole.discard.value.Admitted limit rest.length ∧ AllAdmitted limit rest

end Hole

/-- Nothing that a reader has built is too deep or illegible. -/
def Focus.Admitted (limit : Option Nat) (depth : Nat) : Focus → Prop
  | .value | .parameterName _ | .skipParameter _ => True
  | .part container _ | .separator container | .skip _ container _ =>
      container.value.Admitted limit depth
  | .colon opener members _ => (Container.object opener members).value.Admitted limit depth
  | .parameterClose _ name => Lexer.IsName name.toList
  | .finished root | .stopped root _ => ∀ value, root = some value → value.Admitted limit 0

structure Reader.Admitted (limit : Option Nat) (reader : Reader) : Prop where
  holes : Hole.AllAdmitted limit reader.holes
  focus : reader.focus.Admitted limit reader.holes.length

variable {limit : Option Nat}

theorem Hole.admitted_fill {hole : Hole} {depth : Nat} {value : Option Value}
    (hhole : hole.discard.value.Admitted limit depth)
    (hvalue : ∀ content, value = some content → content.Admitted limit (depth + 1)) :
    (hole.fill value).value.Admitted limit depth := by
  cases hole with
  | item opener items =>
      cases value with
      | none => exact hhole
      | some content =>
          cases hhole with
          | array hallows hitems =>
              refine .array hallows ?_ opener
              intro item hitem
              rw [List.reverse_cons, List.mem_append, List.mem_singleton] at hitem
              rcases hitem with hold | rfl
              · exact hitems item hold
              · exact hvalue item rfl
  | property opener members key =>
      cases hhole with
      | object hallows hmembers =>
          refine .object hallows ?_ opener
          intro name content hmem
          rw [List.reverse_cons, List.mem_append, List.mem_singleton] at hmem
          rcases hmem with hold | hnew
          · exact hmembers name content hold
          · cases value with
            | none => cases hnew
            | some found =>
                cases hnew
                exact hvalue content rfl

namespace Container

theorem admitted_enclose {container : Container} {holes : List Hole}
    (hcontainer : container.value.Admitted limit holes.length)
    (hholes : Hole.AllAdmitted limit holes) : (container.enclose holes).Admitted limit 0 := by
  induction holes generalizing container with
  | nil => exact hcontainer
  | cons hole rest ih =>
      apply ih _ hholes.2
      apply Hole.admitted_fill hholes.1
      rintro content ⟨rfl⟩
      exact hcontainer

theorem admitted_cutOff {container : Container} {holes : List Hole}
    (hcontainer : container.value.Admitted limit holes.length)
    (hholes : Hole.AllAdmitted limit holes) : (container.cutOff holes).Admitted limit 0 := by
  induction holes generalizing container with
  | nil => exact hcontainer
  | cons hole rest ih =>
      unfold cutOff
      split
      · exact ih hholes.1 hholes.2
      · apply ih _ hholes.2
        apply Hole.admitted_fill hholes.1
        rintro content ⟨rfl⟩
        exact hcontainer

end Container

namespace Hole

theorem admitted_abandon {holes : List Hole} (hholes : AllAdmitted limit holes) :
    ∀ value, abandon holes = some value → value.Admitted limit 0 := by
  cases holes with
  | nil => simp [abandon]
  | cons hole rest =>
      rintro value ⟨rfl⟩
      exact Container.admitted_enclose (admitted_fill hholes.1 (by simp)) hholes.2

theorem admitted_cutOff {holes : List Hole} (hholes : AllAdmitted limit holes) :
    ∀ value, cutOff holes = some value → value.Admitted limit 0 := by
  cases holes with
  | nil => simp [cutOff]
  | cons hole rest =>
      rintro value ⟨rfl⟩
      exact Container.admitted_cutOff hholes.1 hholes.2

end Hole

namespace Reader

variable {setting : Setting} {holes : List Hole} {reports : List Diagnostic} {lexeme : Lexeme}

theorem admitted_deliver {value : Option Value} (hholes : Hole.AllAdmitted limit holes)
    (hvalue : ∀ content, value = some content → content.Admitted limit holes.length) :
    (deliver value holes reports).Admitted limit := by
  cases holes with
  | nil => exact ⟨trivial, hvalue⟩
  | cons hole rest =>
      have hfilled := Hole.admitted_fill hholes.1 hvalue
      cases value with
      | none => exact ⟨hholes.2, hfilled⟩
      | some content => exact ⟨hholes.2, hfilled⟩

theorem admitted_deliver_none (hholes : Hole.AllAdmitted limit holes) :
    (deliver none holes reports).Admitted limit :=
  admitted_deliver hholes (by simp)

theorem admitted_excess {root : Option Value}
    (hroot : ∀ value, root = some value → value.Admitted limit 0) :
    (excess lexeme root reports).Admitted limit := ⟨trivial, hroot⟩

theorem admitted_close {container : Container} (hholes : Hole.AllAdmitted limit holes)
    (hcontainer : container.value.Admitted limit holes.length) (comma : Option Token) :
    (close lexeme container comma reports holes).Admitted limit := by
  induction holes generalizing container comma reports with
  | nil =>
      unfold close
      split
      · exact admitted_deliver hholes (by rintro value ⟨rfl⟩; exact hcontainer)
      · exact admitted_excess (by rintro value ⟨rfl⟩; exact hcontainer)
  | cons hole rest ih =>
      unfold close
      split
      · exact admitted_deliver hholes (by rintro value ⟨rfl⟩; exact hcontainer)
      · apply ih hholes.2
        apply Hole.admitted_fill hholes.1
        rintro value ⟨rfl⟩
        exact hcontainer

theorem admitted_endPart {container : Container} (hholes : Hole.AllAdmitted limit holes)
    (hcontainer : container.value.Admitted limit holes.length) :
    (endPart lexeme container holes reports).Admitted limit := by
  unfold endPart
  split
  · exact ⟨hholes, hcontainer⟩
  · exact admitted_close hholes hcontainer none

theorem admitted_emptyPart {container : Container} (hholes : Hole.AllAdmitted limit holes)
    (hcontainer : container.value.Admitted limit holes.length) (comma : Option Token) :
    (emptyPart lexeme container comma holes reports).Admitted limit := by
  unfold emptyPart
  split
  · exact ⟨hholes, hcontainer⟩
  · exact admitted_close hholes hcontainer comma

theorem admitted_skip {container : Container} (hholes : Hole.AllAdmitted limit holes)
    (hcontainer : container.value.Admitted limit holes.length) (depth : Nat)
    (next : Resumption) : (skip lexeme depth container next holes reports).Admitted limit := by
  unfold skip
  split
  · cases next with
    | separator => exact admitted_endPart hholes hcontainer
    | part => exact admitted_emptyPart hholes hcontainer none
  · exact ⟨hholes, hcontainer⟩

theorem admitted_giveUp (hholes : Hole.AllAdmitted limit holes) :
    (giveUp lexeme holes reports).Admitted limit := by
  cases holes with
  | nil => exact admitted_excess (by simp)
  | cons hole rest =>
      exact admitted_skip hholes.2 (Hole.admitted_fill hholes.1 (by simp)) 0 .separator

theorem admitted_skipParameter (hholes : Hole.AllAdmitted limit holes) (depth : Nat) :
    (skipParameter lexeme depth holes reports).Admitted limit := by
  unfold skipParameter
  split
  · split
    · exact admitted_deliver_none hholes
    · exact admitted_giveUp hholes
  · exact ⟨hholes, trivial⟩

theorem admitted_ofOpener {depth : Nat} (hallows : Allows limit (depth + 1)) (opener : Token) :
    (Container.ofOpener opener).value.Admitted limit depth := by
  unfold Container.ofOpener
  split
  · exact .object hallows (by simp) opener
  · exact .array hallows (by simp) opener

theorem admitted_openContainer (hholes : Hole.AllAdmitted setting.nestingLimit holes) :
    (openContainer setting lexeme holes reports).Admitted setting.nestingLimit := by
  unfold openContainer
  split
  · exact ⟨trivial, Hole.admitted_abandon hholes⟩
  next hroom =>
    have hallows := (setting.exceeded?_eq_none_iff holes.length).mp hroom
    exact ⟨hholes, admitted_ofOpener hallows lexeme.toToken⟩

theorem admitted_value (hlegible : lexeme.IsLegible)
    (hholes : Hole.AllAdmitted setting.nestingLimit holes) :
    (value setting lexeme holes reports).Admitted setting.nestingLimit := by
  unfold value
  split
  · exact ⟨trivial, Hole.admitted_cutOff hholes⟩
  split
  · exact admitted_giveUp hholes
  split
  · exact admitted_openContainer hholes
  · exact admitted_openContainer hholes
  · exact ⟨hholes, trivial⟩
  · split
    next content hcontent =>
      apply admitted_deliver hholes
      rintro found ⟨rfl⟩
      exact .scalar (hlegible.scalar hcontent) lexeme.toToken
    · exact admitted_deliver_none hholes

theorem admitted_property {opener : Token} {members : List Member}
    (hholes : Hole.AllAdmitted limit holes)
    (hcontainer : (Container.object opener members).value.Admitted limit holes.length) :
    (property setting lexeme opener members holes reports).Admitted limit := by
  unfold property
  split
  · refine ⟨trivial, ?_⟩
    rintro value ⟨rfl⟩
    exact Container.admitted_cutOff hcontainer hholes
  split
  · exact ⟨hholes, hcontainer⟩
  · exact admitted_skip hholes hcontainer 0 .separator

theorem admitted_part {container : Container} (hlegible : lexeme.IsLegible)
    (hholes : Hole.AllAdmitted setting.nestingLimit holes)
    (hcontainer : container.value.Admitted setting.nestingLimit holes.length)
    (comma : Option Token) :
    (part setting lexeme container comma holes reports).Admitted setting.nestingLimit := by
  unfold part
  split
  · exact admitted_emptyPart hholes hcontainer comma
  · cases container with
    | array opener items => exact admitted_value hlegible ⟨hcontainer, hholes⟩
    | object opener members => exact admitted_property hholes hcontainer

theorem admitted_separator {container : Container} (hlegible : lexeme.IsLegible)
    (hholes : Hole.AllAdmitted setting.nestingLimit holes)
    (hcontainer : container.value.Admitted setting.nestingLimit holes.length) :
    (separator setting lexeme container holes reports).Admitted setting.nestingLimit := by
  unfold separator
  split
  · exact admitted_endPart hholes hcontainer
  · dsimp only
    split
    · exact admitted_part hlegible hholes hcontainer none
    · exact admitted_skip hholes hcontainer 0 .part

theorem admitted_bare {opener : Token} {members : List Member} {depth : Nat}
    (hcontainer : (Container.object opener members).value.Admitted limit depth) (key : Key) :
    (Container.object opener (.bare key :: members)).value.Admitted limit depth := by
  have hhole : (Hole.property opener members key).discard.value.Admitted limit depth := hcontainer
  have hfilled :
      ((Hole.property opener members key).fill none).value.Admitted limit depth :=
    Hole.admitted_fill hhole (by simp)
  exact hfilled

theorem admitted_colon {opener : Token} {members : List Member} (hlegible : lexeme.IsLegible)
    (hholes : Hole.AllAdmitted setting.nestingLimit holes)
    (hcontainer :
      (Container.object opener members).value.Admitted setting.nestingLimit holes.length)
    (key : Key) :
    (colon setting lexeme opener members key holes reports).Admitted setting.nestingLimit := by
  unfold colon
  split
  · refine ⟨trivial, ?_⟩
    rintro value ⟨rfl⟩
    exact Container.admitted_cutOff hcontainer hholes
  split
  · exact ⟨⟨hcontainer, hholes⟩, trivial⟩
  · dsimp only
    split
    · exact admitted_value hlegible ⟨hcontainer, hholes⟩
    · exact admitted_skip hholes (admitted_bare hcontainer key) 0 .separator

theorem admitted_parameterName (hlegible : lexeme.IsLegible)
    (hholes : Hole.AllAdmitted limit holes) (marker : Token) :
    (parameterName setting lexeme marker holes reports).Admitted limit := by
  unfold parameterName
  split
  · exact ⟨trivial, Hole.admitted_cutOff hholes⟩
  split
  next hkind =>
    refine ⟨hholes, ?_⟩
    have hname := hlegible.name hkind
    change Lexer.IsName lexeme.word.toList
    rwa [Lexeme.word, String.toList_ofList]
  · exact admitted_skipParameter hholes 0

theorem admitted_parameterClose {name : String} (hname : Lexer.IsName name.toList)
    (hholes : Hole.AllAdmitted limit holes) (marker : Token) :
    (parameterClose setting lexeme marker name holes reports).Admitted limit := by
  unfold parameterClose
  split
  · exact ⟨trivial, Hole.admitted_cutOff hholes⟩
  split
  · apply admitted_deliver hholes
    rintro value ⟨rfl⟩
    have hlegible : (Scalar.parameter name).IsLegible := hname
    exact .scalar hlegible marker
  · exact admitted_giveUp hholes

theorem admitted_take {reader : Reader} (hlegible : lexeme.IsLegible)
    (hadmitted : reader.Admitted setting.nestingLimit) :
    (reader.take setting lexeme).Admitted setting.nestingLimit := by
  obtain ⟨focus, holes, reports⟩ := reader
  obtain ⟨hholes, hfocus⟩ := hadmitted
  cases focus with
  | value => exact admitted_value hlegible hholes
  | part container comma => exact admitted_part hlegible hholes hfocus comma
  | separator container => exact admitted_separator hlegible hholes hfocus
  | colon opener members key => exact admitted_colon hlegible hholes hfocus key
  | parameterName marker => exact admitted_parameterName hlegible hholes marker
  | parameterClose marker name => exact admitted_parameterClose hfocus hholes marker
  | skip depth container next => exact admitted_skip hholes hfocus depth next
  | skipParameter depth => exact admitted_skipParameter hholes depth
  | finished root =>
      simp only [take]
      split
      · exact ⟨trivial, hfocus⟩
      · exact admitted_excess hfocus
  | stopped root isCut => exact ⟨hholes, hfocus⟩

theorem admitted_step {reader : Reader} (hlegible : lexeme.IsLegible)
    (hadmitted : reader.Admitted setting.nestingLimit) :
    (reader.step setting lexeme).Admitted setting.nestingLimit := by
  unfold step
  split
  · unfold ignore
    split
    · exact ⟨hadmitted.holes, hadmitted.focus⟩
    · exact hadmitted
  · exact admitted_take hlegible hadmitted

theorem admitted_run {reader : Reader} {lexemes : List Lexeme}
    (hlegible : ∀ lexeme ∈ lexemes, lexeme.IsLegible)
    (hadmitted : reader.Admitted setting.nestingLimit) :
    (reader.run setting lexemes).Admitted setting.nestingLimit := by
  induction lexemes generalizing reader with
  | nil => exact hadmitted
  | cons lexeme rest ih =>
      rw [run_cons]
      exact ih (fun later hlater => hlegible later (List.mem_cons_of_mem lexeme hlater))
        (admitted_step (hlegible lexeme List.mem_cons_self) hadmitted)

theorem admitted_start : start.Admitted limit := ⟨trivial, trivial⟩

theorem admitted_endIn {container : Container} (hholes : Hole.AllAdmitted limit holes)
    (hcontainer : container.value.Admitted limit holes.length) :
    ∀ value, (endIn setting container holes reports).root = some value →
      value.Admitted limit 0 := by
  unfold endIn
  split
  · rintro value ⟨rfl⟩
    exact Container.admitted_cutOff hcontainer hholes
  · rintro value ⟨rfl⟩
    exact Container.admitted_enclose hcontainer hholes

theorem admitted_endWithout (hholes : Hole.AllAdmitted limit holes) :
    ∀ value, (endWithout setting holes reports).root = some value →
      value.Admitted limit 0 := by
  cases holes with
  | nil => simp [endWithout]
  | cons hole rest => exact admitted_endIn hholes.2 (Hole.admitted_fill hholes.1 (by simp))

theorem admitted_endBefore (hholes : Hole.AllAdmitted limit holes) (diagnostic : Diagnostic) :
    ∀ value, (endBefore setting diagnostic holes reports).root = some value →
      value.Admitted limit 0 := by
  unfold endBefore
  split
  · exact Hole.admitted_cutOff hholes
  · exact admitted_endWithout hholes

theorem admitted_finish {reader : Reader} (hadmitted : reader.Admitted limit)
    (isGroup : Bool) :
    ∀ value, (reader.finish setting isGroup).root = some value → value.Admitted limit 0 := by
  obtain ⟨focus, holes, reports⟩ := reader
  obtain ⟨hholes, hfocus⟩ := hadmitted
  cases focus with
  | value =>
      cases holes with
      | nil => simp [finish]
      | cons hole rest => exact admitted_endBefore hholes _
  | part container comma => exact admitted_endIn hholes hfocus
  | separator container => exact admitted_endIn hholes hfocus
  | colon opener members key =>
      simp only [finish, endAfterName]
      split
      · exact admitted_endIn hholes hfocus
      · exact admitted_endIn hholes (admitted_bare hfocus key)
  | parameterName marker => exact admitted_endBefore hholes _
  | parameterClose marker name => exact admitted_endBefore hholes _
  | skip depth container next => exact admitted_endIn hholes hfocus
  | skipParameter depth => exact admitted_endWithout hholes
  | finished root => exact hfocus
  | stopped root isCut => exact hfocus

end Reader
end QueryBody
