import QueryBody.Proofs.Arena
import QueryBody.Proofs.Moves
import QueryBody.Body
import Mathlib.Tactic

/-!
# The outline of a body

A place has a type, a token and a container.  What a reader has read so far has an outline
of such spots in the order of the body.  Where a body must be complete, every token adds at
most one spot at the end, and no spot ever changes.
-/

namespace QueryBody

/-- A place apart from its parts. -/
structure Spot where
  type : JsonType
  token : Token
  parent : Option Nat

def Spot.IsContainer (spot : Spot) : Prop := spot.type = .array ∨ spot.type = .object

def Place.spot (place : Place) : Spot := ⟨place.value.type, place.token, place.parent⟩

def Content.type : Content → JsonType
  | scalar content => content.type
  | array _ => .array
  | object _ => .object

namespace Descent

def Node.spot (node : Node) : Spot := ⟨node.content.type, node.token, node.parent⟩

theorem spot_ofPlace (place : Place) : (Node.ofPlace place).spot = place.spot := by
  obtain ⟨id, parent, value⟩ := place
  cases value <;> rfl

theorem Revised.map_spot {id : Nat} {old new : Content} {first last : List Node}
    (hrevised : Revised id old new first last) (htype : old.type = new.type) :
    first.map Node.spot = last.map Node.spot := by
  obtain ⟨before, token, parent, after, -, rfl, rfl⟩ := hrevised.revised
  simp [Node.spot, htype]

/-- A value in a hole is where it was before the container took it. -/
theorem map_spot_fill_some (value : Value) (hole : Hole) (holes : List Hole) :
    (nodesWith (hole.fill (some value)).value holes).map Node.spot =
      (nodesWith value (hole :: holes)).map Node.spot := by
  cases hole with
  | item opener items =>
      obtain ⟨ids, hrevised⟩ := revised_item value opener items holes
      exact (hrevised.map_spot rfl).symm
  | property opener members key =>
      obtain ⟨entries, hrevised⟩ := revised_pair value opener members key holes
      exact (hrevised.map_spot rfl).symm

theorem map_spot_fill_none (hole : Hole) (holes : List Hole) :
    (nodesWith (hole.fill none).value holes).map Node.spot =
      (layout (hole :: holes)).map Node.spot := by
  cases hole with
  | item opener items => rw [layout_item]; rfl
  | property opener members key =>
      obtain ⟨entries, hrevised⟩ := revised_bare opener members key holes
      exact (hrevised.map_spot rfl).symm

theorem map_spot_enclose (container : Container) (holes : List Hole) :
    (nodesOf none 0 (container.enclose holes)).map Node.spot =
      (nodesWith container.value holes).map Node.spot := by
  induction holes generalizing container with
  | nil => rfl
  | cons hole rest ih => rw [Container.enclose, ih, map_spot_fill_some]

def spotAt (value : Value) (holes : List Hole) : Spot := ⟨value.type, value.token, owner holes⟩

theorem exists_map_spot_nodesWith (value : Value) (holes : List Hole) :
    ∃ parts, (nodesWith value holes).map Node.spot =
      (layout holes).map Node.spot ++ spotAt value holes :: parts ∧
        parts.length + 1 = value.size := by
  have hhead : ∃ parts, (nodesOf (owner holes) (place holes) value).map Node.spot =
      spotAt value holes :: parts := by
    cases value <;> exact ⟨_, rfl⟩
  obtain ⟨parts, hparts⟩ := hhead
  refine ⟨parts, by rw [nodesWith, List.map_append, hparts], ?_⟩
  rw [← length_nodesOf (owner holes) (place holes) value, ← List.length_map Node.spot, hparts,
    List.length_cons]

/-- A value without parts adds one spot. -/
theorem map_spot_nodesWith {value : Value} (hparts : value.size = 1) (holes : List Hole) :
    (nodesWith value holes).map Node.spot =
      (layout holes).map Node.spot ++ [spotAt value holes] := by
  obtain ⟨parts, hnodes, hsize⟩ := exists_map_spot_nodesWith value holes
  obtain rfl : parts = [] := List.length_eq_zero_iff.mp (by omega)
  exact hnodes

theorem exists_map_spot_layout (hole : Hole) (holes : List Hole) :
    ∃ parts, (layout (hole :: holes)).map Node.spot =
      (layout holes).map Node.spot ++ spotAt hole.discard.value holes :: parts := by
  obtain ⟨parts, hnodes, -⟩ := exists_map_spot_nodesWith hole.discard.value holes
  refine ⟨parts ++ (nameNode (place holes) hole).map Node.spot, ?_⟩
  rw [layout_cons, List.map_append, hnodes, List.append_assoc, List.cons_append]

end Descent

open Descent

def rootOutline (root : Option Value) : List Spot :=
  (root.elim [] (nodesOf none 0)).map Node.spot

theorem Hole.outline_abandon (holes : List Hole) :
    rootOutline (abandon holes) = (layout holes).map Node.spot := by
  cases holes with
  | nil => rfl
  | cons hole rest => exact (map_spot_enclose _ rest).trans (map_spot_fill_none hole rest)

theorem Tree.map_spot_places (tree : Tree) :
    tree.places.map Place.spot = rootOutline tree.root := by
  obtain ⟨root⟩ := tree
  cases root with
  | none => rfl
  | some value =>
      change (value.places none 0).map Place.spot =
        ((value.places none 0).map Node.ofPlace).map Node.spot
      rw [List.map_map]
      exact List.map_congr_left fun place _ => (spot_ofPlace place).symm

namespace Reader

/-- The spots of what has been read so far. -/
def outline (reader : Reader) : List Spot :=
  match reader.focus with
  | .value | .parameterName _ | .parameterClose _ _ | .skipParameter _ =>
      (layout reader.holes).map Node.spot
  | .part container _ | .separator container | .skip _ container _ =>
      (nodesWith container.value reader.holes).map Node.spot
  | .colon opener members key =>
      (layout (.property opener members key :: reader.holes)).map Node.spot
  | .finished root | .stopped root _ => rootOutline root

theorem outline_deliver_none (holes : List Hole) (reports : List Diagnostic) :
    (deliver none holes reports).outline = (layout holes).map Node.spot := by
  cases holes with
  | nil => rfl
  | cons hole rest => exact map_spot_fill_none hole rest

theorem outline_deliver_some (value : Value) (holes : List Hole) (reports : List Diagnostic) :
    (deliver (some value) holes reports).outline = (nodesWith value holes).map Node.spot := by
  cases holes with
  | nil => rfl
  | cons hole rest => exact map_spot_fill_some value hole rest

variable {setting : Setting} {lexeme : Lexeme} {first last : Reader}

theorem Turn.outline_eq (hturn : Turn setting lexeme first last) :
    last.outline = first.outline := by
  cases hturn with
  | item hrecovery => exact congrArg (List.map Node.spot) (layout_item _ _ _)
  | missingValue hrecovery => exact outline_deliver_none _ _
  | mismatched hrecovery hcomma hcloser => exact outline_deliver_some _ _ _
  | mismatchedPart hrecovery hcomma hcloser => exact outline_deliver_some _ _ _
  | noPair hcut hkind hfirst => exact map_spot_fill_none (.property _ _ _) _
  | noMarker hcut hkind => exact outline_deliver_none _ _
  | resumeParameter hrecovery => exact outline_deliver_none _ _
  | _ => rfl

/-! ### What a token adds -/

/-- At most one spot is added, and that of a container only where there may be one more. -/
inductive Added (setting : Setting) (outline : List Spot) : List Spot → Prop
  | nothing : Added setting outline outline
  | leaf {spot : Spot} (hleaf : ¬spot.IsContainer) :
      Added setting outline (outline ++ [spot])
  | container {spot : Spot} {holes : List Hole}
      (hbefore : outline = (layout holes).map Node.spot) (hparent : spot.parent = owner holes)
      (hroom : setting.exceeded? holes.length = none) :
      Added setting outline (outline ++ [spot])

theorem Added.isPrefix {outline longer : List Spot} (hadded : Added setting outline longer) :
    outline <+: longer := by
  cases hadded with
  | nothing => exact List.prefix_rfl
  | leaf hleaf => exact List.prefix_append _ _
  | container hbefore hparent hroom => exact List.prefix_append _ _

theorem not_isContainer_scalar (content : Scalar) (token : Token) (parent : Option Nat) :
    ¬Spot.IsContainer ⟨content.type, token, parent⟩ := by
  cases content <;> simp [Spot.IsContainer, Scalar.type]

theorem added_scalar (setting : Setting) (token : Token) (content : Scalar) (holes : List Hole)
    (reports : List Diagnostic) :
    Added setting ((layout holes).map Node.spot)
      (deliver (some (.scalar token content)) holes reports).outline := by
  rw [outline_deliver_some, map_spot_nodesWith rfl]
  exact .leaf (not_isContainer_scalar content token (owner holes))

theorem size_ofOpener (opener : Token) : (Container.ofOpener opener).value.size = 1 := by
  unfold Container.ofOpener
  split <;> rfl

theorem token_ofOpener (opener : Token) : (Container.ofOpener opener).value.token = opener := by
  unfold Container.ofOpener
  split <;> rfl

theorem isContainer_ofOpener (opener : Token) (holes : List Hole) :
    (spotAt (Container.ofOpener opener).value holes).IsContainer := by
  unfold Container.ofOpener
  split
  · exact Or.inr rfl
  · exact Or.inl rfl

theorem Shift.added (hstrict : setting.allowsFragments = false)
    (hshift : Shift setting lexeme first last) : Added setting first.outline last.outline := by
  cases hshift with
  | cut hcut => simp [Setting.isCutIn, Setting.isCutInMarker, hstrict] at hcut
  | tooDeep hkind hexceeded =>
      -- what is abandoned has no part of the container that the token would have opened
      rename_i limit holes reports
      have houtline : rootOutline (Hole.abandon holes) = (layout holes).map Node.spot :=
        Hole.outline_abandon holes
      simp only [outline, houtline]
      exact .nothing
  | opening hkind hroom =>
      rename_i holes reports
      simp only [outline]
      rw [map_spot_nodesWith (size_ofOpener _)]
      exact .container rfl rfl hroom
  | scalar hcontent => exact added_scalar _ _ _ _ _
  | noValue hcut hrecovery hfirst =>
      rw [outline_deliver_none]
      exact .nothing
  | name hkind =>
      simp only [outline, layout_property, List.map_append, List.map_cons, List.map_nil]
      exact .leaf (not_isContainer_scalar (.string lexeme.key.text) _ _)
  | parameterClose hkind => exact added_scalar _ _ _ _ _
  | close hkind =>
      rw [outline_deliver_some]
      exact .nothing
  | closePart hkind =>
      rw [outline_deliver_some]
      exact .nothing
  | brokenMarker hkind =>
      rw [outline_deliver_none]
      exact .nothing
  | _ => exact .nothing

theorem added_take (hstrict : setting.allowsFragments = false) (reader : Reader)
    (lexeme : Lexeme) : Added setting reader.outline (reader.take setting lexeme).outline := by
  refine take_induction (fun turned => turned.outline = reader.outline)
    (fun taken => Added setting reader.outline taken.outline) ?_ ?_ rfl
  · intro first last hturn hsame
    exact hturn.outline_eq.trans hsame
  · intro first last hshift hsame
    exact hsame ▸ hshift.added hstrict

theorem added_step (hstrict : setting.allowsFragments = false) (reader : Reader)
    (lexeme : Lexeme) : Added setting reader.outline (reader.step setting lexeme).outline := by
  unfold step
  split
  · unfold ignore
    split <;> exact .nothing
  · exact added_take hstrict reader lexeme

/-- What is read stays where it is. -/
theorem outline_isPrefix_run (hstrict : setting.allowsFragments = false) (reader : Reader)
    (lexemes : List Lexeme) : reader.outline <+: (reader.run setting lexemes).outline := by
  induction lexemes generalizing reader with
  | nil => exact List.prefix_rfl
  | cons lexeme rest ih =>
      exact (added_step hstrict reader lexeme).isPrefix.trans (ih _)

/-! ### The nesting of containers -/

/-- Every container has been read with fewer containers around it than the limit. -/
def Shallow (limit : Nat) (outline : List Spot) : Prop :=
  ∀ before spot after, outline = before ++ spot :: after → spot.IsContainer →
    ∃ holes, before = (layout holes).map Node.spot ∧ spot.parent = owner holes ∧
      holes.length < limit

/-- A spot of a longer outline is the last one or was there before. -/
theorem last_or_before {outline before after : List Spot} {spot last : Spot}
    (hlonger : outline ++ [last] = before ++ spot :: after) :
    (before = outline ∧ spot = last) ∨ ∃ rest, outline = before ++ spot :: rest := by
  rcases List.eq_nil_or_concat after with rfl | ⟨rest, final, rfl⟩
  · obtain ⟨hbefore, hspot⟩ := List.append_inj' hlonger rfl
    exact Or.inl ⟨hbefore.symm, (List.singleton_inj.mp hspot).symm⟩
  · have hsame : outline ++ [last] = (before ++ spot :: rest) ++ [final] := by
      simpa using hlonger
    exact Or.inr ⟨rest, (List.append_inj' hsame rfl).1⟩

theorem Shallow.added {limit : Nat} (hlimit : setting.nestingLimit = some limit)
    {outline longer : List Spot} (hshallow : Shallow limit outline)
    (hadded : Added setting outline longer) : Shallow limit longer := by
  intro before spot after hsplit hcontainer
  cases hadded with
  | nothing => exact hshallow before spot after hsplit hcontainer
  | leaf hleaf =>
      rcases last_or_before hsplit with ⟨_, rfl⟩ | ⟨rest, hrest⟩
      · exact absurd hcontainer hleaf
      · exact hshallow before spot rest hrest hcontainer
  | container hbefore hparent hroom =>
      rename_i holes
      rcases last_or_before hsplit with ⟨rfl, rfl⟩ | ⟨rest, hrest⟩
      · refine ⟨holes, hbefore, hparent, ?_⟩
        simpa [Setting.exceeded?, hlimit] using hroom
      · exact hshallow before spot rest hrest hcontainer

theorem shallow_start {limit : Nat} : Shallow limit start.outline := by
  intro before spot after hsplit
  exact absurd hsplit.symm (List.append_ne_nil_of_right_ne_nil _ (List.cons_ne_nil _ _))

theorem shallow_run {limit : Nat} (hlimit : setting.nestingLimit = some limit)
    (hstrict : setting.allowsFragments = false) {reader : Reader}
    (hshallow : Shallow limit reader.outline) (lexemes : List Lexeme) :
    Shallow limit (reader.run setting lexemes).outline := by
  induction lexemes generalizing reader with
  | nil => exact hshallow
  | cons lexeme rest ih => exact ih (hshallow.added hlimit (added_step hstrict reader lexeme))

/-! ### The end of the body -/

theorem outline_endIn (hstrict : setting.allowsFragments = false) (container : Container)
    (holes : List Hole) (reports : List Diagnostic) :
    rootOutline (endIn setting container holes reports).root =
      (nodesWith container.value holes).map Node.spot := by
  simp only [endIn, hstrict, Bool.false_eq_true, if_false]
  exact map_spot_enclose container holes

theorem outline_endWithout (hstrict : setting.allowsFragments = false) (holes : List Hole)
    (reports : List Diagnostic) :
    rootOutline (endWithout setting holes reports).root = (layout holes).map Node.spot := by
  cases holes with
  | nil => rfl
  | cons hole rest => exact (outline_endIn hstrict _ _ _).trans (map_spot_fill_none hole rest)

theorem outline_endBefore (hstrict : setting.allowsFragments = false) (diagnostic : Diagnostic)
    (holes : List Hole) (reports : List Diagnostic) :
    rootOutline (endBefore setting diagnostic holes reports).root =
      (layout holes).map Node.spot := by
  simp only [endBefore, hstrict, Bool.false_eq_true, if_false]
  exact outline_endWithout hstrict holes _

/-- The end of a body that must be complete adds nothing and leaves nothing out. -/
theorem outline_finish (hstrict : setting.allowsFragments = false) (isGroup : Bool)
    (reader : Reader) : rootOutline (reader.finish setting isGroup).root = reader.outline := by
  obtain ⟨focus, holes, reports⟩ := reader
  cases focus with
  | value =>
      cases holes with
      | nil => rfl
      | cons hole rest => exact outline_endBefore hstrict _ _ _
  | part container comma => exact outline_endIn hstrict _ _ _
  | separator container => exact outline_endIn hstrict _ _ _
  | colon opener members key =>
      simp only [finish, endAfterName, hstrict, Bool.false_eq_true, if_false]
      exact (outline_endIn hstrict _ _ _).trans
        (map_spot_fill_none (.property opener members key) holes)
  | parameterName marker => exact outline_endBefore hstrict _ _ _
  | parameterClose marker name => exact outline_endBefore hstrict _ _ _
  | skip depth container next => exact outline_endIn hstrict _ _ _
  | skipParameter depth => exact outline_endWithout hstrict _ _
  | finished root => rfl
  | stopped root isCut => rfl

end Reader

/-! ### The containers of a place -/

namespace Tree

variable {tree : Tree} {holes : List Hole}

theorem parent_of_outline {before after : List Spot} {spot : Spot}
    (houtline : tree.places.map Place.spot = before ++ spot :: after) :
    (tree.get? before.length).bind (·.parent) = spot.parent := by
  have hget : (tree.get? before.length).map Place.spot = some spot := by
    rw [get?, ← List.getElem?_map, houtline]
    simp
  obtain ⟨place, hplace, rfl⟩ := Option.map_eq_some_iff.mp hget
  rw [hplace]
  rfl

/-- The way up from a value that was read with these containers around it. -/
theorem length_climb (hbefore : (layout holes).map Node.spot <+: tree.places.map Place.spot)
    {steps : Nat} (hsteps : holes.length ≤ steps) :
    (tree.climb steps (owner holes)).length = holes.length := by
  induction holes generalizing steps with
  | nil => cases steps <;> rfl
  | cons hole rest ih =>
      obtain ⟨steps, rfl⟩ : ∃ fewer, steps = fewer + 1 := ⟨steps - 1, by simp at hsteps; omega⟩
      -- the container of the innermost hole stands where the containers around it end
      obtain ⟨parts, hparts⟩ := exists_map_spot_layout hole rest
      obtain ⟨after, hafter⟩ := hbefore
      rw [hparts, List.append_assoc, List.cons_append] at hafter
      have hparent : (tree.get? (layout rest).length).bind (·.parent) = owner rest := by
        simpa [spotAt] using parent_of_outline hafter.symm
      rw [owner, climb, List.length_cons, List.length_cons, hparent,
        ih ⟨_, hafter⟩ (by simpa using hsteps)]

theorem length_ancestors {place : Place}
    (hbefore : (layout holes).map Node.spot <+: tree.places.map Place.spot)
    (hplace : place.id = Descent.place holes) (hparent : place.parent = owner holes) :
    (tree.ancestors place).length = holes.length := by
  rw [ancestors, hparent, hplace]
  exact length_climb hbefore (length_le_place holes)

end Tree
end QueryBody
