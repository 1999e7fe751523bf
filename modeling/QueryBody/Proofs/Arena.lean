import QueryBody.Parser.Descent
import QueryBody.Proofs.Numbering
import QueryBody.Proofs.ReportOrder
import Mathlib.Tactic

/-!
# The arena of a parse

The nodes of a body are its places in their order.  While a value is read, the nodes
before it are those of the containers around it, as far as these have come, and the name
of the property if it is the value of one.
-/

namespace QueryBody

namespace Slots

variable {α : Type}

theorem insert_ne_nil (key : String) (entry : α) (slots : List (String × α)) :
    insert key entry slots ≠ [] := by
  cases slots with
  | nil => simp [insert]
  | cons slot rest =>
      unfold insert
      split <;> simp

theorem isEmpty_ofList (entries : List (String × α)) :
    (ofList entries).isEmpty = entries.isEmpty := by
  rcases List.eq_nil_or_concat' entries with rfl | ⟨front, last, rfl⟩
  · rfl
  · rw [ofList_append_singleton, List.isEmpty_eq_false_iff.mpr (insert_ne_nil _ _ _)]
    simp

end Slots

namespace Value

theorem itemPlaces_append (parent next : Nat) (front back : List Value) :
    itemPlaces parent next (front ++ back) =
      itemPlaces parent next front ++ itemPlaces parent (next + itemsSize front) back := by
  induction front generalizing next with
  | nil => rfl
  | cons item front ih => simp [itemPlaces, itemsSize, ih, Nat.add_assoc]

theorem itemIds_append (next : Nat) (front back : List Value) :
    itemIds next (front ++ back) = itemIds next front ++ itemIds (next + itemsSize front) back := by
  induction front generalizing next with
  | nil => rfl
  | cons item front ih => simp [itemIds, itemsSize, ih, Nat.add_assoc]

theorem memberPlaces_append (parent next : Nat) (front back : List Member) :
    memberPlaces parent next (front ++ back) =
      memberPlaces parent next front ++ memberPlaces parent (next + membersSize front) back := by
  induction front generalizing next with
  | nil => rfl
  | cons member front ih =>
      cases member <;> simp [memberPlaces, membersSize, ih, Nat.add_assoc]

theorem memberIds_append (next : Nat) (front back : List Member) :
    memberIds next (front ++ back) =
      memberIds next front ++ memberIds (next + membersSize front) back := by
  induction front generalizing next with
  | nil => rfl
  | cons member front ih =>
      cases member <;> simp [memberIds, membersSize, ih, Nat.add_assoc]

theorem isEmpty_itemIds (next : Nat) (items : List Value) :
    (itemIds next items).isEmpty = items.isEmpty := by
  cases items <;> rfl

theorem isEmpty_memberIds (next : Nat) (members : List Member) :
    (memberIds next members).isEmpty = members.isEmpty := by
  rcases members with _ | ⟨_ | _, _⟩ <;> rfl

end Value

namespace Descent

def Node.ofPlace (place : Place) : Node := ⟨place.content, place.token, place.parent⟩

/-- The nodes of a value that has a number. -/
def nodesOf (parent : Option Nat) (id : Nat) (value : Value) : List Node :=
  (value.places parent id).map Node.ofPlace

theorem length_nodesOf (parent : Option Nat) (id : Nat) (value : Value) :
    (nodesOf parent id value).length = value.size := by
  rw [nodesOf, List.length_map, Value.length_places]

def nameNode (object : Nat) : Hole → List Node
  | .item _ _ => []
  | .property _ _ key => [⟨.scalar (.string key.text), key.token, some object⟩]

mutual

/-- The nodes before a value that is read with these containers around it. -/
def layout : List Hole → List Node
  | [] => []
  | hole :: rest =>
      layout rest ++ nodesOf (owner rest) (layout rest).length hole.discard.value ++
        nameNode (layout rest).length hole

def owner : List Hole → Option Nat
  | [] => none
  | _ :: rest => some (layout rest).length

end

/-- The number of a value that is read with these containers around it. -/
def place (holes : List Hole) : Nat := (layout holes).length

/-- The nodes once a value is there. -/
def nodesWith (value : Value) (holes : List Hole) : List Node :=
  layout holes ++ nodesOf (owner holes) (place holes) value

theorem length_nodesWith (value : Value) (holes : List Hole) :
    (nodesWith value holes).length = place holes + value.size := by
  rw [nodesWith, List.length_append, length_nodesOf, place]

theorem layout_cons (hole : Hole) (rest : List Hole) :
    layout (hole :: rest) = nodesWith hole.discard.value rest ++ nameNode (place rest) hole := by
  rw [layout, nodesWith, place]

theorem layout_item (opener : Token) (items : List Value) (holes : List Hole) :
    layout (.item opener items :: holes) =
      nodesWith (Container.array opener items).value holes := by
  rw [layout_cons, nameNode, List.append_nil, Hole.discard]

theorem layout_property (opener : Token) (members : List Member) (key : Key)
    (holes : List Hole) :
    layout (.property opener members key :: holes) =
      nodesWith (Container.object opener members).value holes ++
        [⟨.scalar (.string key.text), key.token, some (place holes)⟩] :=
  layout_cons _ _

/-- Every container around a value has a node. -/
theorem length_le_place (holes : List Hole) : holes.length ≤ place holes := by
  induction holes with
  | nil => exact Nat.zero_le _
  | cons hole rest ih =>
      have hpos := hole.discard.value.size_pos
      rw [place, layout_cons, List.length_append, length_nodesWith, List.length_cons]
      omega

/-- A node has got another content. -/
structure Revised (id : Nat) (old new : Content) (first last : List Node) : Prop where
  revised : ∃ before token parent after, id = before.length ∧
    first = before ++ ⟨old, token, parent⟩ :: after ∧
    last = before ++ ⟨new, token, parent⟩ :: after

theorem Revised.getElem? {id : Nat} {old new : Content} {first last : List Node}
    (hrevised : Revised id old new first last) :
    ∃ node, first[id]? = some node ∧ node.content = old := by
  obtain ⟨before, token, parent, after, rfl, rfl, rfl⟩ := hrevised.revised
  exact ⟨⟨old, token, parent⟩, by simp, rfl⟩

theorem Revised.modify {id : Nat} {old new : Content} {first last : List Node}
    (hrevised : Revised id old new first last) :
    (first.modify id fun node => { node with content := new }) = last := by
  obtain ⟨before, token, parent, after, rfl, rfl, rfl⟩ := hrevised.revised
  simp [List.modify_eq_take_cons_drop]

theorem Revised.length_eq {id : Nat} {old new : Content} {first last : List Node}
    (hrevised : Revised id old new first last) : last.length = first.length := by
  obtain ⟨before, token, parent, after, rfl, rfl, rfl⟩ := hrevised.revised
  simp

/-- An array gets its next item. -/
theorem revised_item (value : Value) (opener : Token) (items : List Value) (holes : List Hole) :
    ∃ ids, Revised (place holes) (.array ids)
      (.array (ids ++ [place (.item opener items :: holes)]))
      (nodesWith value (.item opener items :: holes))
      (nodesWith (Container.array opener (value :: items)).value holes) := by
  have hplace : place (.item opener items :: holes) =
      place holes + 1 + Value.itemsSize items.reverse := by
    rw [place, layout_item, length_nodesWith, Container.value, Value.size, Nat.add_assoc]
  refine ⟨Value.itemIds (place holes + 1) items.reverse, layout holes, opener, owner holes,
    (Value.itemPlaces (place holes) (place holes + 1) items.reverse).map Node.ofPlace ++
      nodesOf (some (place holes)) (place (.item opener items :: holes)) value, rfl, ?_, ?_⟩
  · rw [nodesWith, layout_item, nodesWith, owner]
    simp [nodesOf, Value.places, Node.ofPlace, Place.content, Place.token, Value.token,
      Container.value, place]
  · rw [nodesWith, hplace]
    simp [nodesOf, Value.places, Node.ofPlace, Place.content, Place.token, Value.token,
      Container.value, Value.itemPlaces_append, Value.itemIds_append, Value.itemPlaces,
      Value.itemIds]

theorem place_property (opener : Token) (members : List Member) (key : Key)
    (holes : List Hole) :
    place (.property opener members key :: holes) =
      place holes + 1 + Value.membersSize members.reverse + 1 := by
  rw [place, layout_property, List.length_append, length_nodesWith, Container.value, Value.size,
    List.length_singleton, ← Nat.add_assoc]

def namePlace (opener : Token) (members : List Member) (holes : List Hole) : Nat :=
  (nodesWith (Container.object opener members).value holes).length

theorem namePlace_eq (opener : Token) (members : List Member) (holes : List Hole) :
    namePlace opener members holes =
      place holes + 1 + Value.membersSize members.reverse := by
  rw [namePlace, length_nodesWith, Container.value, Value.size, Nat.add_assoc]

/-- An object gets its next property. -/
theorem revised_pair (value : Value) (opener : Token) (members : List Member) (key : Key)
    (holes : List Hole) :
    ∃ entries, Revised (place holes) (.object entries)
      (.object (Slots.insert key.text
        ⟨namePlace opener members holes, some (place (.property opener members key :: holes))⟩
        entries))
      (nodesWith value (.property opener members key :: holes))
      (nodesWith (Container.object opener (.pair key value :: members)).value holes) := by
  refine ⟨Slots.ofList (Value.memberIds (place holes + 1) members.reverse), layout holes, opener,
    owner holes,
    (Value.memberPlaces (place holes) (place holes + 1) members.reverse).map Node.ofPlace ++
      ⟨.scalar (.string key.text), key.token, some (place holes)⟩ ::
      nodesOf (some (place holes)) (place (.property opener members key :: holes)) value,
    rfl, ?_, ?_⟩
  · rw [nodesWith, layout_property, nodesWith, owner]
    simp [nodesOf, Value.places, Node.ofPlace, Place.content, Place.token, Value.token,
      Container.value, place]
  · rw [nodesWith, place_property, namePlace_eq]
    simp [nodesOf, Value.places, Node.ofPlace, Place.content, Place.token, Value.token,
      Container.value, Value.memberPlaces_append, Value.memberIds_append, Value.memberPlaces,
      Value.memberIds, Slots.ofList_append_singleton, Key.value]

/-- An object gets a property without a value. -/
theorem revised_bare (opener : Token) (members : List Member) (key : Key) (holes : List Hole) :
    ∃ entries, Revised (place holes) (.object entries)
      (.object (Slots.insert key.text ⟨namePlace opener members holes, none⟩ entries))
      (layout (.property opener members key :: holes))
      (nodesWith (Container.object opener (.bare key :: members)).value holes) := by
  refine ⟨Slots.ofList (Value.memberIds (place holes + 1) members.reverse), layout holes, opener,
    owner holes,
    (Value.memberPlaces (place holes) (place holes + 1) members.reverse).map Node.ofPlace ++
      [⟨.scalar (.string key.text), key.token, some (place holes)⟩], rfl, ?_, ?_⟩
  · rw [layout_property, nodesWith]
    simp [nodesOf, Value.places, Node.ofPlace, Place.content, Place.token, Value.token,
      Container.value, place]
  · rw [nodesWith, namePlace_eq]
    simp [nodesOf, Value.places, Node.ofPlace, Place.content, Place.token, Value.token,
      Container.value, Value.memberPlaces_append, Value.memberIds_append, Value.memberPlaces,
      Value.memberIds, Slots.ofList_append_singleton, Key.value]

theorem length_nodesWith_fill_some (value : Value) (hole : Hole) (holes : List Hole) :
    (nodesWith (hole.fill (some value)).value holes).length =
      (nodesWith value (hole :: holes)).length := by
  cases hole with
  | item opener items =>
      obtain ⟨ids, hrevised⟩ := revised_item value opener items holes
      exact hrevised.length_eq
  | property opener members key =>
      obtain ⟨entries, hrevised⟩ := revised_pair value opener members key holes
      exact hrevised.length_eq

theorem length_nodesWith_fill_none (hole : Hole) (holes : List Hole) :
    (nodesWith (hole.fill none).value holes).length = (layout (hole :: holes)).length := by
  cases hole with
  | item opener items =>
      rw [layout_item]
      rfl
  | property opener members key =>
      obtain ⟨entries, hrevised⟩ := revised_bare opener members key holes
      exact hrevised.length_eq

/-- Whether a container is empty can be read off its node. -/
theorem exists_node_of_container (container : Container) (holes : List Hole) :
    ∃ node, (nodesWith container.value holes)[place holes]? = some node ∧
      hasNoParts node.content = container.isEmpty := by
  cases container with
  | array opener items =>
      refine ⟨Node.ofPlace ⟨place holes, owner holes, .array opener items.reverse⟩, ?_, ?_⟩
      · simp [nodesWith, nodesOf, Value.places, Container.value, place]
      · simp [Node.ofPlace, Place.content, hasNoParts, Value.isEmpty_itemIds, Container.isEmpty]
  | object opener members =>
      refine ⟨Node.ofPlace ⟨place holes, owner holes, .object opener members.reverse⟩, ?_, ?_⟩
      · simp [nodesWith, nodesOf, Value.places, Container.value, place]
      · simp [Node.ofPlace, Place.content, hasNoParts, Slots.isEmpty_ofList,
          Value.isEmpty_memberIds, Container.isEmpty]

end Descent
end QueryBody
