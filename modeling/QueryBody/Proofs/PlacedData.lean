import QueryBody.Datum.Basic
import QueryBody.Proofs.Numbering
import QueryBody.Proofs.SortedEntries
import Mathlib.Tactic

/-!
# Data read off numbered places

A place keeps the numbers of its parts.  Following these numbers says the same as the
value that stands at the place: the items of an array are what the kept numbers say, and
so are the slots of an object, in the same order.
-/

namespace QueryBody

namespace Place

variable {place : Place}

theorem lt_of_content_array {ids : List Nat} (hcontent : place.content = .array ids) {id : Nat}
    (hmem : id ∈ ids) : place.id < id := by
  have hstored : place.stored = ids := by rw [stored, hcontent]
  exact lt_of_mem_parts (place.stored_subset_parts (hstored ▸ hmem))

theorem lt_of_content_object {entries : List (String × Entry)}
    (hcontent : place.content = .object entries) {slot : String × Entry} (hmem : slot ∈ entries)
    {id : Nat} (hvalue : slot.2.value = some id) : place.id < id := by
  have hstored : place.stored = entries.flatMap (·.2.ids) := by rw [stored, hcontent]
  have hid : id ∈ place.stored := by
    rw [hstored, List.mem_flatMap]
    exact ⟨slot, hmem, by simp [Entry.ids, hvalue]⟩
  exact lt_of_mem_parts (place.stored_subset_parts hid)

/-- The children of a place come after it. -/
theorem lt_of_mem_children {id : Nat} (hmem : id ∈ place.children) : place.id < id := by
  cases hcontent : place.content with
  | scalar content =>
      rw [children, hcontent] at hmem
      contradiction
  | array ids =>
      rw [children, hcontent] at hmem
      exact lt_of_content_array hcontent hmem
  | object entries =>
      rw [children, hcontent] at hmem
      obtain ⟨slot, hslot, hvalue⟩ := List.mem_filterMap.mp hmem
      exact lt_of_content_object hcontent hslot hvalue

end Place

namespace Tree

variable {tree : Tree}

/-- The place with the number says the datum. -/
def Says (tree : Tree) (id : Nat) (datum : Datum) : Prop :=
  ∃ place, tree.get? id = some place ∧ place.value.datum = datum

/-- The slot has the key of the entry, and its datum is that of the kept number. -/
def SaysSlot (tree : Tree) (entry : String × Entry) (slot : String × Option Datum) : Prop :=
  entry.1 = slot.1 ∧ Option.Rel tree.Says entry.2.value slot.2

/-- What a content says by the numbers in it. -/
inductive SaysBy (tree : Tree) : Content → Datum → Prop
  | scalar (content : Scalar) : SaysBy tree (.scalar content) (.scalar content)
  | array {ids : List Nat} {items : List Datum} (hitems : List.Forall₂ tree.Says ids items) :
      SaysBy tree (.array ids) (.array items)
  | object {entries : List (String × Entry)} {slots : List (String × Option Datum)}
      (hslots : List.Forall₂ tree.SaysSlot entries slots) :
      SaysBy tree (.object entries) (.object slots)

theorem says_of_mem {place : Place} (hmem : place ∈ tree.places) :
    tree.Says place.id place.value.datum :=
  ⟨place, get?_of_mem hmem, rfl⟩

theorem says_itemIds {parent next : Nat} {items : List Value}
    (hplaces : Value.itemPlaces parent next items ⊆ tree.places) :
    List.Forall₂ tree.Says (Value.itemIds next items) (Value.itemData items) := by
  induction items generalizing next with
  | nil => exact .nil
  | cons item rest ih =>
      rw [Value.itemPlaces, List.append_subset] at hplaces
      exact .cons (says_of_mem (hplaces.1 (Value.mem_places (some parent) next item)))
        (ih hplaces.2)

theorem says_memberIds {parent next : Nat} {members : List Member}
    (hplaces : Value.memberPlaces parent next members ⊆ tree.places) :
    List.Forall₂ tree.SaysSlot (Value.memberIds next members) (Value.memberData members) := by
  induction members generalizing next with
  | nil => exact .nil
  | cons member rest ih =>
      cases member with
      | bare key =>
          rw [Value.memberPlaces, List.cons_subset] at hplaces
          exact .cons ⟨rfl, .none⟩ (ih hplaces.2)
      | pair key value =>
          rw [Value.memberPlaces, List.cons_append, List.cons_subset, List.append_subset] at hplaces
          have hvalue := says_of_mem (hplaces.2.1 (Value.mem_places (some parent) (next + 1) value))
          exact .cons ⟨rfl, .some hvalue⟩ (ih hplaces.2.2)

/-- A place says what the numbers say that it keeps. -/
theorem saysBy_of_mem {place : Place} (hmem : place ∈ tree.places) :
    tree.SaysBy place.content place.value.datum := by
  have hparts := places_subset hmem
  obtain ⟨id, parent, value⟩ := place
  cases value with
  | scalar token content => exact .scalar content
  | array opener items => exact .array (says_itemIds (List.subset_of_cons_subset hparts))
  | object opener members =>
      exact .object (Slots.forall₂_ofList (fun _ _ hslot => hslot.1)
        (says_memberIds (List.subset_of_cons_subset hparts)))

end Tree
end QueryBody
