import QueryBody.Proofs.Descent
import Mathlib.Tactic

/-!
# What can be reached from the root

A container keeps all of its parts unless two of its keys are the same: then the name
and the value of the earlier one are still nodes, but no container leads to them.
Nothing else is left over in the arena, neither what was cut off nor what could not be
read.
-/

namespace QueryBody

/-- The keys of an object as they stand in the body. -/
def Place.keys (place : Place) : List String :=
  match place.value with
  | .object _ members => members.map fun member => member.key.text
  | _ => []

namespace Value

theorem keys_memberIds (next : Nat) (members : List Member) :
    (memberIds next members).map Prod.fst = members.map fun member => member.key.text := by
  induction members generalizing next with
  | nil => rfl
  | cons member rest ih => cases member <;> simp [memberIds, Member.key, ih]

/-- Only a property that shares no number with the slots has been replaced. -/
theorem mem_ofList_memberIds {next : Nat} {members : List Member} {slot : String × Entry}
    (hslot : slot ∈ memberIds next members)
    (hkept : slot.2.name ∈ (Slots.ofList (memberIds next members)).flatMap (·.2.ids)) :
    slot ∈ Slots.ofList (memberIds next members) := by
  obtain ⟨kept, hmem, hname⟩ := List.mem_flatMap.mp hkept
  have hsymm : Std.Symm fun first second : String × Entry =>
      first.2.ids.Disjoint second.2.ids := ⟨fun _ _ hapart => hapart.symm⟩
  by_contra hnot
  have hne : slot ≠ kept := by
    rintro rfl
    exact hnot hmem
  exact (disjoint_memberIds next members).forall hslot (Slots.mem_of_mem_ofList hmem) hne
    List.mem_cons_self hname

theorem nodup_keys_of_subset {next : Nat} {members : List Member}
    (hall : (memberIds next members).flatMap (·.2.ids) ⊆
      (Slots.ofList (memberIds next members)).flatMap (·.2.ids)) :
    ((memberIds next members).map Prod.fst).Nodup := by
  have hkept : ∀ slot ∈ memberIds next members, slot ∈ Slots.ofList (memberIds next members) := by
    intro slot hslot
    exact mem_ofList_memberIds hslot
      (hall (List.mem_flatMap.mpr ⟨slot, hslot, List.mem_cons_self⟩))
  rw [List.Nodup, List.pairwise_map]
  refine (disjoint_memberIds next members).imp_of_mem ?_
  intro first second hfirst hsecond hapart hkey
  have hsame := List.inj_on_of_nodup_map (Slots.nodup_keys_ofList _) (hkept first hfirst)
    (hkept second hsecond) hkey
  exact hapart List.mem_cons_self (hsame ▸ List.mem_cons_self)

end Value

theorem Place.parts_subset_stored_iff (place : Place) :
    place.parts ⊆ place.stored ↔ place.keys.Nodup := by
  obtain ⟨number, parent, value⟩ := place
  cases value with
  | scalar token content => exact iff_of_true (List.Subset.refl _) .nil
  | array opener items => exact iff_of_true (List.Subset.refl _) .nil
  | object opener members =>
      change (Value.memberIds (number + 1) members).flatMap (·.2.ids) ⊆
          (Slots.ofList (Value.memberIds (number + 1) members)).flatMap (·.2.ids) ↔
        (members.map fun member => member.key.text).Nodup
      rw [← Value.keys_memberIds (number + 1) members]
      refine ⟨Value.nodup_keys_of_subset, fun hnodup => ?_⟩
      rw [Slots.ofList_eq_self hnodup]
      exact List.Subset.refl _

namespace Descent

/-- The numbers that a node keeps: those of its items, or of the names and values of its
properties. -/
def Node.stored (node : Node) : List Nat :=
  match node.content with
  | .scalar _ => []
  | .array items => items
  | .object entries => entries.flatMap (·.2.ids)

namespace Parsed

/-- The number is that of the root, or a node that is reached keeps it. -/
inductive Reaches (parsed : Parsed) : Nat → Prop
  | root {id : Nat} (hroot : parsed.root = some id) : parsed.Reaches id
  | part {whole id : Nat} {node : Node} (hwhole : parsed.Reaches whole)
      (hnode : parsed.nodes[whole]? = some node) (hstored : id ∈ node.stored) :
      parsed.Reaches id

variable {body : Body}

theorem getElem?_of (body : Body) (id : Nat) :
    (Parsed.of body).nodes[id]? = (body.tree.get? id).map Node.ofPlace :=
  List.getElem?_map

theorem length_of (body : Body) : (Parsed.of body).nodes.length = body.tree.size :=
  List.length_map _

/-- A part is reached exactly if its container is reached and keeps it. -/
theorem reaches_part_iff {whole : Place} (hmem : whole ∈ body.tree.places) {id : Nat}
    (hpart : id ∈ whole.parts) :
    (Parsed.of body).Reaches id ↔ (Parsed.of body).Reaches whole.id ∧ id ∈ whole.stored := by
  have hwhole : (Parsed.of body).nodes[whole.id]? = some (Node.ofPlace whole) := by
    rw [getElem?_of, Tree.get?_of_mem hmem, Option.map_some]
  refine ⟨fun hreaches => ?_, fun ⟨hreaches, hstored⟩ => .part hreaches hwhole hstored⟩
  have hlt := Place.lt_of_mem_parts hpart
  cases hreaches with
  | root hroot =>
      -- the root is no part of anything
      obtain ⟨_, _, rfl⟩ := Option.map_eq_some_iff.mp hroot
      omega
  | part hother hnode hstored =>
      rw [getElem?_of] at hnode
      obtain ⟨other, hget, rfl⟩ := Option.map_eq_some_iff.mp hnode
      obtain rfl := Tree.id_of_get? hget
      have hotherMem : other ∈ body.tree.places := List.mem_of_getElem? hget
      have hsame : other.id = whole.id := by
        obtain ⟨value, hvalue⟩ := Place.exists_of_mem_parts hpart
        have hkept : id ∈ other.stored := hstored
        obtain ⟨value', hvalue'⟩ := Place.exists_of_mem_stored hkept
        have hfound := Tree.get?_of_mem (Tree.places_subset hmem hvalue)
        rw [Tree.get?_of_mem (Tree.places_subset hotherMem hvalue')] at hfound
        exact Option.some.inj (congrArg Place.parent (Option.some.inj hfound))
      rw [hsame, Tree.get?_of_mem hmem] at hget
      obtain rfl := Option.some.inj hget
      exact ⟨hother, hstored⟩

theorem reaches_of_keys_nodup (hkeys : ∀ place ∈ body.tree.places, place.keys.Nodup) {id : Nat}
    (hid : id < body.tree.size) : (Parsed.of body).Reaches id := by
  induction id using Nat.strong_induction_on with
  | _ id ih =>
      have hget : body.tree.get? id = some body.tree.places[id] := List.getElem?_eq_getElem hid
      have hmem : body.tree.places[id] ∈ body.tree.places := List.getElem_mem hid
      have hnumber := Tree.id_of_get? hget
      by_cases hroot : id = 0
      · obtain ⟨root, hvalue⟩ : ∃ root, body.root = some root := by
          refine Option.ne_none_iff_exists'.mp fun hnone => ?_
          simp [Tree.size, Tree.places, Body.tree, hnone] at hid
        refine .root ?_
        simp [Parsed.of, Tree.rootId?, Body.tree, hvalue, hroot]
      · obtain ⟨whole, hwhole, _, hpart⟩ := Tree.part_of_mem hmem (by rwa [hnumber])
        rw [hnumber] at hpart
        have hlt := Place.lt_of_mem_parts hpart
        exact (reaches_part_iff hwhole hpart).mpr
          ⟨ih whole.id hlt (hlt.trans hid), whole.parts_subset_stored_iff.mpr (hkeys whole hwhole)
            hpart⟩

theorem keys_nodup_of_reaches (hall : ∀ id < body.tree.size, (Parsed.of body).Reaches id)
    {place : Place} (hmem : place ∈ body.tree.places) : place.keys.Nodup := by
  refine place.parts_subset_stored_iff.mp fun id hpart => ?_
  obtain ⟨value, hvalue⟩ := Place.exists_of_mem_parts hpart
  have hget := Tree.get?_of_mem (Tree.places_subset hmem hvalue)
  have hreaches := hall id (List.getElem?_eq_some_iff.mp hget).1
  exact ((reaches_part_iff hmem hpart).mp hreaches).2

end Parsed

/-- A parse without a root has no nodes.  All nodes can be reached from the root, through the items
of arrays and the names and values of properties, exactly if no object repeats a key: nothing that
was cut off or could not be read is left behind. -/
theorem parse_reaches_iff (input : Input) (hsize : input.size < UInt32.size) :
    let body := input.options.parse input.source
    ∃ parsed, parse input = .ok parsed ∧ parsed.nodes = body.tree.places.map Node.ofPlace ∧
      (parsed.root = none → parsed.nodes = []) ∧
      ((∀ id < parsed.nodes.length, parsed.Reaches id) ↔
        ∀ place ∈ body.tree.places, place.keys.Nodup) := by
  intro body
  refine ⟨.of body, parse_eq input hsize, rfl, ?_, ?_⟩
  · intro hroot
    have hnone : body.tree.root = none := Option.map_eq_none_iff.mp hroot
    simp [Parsed.of, Tree.places, hnone]
  · rw [Parsed.length_of]
    exact ⟨fun hall _ hmem => Parsed.keys_nodup_of_reaches hall hmem,
      fun hkeys _ hid => Parsed.reaches_of_keys_nodup hkeys hid⟩

theorem parse_reaches_iff_of_cut_property :
    ∃ parsed, parse ⟨{}, "\x7b\"a\": [1, #, \x7b\"b\": \"c\", \"d\": tru"⟩ = .ok parsed ∧
      parsed.nodes.length = 7 ∧ ∀ id < parsed.nodes.length, parsed.Reaches id := by
  let input : Input := ⟨{}, "\x7b\"a\": [1, #, \x7b\"b\": \"c\", \"d\": tru"⟩
  have hsize : input.size < UInt32.size := by decide
  obtain ⟨parsed, hparse, hnodes, _, hreaches⟩ := parse_reaches_iff input hsize
  have hlength : (input.options.parse input.source).tree.places.length = 7 := by decide +kernel
  have hkeys : ((input.options.parse input.source).tree.places.all fun place =>
      decide place.keys.Nodup) = true := by decide +kernel
  refine ⟨parsed, hparse, ?_, hreaches.mpr (by simpa using hkeys)⟩
  rw [hnodes, List.length_map, hlength]

end Descent
end QueryBody
