import QueryBody.Proofs.Meaning
import QueryBody.Value.Tree
import Mathlib.Tactic

/-!
# Numbers of places

The places of a value have the numbers from the first one on, without a gap.  A number
that a container keeps is that of a place with this container, and no other container
keeps it.
-/

namespace QueryBody

/-- The numbers that an object keeps for a property. -/
def Entry.ids (entry : Entry) : List Nat := entry.name :: entry.value.toList

namespace Place

/-- The numbers that a place keeps: those of its items, or of the names and values of its
properties.  A property that a later one with the same key replaced is not among them. -/
def stored (place : Place) : List Nat :=
  match place.content with
  | .scalar _ => []
  | .array items => items
  | .object entries => entries.flatMap (·.2.ids)

/-- The numbers of the parts of a place, also those of a property that a later one with the same
key replaced. -/
def parts (place : Place) : List Nat :=
  match place.value with
  | .scalar _ _ => []
  | .array _ items => Value.itemIds (place.id + 1) items
  | .object _ members => (Value.memberIds (place.id + 1) members).flatMap (·.2.ids)

def IsContainer (place : Place) : Prop :=
  place.value.type = .array ∨ place.value.type = .object

theorem isContainer_of_mem_parts {place : Place} {id : Nat} (hmem : id ∈ place.parts) :
    place.IsContainer := by
  obtain ⟨number, parent, value⟩ := place
  cases value with
  | scalar token content => contradiction
  | array opener items => exact Or.inl rfl
  | object opener members => exact Or.inr rfl

end Place

namespace Value

theorem size_pos (value : Value) : 0 < value.size := by
  cases value <;> simp only [size] <;> omega

mutual

theorem map_id_places (parent : Option Nat) (id : Nat) :
    ∀ value : Value, (places parent id value).map Place.id = List.range' id value.size
  | scalar _ _ => rfl
  | array _ items => by
      rw [places, List.map_cons, map_id_itemPlaces id (id + 1) items, size, Nat.add_comm 1]
      rfl
  | object _ members => by
      rw [places, List.map_cons, map_id_memberPlaces id (id + 1) members, size, Nat.add_comm 1]
      rfl

theorem map_id_itemPlaces (parent next : Nat) :
    ∀ items : List Value,
      (itemPlaces parent next items).map Place.id = List.range' next (itemsSize items)
  | [] => rfl
  | item :: rest => by
      rw [itemPlaces, List.map_append, map_id_places (some parent) next item,
        map_id_itemPlaces parent (next + item.size) rest, itemsSize, List.range'_append_1]

theorem map_id_memberPlaces (parent next : Nat) :
    ∀ members : List Member,
      (memberPlaces parent next members).map Place.id = List.range' next (membersSize members)
  | [] => rfl
  | .bare _ :: rest => by
      rw [memberPlaces, List.map_cons, map_id_memberPlaces parent (next + 1) rest, membersSize,
        Nat.add_comm 1]
      rfl
  | .pair _ value :: rest => by
      rw [memberPlaces, List.cons_append, List.map_cons, List.map_append,
        map_id_places (some parent) (next + 1) value,
        map_id_memberPlaces parent (next + 1 + value.size) rest, List.range'_append_1, membersSize,
        Nat.add_assoc, Nat.add_comm 1]
      rfl

end

theorem id_of_mem_itemPlaces {parent next : Nat} {items : List Value} {place : Place}
    (hmem : place ∈ itemPlaces parent next items) : next ≤ place.id := by
  have hid : place.id ∈ (itemPlaces parent next items).map Place.id := List.mem_map_of_mem hmem
  rw [map_id_itemPlaces, List.mem_range'_1] at hid
  exact hid.1

theorem id_of_mem_memberPlaces {parent next : Nat} {members : List Member} {place : Place}
    (hmem : place ∈ memberPlaces parent next members) : next ≤ place.id := by
  have hid : place.id ∈ (memberPlaces parent next members).map Place.id :=
    List.mem_map_of_mem hmem
  rw [map_id_memberPlaces, List.mem_range'_1] at hid
  exact hid.1

theorem mem_places (parent : Option Nat) (id : Nat) (value : Value) :
    ⟨id, parent, value⟩ ∈ places parent id value := by
  cases value <;> exact List.mem_cons_self

/-! ### Places inside a place -/

mutual

/-- The places of a part are places of the whole. -/
theorem places_subset (parent : Option Nat) (id : Nat) :
    ∀ (value : Value) {part : Place}, part ∈ places parent id value →
      places part.parent part.id part.value ⊆ places parent id value
  | scalar _ _, part, hmem => by
      obtain rfl := List.mem_singleton.mp hmem
      exact List.Subset.refl _
  | array _ items, part, hmem => by
      rcases List.mem_cons.mp hmem with rfl | hitem
      · exact List.Subset.refl _
      · exact List.subset_cons_of_subset _ (itemPlaces_subset id (id + 1) items hitem)
  | object _ members, part, hmem => by
      rcases List.mem_cons.mp hmem with rfl | hmember
      · exact List.Subset.refl _
      · exact List.subset_cons_of_subset _ (memberPlaces_subset id (id + 1) members hmember)

theorem itemPlaces_subset (parent next : Nat) :
    ∀ (items : List Value) {part : Place}, part ∈ itemPlaces parent next items →
      places part.parent part.id part.value ⊆ itemPlaces parent next items
  | item :: rest, part, hmem => by
      rcases List.mem_append.mp hmem with hitem | hrest
      · exact List.subset_append_of_subset_left _ (places_subset (some parent) next item hitem)
      · exact List.subset_append_of_subset_right _
          (itemPlaces_subset parent (next + item.size) rest hrest)

theorem memberPlaces_subset (parent next : Nat) :
    ∀ (members : List Member) {part : Place}, part ∈ memberPlaces parent next members →
      places part.parent part.id part.value ⊆ memberPlaces parent next members
  | .bare key :: rest, part, hmem => by
      rcases List.mem_cons.mp hmem with rfl | hrest
      · exact List.cons_subset_cons _ (List.nil_subset _)
      · exact List.subset_cons_of_subset _ (memberPlaces_subset parent (next + 1) rest hrest)
  | .pair key value :: rest, part, hmem => by
      rcases List.mem_cons.mp hmem with rfl | hlater
      · exact List.cons_subset_cons _ (List.nil_subset _)
      · apply List.subset_cons_of_subset
        rcases List.mem_append.mp hlater with hvalue | hrest
        · exact List.subset_append_of_subset_left _
            (places_subset (some parent) (next + 1) value hvalue)
        · exact List.subset_append_of_subset_right _
            (memberPlaces_subset parent (next + 1 + value.size) rest hrest)

end

/-- A container before a place is the one that the place names. -/
def ContainedIn (places : List Place) (place : Place) : Prop :=
  ∃ container ∈ places, container.IsContainer ∧ place.parent = some container.id ∧
    container.id < place.id

/-- One of the places has the place as a part. -/
def PartIn (places : List Place) (place : Place) : Prop :=
  ∃ container ∈ places, place.parent = some container.id ∧ place.id ∈ container.parts

theorem PartIn.mono {first second : List Place} {place : Place} (hsubset : first ⊆ second)
    (hpart : PartIn first place) : PartIn second place := by
  obtain ⟨container, hmem, hcontainer⟩ := hpart
  exact ⟨container, hsubset hmem, hcontainer⟩

mutual

theorem part_of_mem_places (parent : Option Nat) (id : Nat) :
    ∀ (value : Value) {place : Place}, place ∈ places parent id value →
      place = ⟨id, parent, value⟩ ∨ PartIn (places parent id value) place
  | scalar _ _, place, hmem => Or.inl (List.mem_singleton.mp hmem)
  | array opener items, place, hmem => by
      rcases List.mem_cons.mp hmem with rfl | hitem
      · exact Or.inl rfl
      · right
        rcases part_of_mem_itemPlaces id (id + 1) items hitem with hown | hinner
        · exact ⟨_, List.mem_cons_self, hown⟩
        · exact hinner.mono (List.subset_cons_self _ _)
  | object opener members, place, hmem => by
      rcases List.mem_cons.mp hmem with rfl | hmember
      · exact Or.inl rfl
      · right
        rcases part_of_mem_memberPlaces id (id + 1) members hmember with hown | hinner
        · exact ⟨_, List.mem_cons_self, hown⟩
        · exact hinner.mono (List.subset_cons_self _ _)

theorem part_of_mem_itemPlaces (parent next : Nat) :
    ∀ (items : List Value) {place : Place}, place ∈ itemPlaces parent next items →
      (place.parent = some parent ∧ place.id ∈ itemIds next items) ∨
        PartIn (itemPlaces parent next items) place
  | item :: rest, place, hmem => by
      rcases List.mem_append.mp hmem with hitem | hrest
      · rcases part_of_mem_places (some parent) next item hitem with rfl | hinner
        · exact Or.inl ⟨rfl, List.mem_cons_self⟩
        · exact Or.inr (hinner.mono (List.subset_append_left _ _))
      · rcases part_of_mem_itemPlaces parent (next + item.size) rest hrest with
          ⟨hparent, hid⟩ | hinner
        · exact Or.inl ⟨hparent, List.mem_cons_of_mem next hid⟩
        · exact Or.inr (hinner.mono (List.subset_append_right _ _))

theorem part_of_mem_memberPlaces (parent next : Nat) :
    ∀ (members : List Member) {place : Place}, place ∈ memberPlaces parent next members →
      (place.parent = some parent ∧ place.id ∈ (memberIds next members).flatMap (·.2.ids)) ∨
        PartIn (memberPlaces parent next members) place
  | .bare key :: rest, place, hmem => by
      rcases List.mem_cons.mp hmem with rfl | hrest
      · exact Or.inl ⟨rfl, List.mem_cons_self⟩
      · rcases part_of_mem_memberPlaces parent (next + 1) rest hrest with ⟨hparent, hid⟩ | hinner
        · exact Or.inl ⟨hparent, List.mem_append_right _ hid⟩
        · exact Or.inr (hinner.mono (List.subset_cons_self _ _))
  | .pair key value :: rest, place, hmem => by
      rcases List.mem_cons.mp hmem with rfl | hlater
      · exact Or.inl ⟨rfl, List.mem_cons_self⟩
      rcases List.mem_append.mp hlater with hvalue | hrest
      · rcases part_of_mem_places (some parent) (next + 1) value hvalue with rfl | hinner
        · exact Or.inl ⟨rfl, List.mem_cons_of_mem _ List.mem_cons_self⟩
        · refine Or.inr (hinner.mono ?_)
          exact List.subset_cons_of_subset _ (List.subset_append_left _ _)
      · rcases part_of_mem_memberPlaces parent (next + 1 + value.size) rest hrest with
          ⟨hparent, hid⟩ | hinner
        · exact Or.inl ⟨hparent, List.mem_append_right _ hid⟩
        · refine Or.inr (hinner.mono ?_)
          exact List.subset_cons_of_subset _ (List.subset_append_right _ _)

end

/-! ### Numbers of parts -/

theorem mem_itemPlaces_of_mem_itemIds (parent : Nat) {next id : Nat} {items : List Value}
    (hmem : id ∈ itemIds next items) :
    ∃ item, ⟨id, some parent, item⟩ ∈ itemPlaces parent next items := by
  induction items generalizing next with
  | nil => contradiction
  | cons item rest ih =>
      rcases List.mem_cons.mp hmem with rfl | hrest
      · exact ⟨item, List.mem_append_left _ (mem_places _ _ item)⟩
      · obtain ⟨found, hfound⟩ := ih hrest
        exact ⟨found, List.mem_append_right _ hfound⟩

/-- The numbers of a property are those of its name and of its value. -/
theorem mem_memberPlaces_of_mem_memberIds (parent : Nat) {next : Nat} {members : List Member}
    {key : String} {entry : Entry} (hmem : (key, entry) ∈ memberIds next members) :
    (∃ token, ⟨entry.name, some parent, scalar token (.string key)⟩ ∈
        memberPlaces parent next members) ∧
      ∀ id, entry.value = some id →
        ∃ value, ⟨id, some parent, value⟩ ∈ memberPlaces parent next members := by
  induction members generalizing next with
  | nil => contradiction
  | cons member rest ih =>
      cases member with
      | bare name =>
          rcases List.mem_cons.mp hmem with hfirst | hrest
          · cases hfirst
            exact ⟨⟨name.token, List.mem_cons_self⟩, by simp⟩
          · obtain ⟨⟨token, hname⟩, hvalue⟩ := ih hrest
            refine ⟨⟨token, List.mem_cons_of_mem _ hname⟩, ?_⟩
            intro id hid
            obtain ⟨value, hfound⟩ := hvalue id hid
            exact ⟨value, List.mem_cons_of_mem _ hfound⟩
      | pair name value =>
          rcases List.mem_cons.mp hmem with hfirst | hrest
          · cases hfirst
            refine ⟨⟨name.token, List.mem_cons_self⟩, ?_⟩
            rintro id ⟨rfl⟩
            exact ⟨value, List.mem_cons_of_mem _ (List.mem_append_left _ (mem_places _ _ value))⟩
          · obtain ⟨⟨token, hname⟩, hvalue⟩ := ih hrest
            refine ⟨⟨token, List.mem_cons_of_mem _ (List.mem_append_right _ hname)⟩, ?_⟩
            intro id hid
            obtain ⟨found, hfound⟩ := hvalue id hid
            exact ⟨found, List.mem_cons_of_mem _ (List.mem_append_right _ hfound)⟩

theorem le_of_mem_itemIds {next id : Nat} {items : List Value} (hmem : id ∈ itemIds next items) :
    next ≤ id := by
  obtain ⟨item, hitem⟩ := mem_itemPlaces_of_mem_itemIds 0 hmem
  exact id_of_mem_itemPlaces hitem

theorem le_of_mem_memberIds {next id : Nat} {members : List Member} {slot : String × Entry}
    (hmem : slot ∈ memberIds next members) (hid : id ∈ slot.2.ids) : next ≤ id := by
  obtain ⟨⟨token, hname⟩, hvalue⟩ := mem_memberPlaces_of_mem_memberIds 0 hmem
  rcases List.mem_cons.mp hid with rfl | hsome
  · exact id_of_mem_memberPlaces hname
  · obtain ⟨value, hfound⟩ := hvalue id (by simpa using hsome)
    exact id_of_mem_memberPlaces hfound

theorem nodup_itemIds (next : Nat) (items : List Value) : (itemIds next items).Nodup := by
  induction items generalizing next with
  | nil => exact .nil
  | cons item rest ih =>
      refine List.nodup_cons.mpr ⟨?_, ih (next + item.size)⟩
      intro hmem
      have hle := le_of_mem_itemIds hmem
      have hpos := item.size_pos
      omega

/-- Different properties have different numbers. -/
theorem disjoint_memberIds (next : Nat) (members : List Member) :
    (memberIds next members).Pairwise fun first second => first.2.ids.Disjoint second.2.ids := by
  induction members generalizing next with
  | nil => exact .nil
  | cons member rest ih =>
      cases member with
      | bare name =>
          refine .cons ?_ (ih (next + 1))
          intro slot hslot id hfirst hsecond
          have hle := le_of_mem_memberIds hslot hsecond
          have hid : id = next := by simpa [Entry.ids] using hfirst
          omega
      | pair name value =>
          refine .cons ?_ (ih (next + 1 + value.size))
          intro slot hslot id hfirst hsecond
          have hle := le_of_mem_memberIds hslot hsecond
          have hid : id = next ∨ id = next + 1 := by simpa [Entry.ids] using hfirst
          have hpos := value.size_pos
          omega

theorem nodup_ids_of_mem_memberIds {next : Nat} {members : List Member} {slot : String × Entry}
    (hmem : slot ∈ memberIds next members) : slot.2.ids.Nodup := by
  induction members generalizing next with
  | nil => contradiction
  | cons member rest ih =>
      cases member with
      | bare name =>
          rcases List.mem_cons.mp hmem with rfl | hrest
          · simp [Entry.ids]
          · exact ih hrest
      | pair name value =>
          rcases List.mem_cons.mp hmem with rfl | hrest
          · simp [Entry.ids]
          · exact ih hrest

end Value

namespace Place

/-- Only some of an object's properties have a slot, and each of these has one. -/
theorem nodup_stored (place : Place) : place.stored.Nodup := by
  unfold stored content
  split
  next => exact .nil
  next items heq =>
    split at heq <;> cases heq
    exact Value.nodup_itemIds _ _
  next entries heq =>
    split at heq <;> cases heq
    rename_i opener members hvalue
    have hkeys := Slots.nodup_keys_ofList (Value.memberIds (place.id + 1) members)
    refine List.nodup_flatMap.mpr ⟨?_, ?_⟩
    · intro slot hslot
      exact Value.nodup_ids_of_mem_memberIds (Slots.mem_of_mem_ofList hslot)
    · rw [List.Nodup, List.pairwise_map] at hkeys
      refine hkeys.imp_of_mem ?_
      intro first second hfirst hsecond hne
      have hdisjoint := Value.disjoint_memberIds (place.id + 1) members
      have hsymm : Std.Symm fun first second : String × Entry =>
          first.2.ids.Disjoint second.2.ids := ⟨fun _ _ hapart => hapart.symm⟩
      exact hdisjoint.forall (Slots.mem_of_mem_ofList hfirst) (Slots.mem_of_mem_ofList hsecond)
        (fun hsame => hne (congrArg Prod.fst hsame))

theorem stored_subset_parts (place : Place) : place.stored ⊆ place.parts := by
  obtain ⟨number, parent, value⟩ := place
  cases value with
  | scalar token content => exact List.Subset.refl _
  | array opener items => exact List.Subset.refl _
  | object opener members =>
      intro id hmem
      obtain ⟨slot, hslot, hid⟩ := List.mem_flatMap.mp hmem
      exact List.mem_flatMap.mpr ⟨slot, Slots.mem_of_mem_ofList hslot, hid⟩

theorem lt_of_mem_parts {place : Place} {id : Nat} (hmem : id ∈ place.parts) : place.id < id := by
  obtain ⟨number, parent, value⟩ := place
  cases value with
  | scalar token content => contradiction
  | array opener items => exact Value.le_of_mem_itemIds hmem
  | object opener members =>
      obtain ⟨slot, hslot, hid⟩ := List.mem_flatMap.mp hmem
      exact Value.le_of_mem_memberIds hslot hid

/-- The number of a part is that of a place which names the whole. -/
theorem exists_of_mem_parts {place : Place} {id : Nat} (hmem : id ∈ place.parts) :
    ∃ value, ⟨id, some place.id, value⟩ ∈ Value.places place.parent place.id place.value := by
  obtain ⟨number, parent, value⟩ := place
  cases value with
  | scalar token content => contradiction
  | array opener items =>
      obtain ⟨item, hitem⟩ := Value.mem_itemPlaces_of_mem_itemIds number hmem
      exact ⟨item, List.mem_cons_of_mem _ hitem⟩
  | object opener members =>
      obtain ⟨slot, hslot, hid⟩ := List.mem_flatMap.mp hmem
      obtain ⟨⟨token, hname⟩, hvalue⟩ := Value.mem_memberPlaces_of_mem_memberIds number hslot
      rcases List.mem_cons.mp hid with rfl | hsome
      · exact ⟨_, List.mem_cons_of_mem _ hname⟩
      · obtain ⟨value, hfound⟩ := hvalue id (by simpa using hsome)
        exact ⟨value, List.mem_cons_of_mem _ hfound⟩

/-- The number that a place keeps is that of a place which it contains. -/
theorem exists_of_mem_stored {place : Place} {id : Nat} (hmem : id ∈ place.stored) :
    ∃ value, ⟨id, some place.id, value⟩ ∈ Value.places place.parent place.id place.value :=
  exists_of_mem_parts (place.stored_subset_parts hmem)

theorem exists_name {place : Place} {entries : List (String × Entry)} {key : String}
    {entry : Entry} (hcontent : place.content = .object entries) (hmem : (key, entry) ∈ entries) :
    ∃ token, ⟨entry.name, some place.id, .scalar token (.string key)⟩ ∈
      Value.places place.parent place.id place.value := by
  obtain ⟨number, parent, value⟩ := place
  cases value with
  | scalar token content => contradiction
  | array opener items => contradiction
  | object opener members =>
      cases hcontent
      obtain ⟨⟨token, hname⟩, _⟩ :=
        Value.mem_memberPlaces_of_mem_memberIds number (Slots.mem_of_mem_ofList hmem)
      exact ⟨token, List.mem_cons_of_mem _ hname⟩

end Place

namespace Tree

variable {tree : Tree}

theorem map_id_places (tree : Tree) : tree.places.map Place.id = List.range tree.size := by
  obtain ⟨root⟩ := tree
  cases root with
  | none => rfl
  | some value =>
      rw [List.range_eq_range', size, places, Value.map_id_places, Value.length_places]

theorem id_of_get? {id : Nat} {place : Place} (hget : tree.get? id = some place) :
    place.id = id := by
  have hid : (tree.places.map Place.id)[id]? = some place.id := by
    rw [List.getElem?_map]
    exact congrArg (Option.map Place.id) hget
  rw [map_id_places, List.getElem?_range] at hid
  · exact (Option.some.inj hid).symm
  · exact (List.getElem?_eq_some_iff.mp hget).1

theorem get?_of_mem {place : Place} (hmem : place ∈ tree.places) :
    tree.get? place.id = some place := by
  obtain ⟨index, hindex⟩ := List.mem_iff_getElem?.mp hmem
  have hid : place.id = index := id_of_get? hindex
  rw [hid]
  exact hindex

theorem places_subset {part : Place} (hmem : part ∈ tree.places) :
    Value.places part.parent part.id part.value ⊆ tree.places := by
  obtain ⟨root⟩ := tree
  cases root with
  | none => contradiction
  | some value => exact Value.places_subset none 0 value hmem

/-- Every place but the first is a part of another one. -/
theorem part_of_mem {place : Place} (hmem : place ∈ tree.places) (hinner : place.id ≠ 0) :
    Value.PartIn tree.places place := by
  obtain ⟨root⟩ := tree
  cases root with
  | none => contradiction
  | some value =>
      rcases Value.part_of_mem_places none 0 value hmem with rfl | hpart
      · exact absurd rfl hinner
      · exact hpart

theorem contained_of_mem {place : Place} (hmem : place ∈ tree.places) (hinner : place.id ≠ 0) :
    Value.ContainedIn tree.places place := by
  obtain ⟨container, hcontainer, hparent, hpart⟩ := part_of_mem hmem hinner
  exact ⟨container, hcontainer, Place.isContainer_of_mem_parts hpart, hparent,
    Place.lt_of_mem_parts hpart⟩

/-- No number is kept twice, neither by one container nor by two. -/
theorem nodup_stored (tree : Tree) : (tree.places.flatMap Place.stored).Nodup := by
  refine List.nodup_flatMap.mpr ⟨fun place _ => place.nodup_stored, ?_⟩
  have hnodup : (tree.places.map Place.id).Nodup := by
    rw [map_id_places]
    exact List.nodup_range
  rw [List.Nodup, List.pairwise_map] at hnodup
  refine hnodup.imp_of_mem ?_
  intro first second hfirst hsecond hne id hid hother
  -- a place has one container only
  obtain ⟨value, hvalue⟩ := Place.exists_of_mem_stored hid
  obtain ⟨other, hotherPlace⟩ := Place.exists_of_mem_stored hother
  have hget := get?_of_mem (places_subset hfirst hvalue)
  rw [get?_of_mem (places_subset hsecond hotherPlace)] at hget
  have hparents := congrArg Place.parent (Option.some.inj hget)
  exact hne (Option.some.inj hparents).symm

theorem parent_of_get?_zero {place : Place} (hget : tree.get? 0 = some place) :
    place.parent = none := by
  obtain ⟨root⟩ := tree
  cases root with
  | none => contradiction
  | some value => cases value <;> (cases hget; rfl)

/-- Climbing from a place leads to the root. -/
theorem getLast?_climb {id : Nat} (hmem : id < tree.size) {steps : Nat} (hsteps : id < steps) :
    (tree.climb steps (some id)).getLast? = some 0 := by
  induction id using Nat.strong_induction_on generalizing steps with
  | _ id ih =>
      obtain ⟨steps, rfl⟩ : ∃ fewer, steps = fewer + 1 := ⟨steps - 1, by omega⟩
      obtain ⟨place, hget⟩ : ∃ place, tree.get? id = some place :=
        ⟨_, List.getElem?_eq_getElem hmem⟩
      obtain rfl : place.id = id := id_of_get? hget
      rw [climb, hget, Option.bind_some, List.getLast?_cons]
      by_cases hroot : place.id = 0
      · have hparent : place.parent = none := parent_of_get?_zero (hroot ▸ hget)
        rw [hparent, hroot]
        cases steps <;> rfl
      · obtain ⟨container, hcontainer, _, hparent, hbefore⟩ :=
          contained_of_mem (List.mem_of_getElem? hget) hroot
        have hlast : (tree.climb steps (some container.id)).getLast? = some 0 := by
          have hsmall : container.id < tree.size :=
            (List.getElem?_eq_some_iff.mp (get?_of_mem hcontainer)).1
          apply ih container.id (by omega) hsmall
          omega
        rw [hparent, hlast]
        rfl

theorem getLast?_ancestors {place : Place} (hmem : place ∈ tree.places) (hinner : place.id ≠ 0) :
    (tree.ancestors place).getLast? = some 0 := by
  obtain ⟨container, hcontainer, _, hparent, hbefore⟩ := contained_of_mem hmem hinner
  rw [ancestors, hparent]
  exact getLast?_climb (List.getElem?_eq_some_iff.mp (get?_of_mem hcontainer)).1 hbefore

end Tree
end QueryBody
