import QueryBody.Body
import QueryBody.Proofs.PlacedData
import QueryBody.Proofs.Reachability
import Mathlib.Tactic

/-!
# Equal trees

Trees are equal if the same values stand at the same places, whatever the order of the
entries of their objects.  Then their roots say the same exactly if every object that is
reached has its keys in the same order in both.

A key whose property has been replaced is left in the tree as a string without a
container that leads to it, like a string that was the value of such a property.  So the
order of the keys can only differ where a property without a value has been replaced.
-/

namespace QueryBody

/-! ### Slots with the same entries -/

namespace Slots

variable {α : Type} {slots others : List (String × α)} {key : String} {entry : α}

theorem mem_of_find? (hfind : find? key slots = some entry) : (key, entry) ∈ slots := by
  induction slots with
  | nil => contradiction
  | cons slot rest ih =>
      unfold find? at hfind
      split at hfind
      next hkey =>
        cases hfind
        exact hkey ▸ List.mem_cons_self
      next => exact List.mem_cons_of_mem slot (ih hfind)

theorem find?_of_mem (hnodup : (slots.map Prod.fst).Nodup) (hmem : (key, entry) ∈ slots) :
    find? key slots = some entry := by
  induction slots with
  | nil => contradiction
  | cons slot rest ih =>
      obtain ⟨hfirst, hrest⟩ := List.nodup_cons.mp hnodup
      rcases List.mem_cons.mp hmem with rfl | hlater
      · exact if_pos rfl
      · have hother : slot.1 ≠ key := fun hsame =>
          hfirst (hsame ▸ List.mem_map_of_mem (f := Prod.fst) hlater)
        rw [find?, if_neg hother]
        exact ih hrest hlater

/-- As many slots hold the same entries for all keys if each of the ones is found in the others. -/
theorem find?_eq_of_all (hslots : (slots.map Prod.fst).Nodup)
    (hlength : slots.length = others.length)
    (hall : ∀ slot ∈ slots, find? slot.1 others = some slot.2) (key : String) :
    find? key slots = find? key others := by
  have hkeys : slots.map Prod.fst ⊆ others.map Prod.fst := by
    intro name hname
    obtain ⟨slot, hslot, rfl⟩ := List.mem_map.mp hname
    exact List.mem_map_of_mem (f := Prod.fst) (mem_of_find? (hall slot hslot))
  have hperm : (slots.map Prod.fst).Perm (others.map Prod.fst) :=
    (hslots.subperm hkeys).perm_of_length_le (by simp [hlength])
  cases hfound : find? key others with
  | some entry =>
      have hmem := List.mem_map_of_mem (f := Prod.fst) (mem_of_find? hfound)
      obtain ⟨slot, hslot, hkey⟩ := List.mem_map.mp (hperm.mem_iff.mpr hmem)
      have hsame := hall slot hslot
      change slot.1 = key at hkey
      rw [hkey, hfound] at hsame
      rw [Option.some.inj hsame]
      exact find?_of_mem hslots (hkey ▸ hslot)
  | none =>
      cases hheld : find? key slots with
      | none => rfl
      | some entry =>
          have hsame := hall _ (mem_of_find? hheld)
          rw [hfound] at hsame
          contradiction

theorem eq_of_keys_eq (hslots : (slots.map Prod.fst).Nodup)
    (hkeys : slots.map Prod.fst = others.map Prod.fst)
    (hfind : ∀ key, find? key slots = find? key others) : slots = others := by
  have hall : ∀ key, (find? key slots).map (fun entry => (key, entry)) =
      (find? key others).map fun entry => (key, entry) := fun key => by rw [hfind]
  calc
    slots = (slots.map Prod.fst).filterMap fun key =>
        (find? key slots).map fun entry => (key, entry) := (filterMap_find? hslots).symm
    _ = (others.map Prod.fst).filterMap fun key =>
        (find? key others).map fun entry => (key, entry) := by simp only [hkeys, hall]
    _ = others := filterMap_find? (hkeys ▸ hslots)

end Slots

/-! ### Properties that are told apart by their numbers -/

/-- No entry without a value is followed by one with the same key. -/
def KeepsEmpty (entries : List (String × Entry)) : Prop :=
  entries.Pairwise fun first second => first.2.value = none → first.1 ≠ second.1

theorem Entry.name_mem_ids {entries : List (String × Entry)} {slot : String × Entry}
    (hmem : slot ∈ entries) : slot.2.name ∈ entries.flatMap (·.2.ids) :=
  List.mem_flatMap.mpr ⟨slot, hmem, List.mem_cons_self⟩

theorem lookup_reverse_cons (key : String) (slot : String × Entry)
    (entries : List (String × Entry)) :
    (slot :: entries).reverse.lookup key =
      (entries.reverse.lookup key).or (if key = slot.1 then some slot.2 else none) := by
  rw [List.reverse_cons, List.lookup_append, List.lookup_cons, List.lookup_nil]
  by_cases hkey : key = slot.1
  · simp [hkey]
  · have hother : (key == slot.1) = false := by simpa using hkey
    simp [hkey, hother]

theorem mem_of_lookup_reverse {entries : List (String × Entry)} {key : String} {entry : Entry}
    (hlookup : entries.reverse.lookup key = some entry) : (key, entry) ∈ entries := by
  rw [← Slots.find?_ofList] at hlookup
  exact Slots.mem_of_mem_ofList (Slots.mem_of_find? hlookup)

variable {entries others : List (String × Entry)}

/-- What is left after a common first entry still agrees in the last entries. -/
theorem lookup_reverse_tail {slot : String × Entry}
    (hfirst : slot.2.name ∉ entries.flatMap (·.2.ids))
    (hsecond : slot.2.name ∉ others.flatMap (·.2.ids))
    (hlast : ∀ key, (slot :: entries).reverse.lookup key = (slot :: others).reverse.lookup key)
    (key : String) : entries.reverse.lookup key = others.reverse.lookup key := by
  have hsame := hlast key
  rw [lookup_reverse_cons, lookup_reverse_cons] at hsame
  by_cases hkey : key = slot.1
  · rw [if_pos hkey] at hsame
    cases hheld : entries.reverse.lookup key with
    | none =>
        rw [hheld, Option.none_or] at hsame
        cases hother : others.reverse.lookup key with
        | none => rfl
        | some entry =>
            rw [hother, Option.some_or] at hsame
            have hmem := Entry.name_mem_ids (mem_of_lookup_reverse hother)
            exact absurd (Option.some.inj hsame ▸ hmem) hsecond
    | some entry =>
        rw [hheld, Option.some_or] at hsame
        cases hother : others.reverse.lookup key with
        | none =>
            rw [hother, Option.none_or] at hsame
            have hmem := Entry.name_mem_ids (mem_of_lookup_reverse hheld)
            exact absurd (Option.some.inj hsame ▸ hmem) hfirst
        | some other =>
            rw [hother, Option.some_or] at hsame
            exact hsame
  · rwa [if_neg hkey, Option.or_none, Option.or_none] at hsame

/-- A property without a value that is kept cannot be taken for one with a value: the last entry
of its key would be another one. -/
theorem value_of_same_name {key : String} {name id : Nat}
    (hnodup : name ∉ others.flatMap (·.2.ids))
    (hkept : ∀ slot ∈ entries, key ≠ slot.1)
    (hlast : ((key, ⟨name, none⟩) :: entries).reverse.lookup key =
      ((key, ⟨name, some id⟩) :: others).reverse.lookup key) : False := by
  have hnone : entries.reverse.lookup key = none := by
    cases hheld : entries.reverse.lookup key with
    | none => rfl
    | some entry => exact absurd rfl (hkept _ (mem_of_lookup_reverse hheld))
  rw [lookup_reverse_cons, lookup_reverse_cons, hnone, if_pos rfl, if_pos rfl,
    Option.none_or] at hlast
  cases hother : others.reverse.lookup key with
  | none =>
      rw [hother, Option.none_or] at hlast
      simp at hlast
  | some entry =>
      rw [hother, Option.some_or] at hlast
      have hentry : ⟨name, none⟩ = entry := Option.some.inj hlast
      have hmem := Entry.name_mem_ids (mem_of_lookup_reverse hother)
      rw [← hentry] at hmem
      exact hnodup hmem

theorem name_not_mem_ids {slot : String × Entry}
    (hnodup : ((slot :: entries).flatMap (·.2.ids)).Nodup) :
    slot.2.name ∉ entries.flatMap (·.2.ids) := by
  simp only [List.flatMap_cons, Entry.ids, List.cons_append, List.nodup_cons, List.mem_append,
    not_or] at hnodup
  exact hnodup.1.2

theorem value_eq_of_same_name {key : String} {name : Nat} {value value' : Option Nat}
    (hids : ((key, ⟨name, value⟩) :: entries : List (String × Entry)).flatMap (·.2.ids) =
      ((key, ⟨name, value'⟩) :: others).flatMap (·.2.ids))
    (hfirst : name ∉ entries.flatMap (·.2.ids)) (hsecond : name ∉ others.flatMap (·.2.ids))
    (hkept : KeepsEmpty ((key, ⟨name, value⟩) :: entries))
    (hkept' : KeepsEmpty ((key, ⟨name, value'⟩) :: others))
    (hlast : ((key, ⟨name, value⟩) :: entries).reverse.lookup key =
      ((key, ⟨name, value'⟩) :: others).reverse.lookup key) : value = value' := by
  have hhere := (List.pairwise_cons.mp hkept).1
  have hhere' := (List.pairwise_cons.mp hkept').1
  cases value with
  | none =>
      cases value' with
      | none => rfl
      | some id =>
          exact (value_of_same_name hsecond (fun later hmem => hhere later hmem rfl) hlast).elim
  | some id =>
      cases value' with
      | none =>
          exact (value_of_same_name hfirst (fun later hmem => hhere' later hmem rfl)
            hlast.symm).elim
      | some id' => simpa [Entry.ids] using congrArg (fun ids => ids.tail.head?) hids

/-- Entries that keep the same numbers in the same order are the same, if their keys can be told
from the numbers of their names and the last entry of every key is the same. -/
theorem entries_eq_of_ids {text : Nat → String}
    (hids : entries.flatMap (·.2.ids) = others.flatMap (·.2.ids))
    (hnodup : (entries.flatMap (·.2.ids)).Nodup)
    (htext : ∀ slot ∈ entries, slot.1 = text slot.2.name)
    (hother : ∀ slot ∈ others, slot.1 = text slot.2.name)
    (hlast : ∀ key, entries.reverse.lookup key = others.reverse.lookup key)
    (hkept : KeepsEmpty entries) (hkept' : KeepsEmpty others) : entries = others := by
  -- the next number is a name, which tells the key; whether the number after it is the value or
  -- another name is only told by the last entry of the key
  induction entries generalizing others with
  | nil =>
      cases others with
      | nil => rfl
      | cons slot rest => simp [Entry.ids] at hids
  | cons slot rest ih =>
      cases others with
      | nil => simp [Entry.ids] at hids
      | cons slot' rest' =>
          obtain ⟨key, name, value⟩ := slot
          obtain ⟨key', name', value'⟩ := slot'
          have hname : name = name' := by
            simpa [Entry.ids] using congrArg List.head? hids
          subst hname
          have hkey : key = key' :=
            (htext _ List.mem_cons_self).trans (hother _ List.mem_cons_self).symm
          subst hkey
          have hfresh := name_not_mem_ids hnodup
          have hfresh' := name_not_mem_ids (hids ▸ hnodup)
          have hvalue : value = value' :=
            value_eq_of_same_name hids hfresh hfresh' hkept hkept' (hlast key)
          subst hvalue
          have hrest : rest.flatMap (·.2.ids) = rest'.flatMap (·.2.ids) := by
            simpa [Entry.ids] using hids
          have hnodupRest : (rest.flatMap (·.2.ids)).Nodup := by
            rw [List.flatMap_cons] at hnodup
            exact hnodup.of_append_right
          rw [ih hrest hnodupRest (fun later hmem => htext later (List.mem_cons_of_mem _ hmem))
            (fun later hmem => hother later (List.mem_cons_of_mem _ hmem))
            (lookup_reverse_tail hfresh hfresh' hlast) (List.pairwise_cons.mp hkept).2
            (List.pairwise_cons.mp hkept').2]

/-! ### The properties of an object -/

def Member.isBare : Member → Bool
  | bare _ => true
  | pair _ _ => false

namespace Place

/-- The properties of an object as they stand in the body. -/
def members (place : Place) : List Member :=
  match place.value with
  | .object _ members => members
  | _ => []

/-- No property without a value is replaced by a later one with the same key. -/
def KeepsEmpty (place : Place) : Prop :=
  place.members.Pairwise fun first second =>
    first.isBare = true → first.key.text ≠ second.key.text

instance (place : Place) : Decidable place.KeepsEmpty :=
  inferInstanceAs (Decidable (place.members.Pairwise fun first second =>
    first.isBare = true → first.key.text ≠ second.key.text))

/-- The keys of an object in the order of their slots. -/
def slotKeys (place : Place) : List String := (place.entries?.getD []).map Prod.fst

end Place

namespace Value

theorem keepsEmpty_memberIds {members : List Member}
    (hkept : members.Pairwise fun first second =>
      first.isBare = true → first.key.text ≠ second.key.text) (next : Nat) :
    QueryBody.KeepsEmpty (memberIds next members) := by
  induction members generalizing next with
  | nil => exact .nil
  | cons member rest ih =>
      obtain ⟨hhere, hrest⟩ := List.pairwise_cons.mp hkept
      have hkeys (later : Nat) (slot : String × Entry) (hslot : slot ∈ memberIds later rest) :
          ∃ other ∈ rest, other.key.text = slot.1 := by
        have hkey := List.mem_map_of_mem (f := Prod.fst) hslot
        rw [keys_memberIds] at hkey
        exact List.mem_map.mp hkey
      cases member with
      | bare key =>
          refine .cons ?_ (ih hrest (next + 1))
          intro slot hslot _
          obtain ⟨other, hmem, hother⟩ := hkeys _ slot hslot
          exact hother ▸ hhere other hmem rfl
      | pair key value =>
          refine .cons ?_ (ih hrest (next + 1 + value.size))
          intro slot _ hvalue
          contradiction

theorem pairwise_ids_memberIds (next : Nat) (members : List Member) :
    ((memberIds next members).flatMap (·.2.ids)).Pairwise (· < ·) := by
  induction members generalizing next with
  | nil => exact .nil
  | cons member rest ih =>
      have hlater (later id : Nat) (hid : id ∈ (memberIds later rest).flatMap (·.2.ids)) :
          later ≤ id := by
        obtain ⟨slot, hslot, hmem⟩ := List.mem_flatMap.mp hid
        exact le_of_mem_memberIds hslot hmem
      cases member with
      | bare key =>
          refine List.pairwise_cons.mpr ⟨?_, ih (next + 1)⟩
          intro id hid
          exact hlater _ id hid
      | pair key value =>
          have hpos := value.size_pos
          refine List.pairwise_cons.mpr ⟨?_, List.pairwise_cons.mpr ⟨?_, ih _⟩⟩
          · intro id hid
            change next < id
            rcases List.mem_cons.mp hid with rfl | hrest
            · exact Nat.lt_succ_self next
            · have hle := hlater _ id hrest
              omega
          · intro id hid
            have hle := hlater _ id hid
            omega

end Value

/-! ### Places of equal trees -/

namespace Tree

variable {tree first second : Tree} {id : Nat} {place other : Place}

theorem same_at (hsame : first.same second = true) (hget : first.get? id = some place)
    (hother : second.get? id = some other) : place.same other = true := by
  simp only [same, Bool.and_eq_true, List.all_eq_true] at hsame
  apply hsame.2 (place, other)
  refine List.mem_iff_getElem?.mpr ⟨id, ?_⟩
  rw [List.getElem?_zip_eq_some]
  exact ⟨hget, hother⟩

theorem size_eq_of_same (hsame : first.same second = true) : first.size = second.size := by
  simp only [same, Bool.and_eq_true, decide_eq_true_eq] at hsame
  exact hsame.1.2

theorem exists_get? (hid : id < tree.size) : ∃ place, tree.get? id = some place :=
  ⟨_, List.getElem?_eq_getElem hid⟩

theorem lt_size_of_get? (hget : tree.get? id = some place) : id < tree.size :=
  (List.getElem?_eq_some_iff.mp hget).1

theorem parent_eq_of_same (hsame : place.same other = true) : place.parent = other.parent := by
  simp only [Place.same, Bool.and_eq_true, decide_eq_true_eq] at hsame
  exact hsame.1.2

theorem content_same_of_same (hsame : place.same other = true) :
    place.content.same other.content = true := by
  simp only [Place.same, Bool.and_eq_true] at hsame
  exact hsame.2

theorem mem_parts_iff (hget : tree.get? id = some place) {part : Nat} :
    part ∈ place.parts ↔ ∃ inner, tree.get? part = some inner ∧ inner.parent = some id := by
  have hmem : place ∈ tree.places := List.mem_of_getElem? hget
  obtain rfl := id_of_get? hget
  constructor
  · intro hpart
    obtain ⟨value, hvalue⟩ := Place.exists_of_mem_parts hpart
    exact ⟨_, get?_of_mem (places_subset hmem hvalue), rfl⟩
  · rintro ⟨inner, hinner, hparent⟩
    have hnumber := id_of_get? hinner
    have hroot : inner.id ≠ 0 := by
      intro hzero
      have hnone := parent_of_get?_zero (hzero ▸ hnumber ▸ hinner)
      rw [hnone] at hparent
      contradiction
    obtain ⟨container, hcontainer, hname, hpart⟩ := part_of_mem (List.mem_of_getElem? hinner) hroot
    have hsame : container.id = place.id := Option.some.inj (hname.symm.trans hparent)
    have hfound := get?_of_mem hcontainer
    rw [hsame, hget] at hfound
    rw [Option.some.inj hfound, ← hnumber]
    exact hpart

/-- Objects at the same place of equal trees keep the same numbers, with those of replaced
properties. -/
theorem parts_eq_of_same (hsame : first.same second = true) (hget : first.get? id = some place)
    (hother : second.get? id = some other) (hparts : place.parts.Pairwise (· < ·))
    (hparts' : other.parts.Pairwise (· < ·)) : place.parts = other.parts := by
  refine hparts.eq_of_mem_iff hparts' fun part => ?_
  rw [mem_parts_iff hget, mem_parts_iff hother]
  constructor
  · rintro ⟨inner, hinner, hparent⟩
    obtain ⟨found, hfound⟩ := exists_get? (size_eq_of_same hsame ▸ lt_size_of_get? hinner)
    exact ⟨found, hfound, parent_eq_of_same (same_at hsame hinner hfound) ▸ hparent⟩
  · rintro ⟨inner, hinner, hparent⟩
    obtain ⟨found, hfound⟩ := exists_get? ((size_eq_of_same hsame).symm ▸ lt_size_of_get? hinner)
    exact ⟨found, hfound, parent_eq_of_same (same_at hsame hfound hinner) ▸ hparent⟩

/-- The string at a number. -/
def textAt (tree : Tree) (id : Nat) : String :=
  match (tree.get? id).map Place.content with
  | some (.scalar (.string text)) => text
  | _ => ""

theorem textAt_eq {text : String} (hget : tree.get? id = some place)
    (hcontent : place.content = .scalar (.string text)) : tree.textAt id = text := by
  rw [textAt, hget, Option.map_some, hcontent]

theorem exists_name {opener : Token} {members : List Member} (hget : tree.get? id = some place)
    (hvalue : place.value = .object opener members) {slot : String × Entry}
    (hslot : slot ∈ Value.memberIds (id + 1) members) :
    ∃ name, tree.get? slot.2.name = some name ∧ name.content = .scalar (.string slot.1) := by
  have hsubset := places_subset (List.mem_of_getElem? hget)
  rw [id_of_get? hget, hvalue] at hsubset
  obtain ⟨⟨token, hname⟩, _⟩ := Value.mem_memberPlaces_of_mem_memberIds id hslot
  exact ⟨_, get?_of_mem (hsubset (List.mem_cons_of_mem _ hname)), rfl⟩

theorem string_of_same {content : Content} {text : String}
    (hsame : content.same (.scalar (.string text)) = true) : content = .scalar (.string text) := by
  cases content with
  | scalar found =>
      cases found with
      | string found => simpa [Content.same, Scalar.same] using hsame
      | null | bool _ | number _ | parameter _ => simp [Content.same, Scalar.same] at hsame
  | array items => contradiction
  | object entries => contradiction

theorem key_eq_textAt {opener : Token} {members : List Member} (hget : tree.get? id = some place)
    (hvalue : place.value = .object opener members) {slot : String × Entry}
    (hslot : slot ∈ Value.memberIds (id + 1) members) : slot.1 = tree.textAt slot.2.name := by
  obtain ⟨name, hfound, hstring⟩ := exists_name hget hvalue hslot
  exact (textAt_eq hfound hstring).symm

theorem key_eq_textAt_of_same (hsame : first.same second = true) {opener : Token}
    {members : List Member} (hget : second.get? id = some place)
    (hvalue : place.value = .object opener members) {slot : String × Entry}
    (hslot : slot ∈ Value.memberIds (id + 1) members) : slot.1 = first.textAt slot.2.name := by
  obtain ⟨name, hfound, hstring⟩ := exists_name hget hvalue hslot
  obtain ⟨name', hfound'⟩ := exists_get? ((size_eq_of_same hsame).symm ▸ lt_size_of_get? hfound)
  have hstrings := content_same_of_same (same_at hsame hfound' hfound)
  rw [hstring] at hstrings
  exact (textAt_eq hfound' (string_of_same hstrings)).symm

theorem nodup_keys_of_content {entries : List (String × Entry)}
    (hcontent : place.content = .object entries) : (entries.map Prod.fst).Nodup := by
  obtain ⟨id, parent, value⟩ := place
  cases value with
  | scalar token content => contradiction
  | array opener items => contradiction
  | object opener members =>
      cases hcontent
      exact Slots.nodup_keys_ofList _

theorem find?_eq_of_same {entries entries' : List (String × Entry)}
    (hnodup : (entries.map Prod.fst).Nodup)
    (hsame : (Content.object entries).same (.object entries') = true) (key : String) :
    Slots.find? key entries = Slots.find? key entries' := by
  simp only [Content.same, Bool.and_eq_true, decide_eq_true_eq, List.all_eq_true] at hsame
  exact Slots.find?_eq_of_all hnodup hsame.1 hsame.2 key

/-- Where no property without a value is replaced, equal trees have their properties in the same
order. -/
theorem slotKeys_eq_of_keepsEmpty (hsame : first.same second = true)
    (hget : first.get? id = some place) (hother : second.get? id = some other)
    (hkept : place.KeepsEmpty) (hkept' : other.KeepsEmpty) : place.slotKeys = other.slotKeys := by
  have hplaces := same_at hsame hget hother
  have hcontent := content_same_of_same hplaces
  have hparts := parts_eq_of_same hsame hget hother
  obtain rfl := id_of_get? hget
  have hid := id_of_get? hother
  obtain ⟨id, parent, value⟩ := place
  obtain ⟨id', parent', value'⟩ := other
  change id' = id at hid
  subst hid
  cases value with
  | scalar token content => cases value' <;> first | rfl | contradiction
  | array opener items => cases value' <;> first | rfl | contradiction
  | object opener members =>
      cases value' with
      | scalar token content => contradiction
      | array opener items => contradiction
      | object opener' members' =>
          have hids := hparts (Value.pairwise_ids_memberIds _ members)
            (Value.pairwise_ids_memberIds _ members')
          have hlast (key : String) :
              (Value.memberIds (id' + 1) members).reverse.lookup key =
                (Value.memberIds (id' + 1) members').reverse.lookup key := by
            rw [← Slots.find?_ofList, ← Slots.find?_ofList]
            exact find?_eq_of_same (Slots.nodup_keys_ofList _) hcontent key
          have htext : ∀ slot ∈ Value.memberIds (id' + 1) members,
              slot.1 = first.textAt slot.2.name :=
            fun slot hslot => key_eq_textAt hget rfl hslot
          have htext' : ∀ slot ∈ Value.memberIds (id' + 1) members',
              slot.1 = first.textAt slot.2.name :=
            fun slot hslot => key_eq_textAt_of_same hsame hother rfl hslot
          have hentries := entries_eq_of_ids hids
            ((Value.pairwise_ids_memberIds _ members).imp Nat.ne_of_lt) htext htext' hlast
            (Value.keepsEmpty_memberIds hkept _) (Value.keepsEmpty_memberIds hkept' _)
          change (Slots.ofList (Value.memberIds (id' + 1) members)).map Prod.fst =
            (Slots.ofList (Value.memberIds (id' + 1) members')).map Prod.fst
          rw [hentries]

/-! ### The same data at a number -/

/-- What the trees say at the number is the same, with the same order of slots. -/
def SameAt (first second : Tree) (id : Nat) : Prop :=
  ∀ datum other, first.Says id datum → second.Says id other → datum.same other = true

theorem Says.unique {datum datum' : Datum} (hsaid : tree.Says id datum)
    (hsaid' : tree.Says id datum') : datum = datum' := by
  obtain ⟨place, hget, rfl⟩ := hsaid
  obtain ⟨place', hget', rfl⟩ := hsaid'
  rw [hget] at hget'
  rw [Option.some.inj hget']

theorem sameAt_of_said {datum datum' : Datum} (hsaid : first.Says id datum)
    (hsaid' : second.Says id datum') : SameAt first second id ↔ datum.same datum' = true := by
  refine ⟨fun hat => hat datum datum' hsaid hsaid', fun hsame found found' hfound hfound' => ?_⟩
  rw [hfound.unique hsaid, hfound'.unique hsaid']
  exact hsame

theorem sameItems_iff {ids : List Nat} {items items' : List Datum}
    (hitems : List.Forall₂ first.Says ids items) (hitems' : List.Forall₂ second.Says ids items') :
    Datum.sameItems items items' = true ↔ ∀ id ∈ ids, SameAt first second id := by
  induction hitems generalizing items' with
  | nil =>
      cases hitems'
      simp [Datum.sameItems]
  | cons hitem _ ih =>
      cases hitems' with
      | cons hitem' hrest' =>
          rw [Datum.sameItems, Bool.and_eq_true, ih hrest', List.forall_mem_cons,
            sameAt_of_said hitem hitem']

theorem keys_eq_of_said {entries : List (String × Entry)} {slots : List (String × Option Datum)}
    (hslots : List.Forall₂ tree.SaysSlot entries slots) :
    entries.map Prod.fst = slots.map Prod.fst := by
  induction hslots with
  | nil => rfl
  | cons hslot _ ih => rw [List.map_cons, List.map_cons, hslot.1, ih]

theorem keys_eq_of_sameSlots {slots slots' : List (String × Option Datum)}
    (hsame : Datum.sameSlots slots slots' = true) : slots.map Prod.fst = slots'.map Prod.fst := by
  induction slots generalizing slots' with
  | nil =>
      cases slots' with
      | nil => rfl
      | cons slot' rest' => simp [Datum.sameSlots] at hsame
  | cons slot rest ih =>
      obtain ⟨key, held⟩ := slot
      cases slots' with
      | nil => cases held <;> simp [Datum.sameSlots] at hsame
      | cons slot' rest' =>
          obtain ⟨key', held'⟩ := slot'
          cases held <;> cases held' <;>
            simp only [Datum.sameSlots, Bool.and_eq_true, beq_iff_eq, Bool.false_eq_true] at hsame
          · rw [List.map_cons, List.map_cons, hsame.1, ih hsame.2]
          · rw [List.map_cons, List.map_cons, hsame.1.1, ih hsame.2]

theorem sameSlots_iff {entries : List (String × Entry)}
    {slots slots' : List (String × Option Datum)}
    (hslots : List.Forall₂ first.SaysSlot entries slots)
    (hslots' : List.Forall₂ second.SaysSlot entries slots') :
    Datum.sameSlots slots slots' = true ↔
      ∀ id ∈ entries.filterMap (·.2.value), SameAt first second id := by
  induction hslots generalizing slots' with
  | nil =>
      cases hslots'
      simp [Datum.sameSlots]
  | @cons entry slot _ _ hslot _ ih =>
      cases hslots' with
      | @cons _ slot' _ _ hslot' hrest' =>
          obtain ⟨key, name, value⟩ := entry
          obtain ⟨slotKey, held⟩ := slot
          obtain ⟨slotKey', held'⟩ := slot'
          obtain ⟨hkey, hvalue⟩ := hslot
          obtain ⟨hkey', hvalue'⟩ := hslot'
          change key = slotKey at hkey
          change key = slotKey' at hkey'
          subst hkey hkey'
          cases hvalue with
          | none =>
              cases hvalue'
              simp [Datum.sameSlots, ih hrest']
          | some hdatum =>
              cases hvalue' with
              | some hdatum' =>
                  simp [Datum.sameSlots, ih hrest', sameAt_of_said hdatum hdatum']

/-- Equal trees say the same at a number exactly if the object there, if there is one, has its
keys in the same order in both, and they say the same at its children. -/
theorem sameAt_iff (hsame : first.same second = true) (hget : first.get? id = some place)
    (hother : second.get? id = some other) :
    SameAt first second id ↔
      place.slotKeys = other.slotKeys ∧ ∀ child ∈ place.children, SameAt first second child := by
  have hcontent := content_same_of_same (same_at hsame hget hother)
  have hread := saysBy_of_mem (List.mem_of_getElem? hget)
  have hread' := saysBy_of_mem (List.mem_of_getElem? hother)
  have hsaid : first.Says id place.value.datum := ⟨place, hget, rfl⟩
  have hsaid' : second.Says id other.value.datum := ⟨other, hother, rfl⟩
  have hnodup (entries : List (String × Entry)) (hobject : place.content = .object entries) :
      (entries.map Prod.fst).Nodup := nodup_keys_of_content hobject
  rw [sameAt_of_said hsaid hsaid', Place.slotKeys, Place.slotKeys, Place.entries?, Place.entries?,
    Place.children]
  generalize place.value.datum = datum at hread
  generalize other.value.datum = datum' at hread'
  generalize place.content = content at hread hcontent hnodup
  generalize other.content = content' at hread' hcontent
  cases hread with
  | scalar content =>
      cases hread' with
      | scalar content' => exact iff_of_true hcontent ⟨rfl, by simp⟩
      | array _ => contradiction
      | object _ => contradiction
  | array hitems =>
      cases hread' with
      | scalar content' => contradiction
      | array hitems' =>
          have hids := of_decide_eq_true hcontent
          subst hids
          simp [Datum.same, sameItems_iff hitems hitems']
      | object _ => contradiction
  | @object entries slots hslots =>
      cases hread' with
      | scalar content' => contradiction
      | array _ => contradiction
      | @object entries' slots' hslots' =>
          have hentries (hkeys : entries.map Prod.fst = entries'.map Prod.fst) :
              entries = entries' :=
            Slots.eq_of_keys_eq (hnodup entries rfl) hkeys
              (find?_eq_of_same (hnodup entries rfl) hcontent)
          rw [Datum.same]
          constructor
          · intro hslotsSame
            have hkeys : entries.map Prod.fst = entries'.map Prod.fst := by
              rw [keys_eq_of_said hslots, keys_eq_of_said hslots', keys_eq_of_sameSlots hslotsSame]
            refine ⟨hkeys, ?_⟩
            obtain rfl := hentries hkeys
            exact (sameSlots_iff hslots hslots').mp hslotsSame
          · rintro ⟨hkeys, hchildren⟩
            obtain rfl := hentries hkeys
            exact (sameSlots_iff hslots hslots').mpr hchildren

/-! ### Numbers that are reached -/

/-- The number is that of the root, or of a child of a place that is reached. -/
inductive LeadsTo (tree : Tree) : Nat → Prop
  | root {id : Nat} (hroot : tree.rootId? = some id) : LeadsTo tree id
  | child {whole id : Nat} {place : Place} (hwhole : LeadsTo tree whole)
      (hget : tree.get? whole = some place) (hchild : id ∈ place.children) : LeadsTo tree id

/-- The objects that are reached have their keys in the same order. -/
def KeepsOrder (first second : Tree) : Prop :=
  ∀ id, first.LeadsTo id → ∀ place other, first.get? id = some place →
    second.get? id = some other → place.slotKeys = other.slotKeys

theorem exists_get?_of_same (hsame : first.same second = true) (hget : first.get? id = some place) :
    ∃ other, second.get? id = some other :=
  exists_get? (size_eq_of_same hsame ▸ lt_size_of_get? hget)

theorem sameAt_root_iff (hsame : first.same second = true) {root : Nat}
    (hroot : first.rootId? = some root) : SameAt first second root ↔ KeepsOrder first second := by
  constructor
  · intro hat id hleads place other hget hother
    have hid : SameAt first second id := by
      clear hget hother
      induction hleads with
      | root hroot' =>
          rw [hroot] at hroot'
          exact Option.some.inj hroot' ▸ hat
      | child _ hwhole hchild ih =>
          obtain ⟨found, hfound⟩ := exists_get?_of_same hsame hwhole
          exact ((sameAt_iff hsame hwhole hfound).mp ih).2 _ hchild
    exact ((sameAt_iff hsame hget hother).mp hid).1
  · intro hkeeps
    -- children have greater numbers than their containers, so the distance to the end decreases
    have hall (room : Nat) : ∀ id, first.size ≤ id + room → first.LeadsTo id →
        SameAt first second id := by
      induction room with
      | zero =>
          rintro id hroom _ datum _ ⟨place, hget, _⟩ _
          have hlt := lt_size_of_get? hget
          omega
      | succ room ih =>
          intro id hroom hleads
          cases hget : first.get? id with
          | none =>
              rintro datum _ ⟨place, hplace, _⟩ _
              rw [hget] at hplace
              contradiction
          | some place =>
              obtain ⟨other, hother⟩ := exists_get?_of_same hsame hget
              refine (sameAt_iff hsame hget hother).mpr
                ⟨hkeeps id hleads place other hget hother, fun child hchild => ?_⟩
              have hlt := Place.lt_of_mem_children hchild
              rw [id_of_get? hget] at hlt
              exact ih child (by omega) (.child hleads hget hchild)
    exact hall first.size root (Nat.le_add_left _ _) (.root hroot)

theorem says_root {value : Value} (hroot : tree.root = some value) : tree.Says 0 value.datum := by
  have hmem : (⟨0, none, value⟩ : Place) ∈ tree.places := by
    rw [places, hroot]
    exact Value.mem_places none 0 value
  exact says_of_mem hmem

end Tree

/-- The roots of equal trees say the same exactly if the objects that are reached have their keys
in the same order in both trees.  They do if no property without a value is replaced by a later
one in either tree. -/
theorem datum_same_iff_of_same {options others : Options} {source other : String}
    (hsame : (options.parse source).tree.same (others.parse other).tree = true)
    {first second : Value} (hfirst : (options.parse source).root = some first)
    (hsecond : (others.parse other).root = some second) :
    (first.datum.same second.datum = true ↔
        (options.parse source).tree.KeepsOrder (others.parse other).tree) ∧
      ((∀ place ∈ (options.parse source).tree.places, place.KeepsEmpty) →
        (∀ place ∈ (others.parse other).tree.places, place.KeepsEmpty) →
          first.datum.same second.datum = true) := by
  have hroot : (options.parse source).tree.rootId? = some 0 := by
    rw [Tree.rootId?, Body.tree, hfirst, Option.map_some]
  have hsaid : (options.parse source).tree.Says 0 first.datum := Tree.says_root hfirst
  have hsaid' : (others.parse other).tree.Says 0 second.datum := Tree.says_root hsecond
  have hiff : first.datum.same second.datum = true ↔
      (options.parse source).tree.KeepsOrder (others.parse other).tree :=
    (Tree.sameAt_of_said hsaid hsaid').symm.trans (Tree.sameAt_root_iff hsame hroot)
  refine ⟨hiff, fun hkept hkept' => hiff.mpr ?_⟩
  intro id _ place found hget hother
  exact Tree.slotKeys_eq_of_keepsEmpty hsame hget hother (hkept place (List.mem_of_getElem? hget))
    (hkept' found (List.mem_of_getElem? hother))

/-- A property is replaced that has a value, and one without a value is kept.  The second body lacks
a colon, and it is cut off. -/
theorem datum_same_iff_of_same_cut_object :
    let body := Options.group.parse "\x7b\"a\":1,\"b\",\"a\":2\x7d"
    let cut := ({} : Options).parse "\x7b\"a\" 1,\"b\",\"a\":2 "
    body.tree.same cut.tree = true ∧
      ∃ first second, body.root = some first ∧ cut.root = some second ∧
        first.datum.same second.datum = true := by
  intro body cut
  have hsame : body.tree.same cut.tree = true := by decide +kernel
  have hroots : body.root.isSome = true ∧ cut.root.isSome = true := by
    constructor <;> decide +kernel
  obtain ⟨first, hfirst⟩ := Option.isSome_iff_exists.mp hroots.1
  obtain ⟨second, hsecond⟩ := Option.isSome_iff_exists.mp hroots.2
  have hkept : (body.tree.places.all fun place => decide place.KeepsEmpty) = true := by decide +kernel
  have hkept' : (cut.tree.places.all fun place => decide place.KeepsEmpty) = true := by decide +kernel
  exact ⟨hsame, first, second, hfirst, hsecond,
    (datum_same_iff_of_same hsame hfirst hsecond).2 (by simpa using hkept) (by simpa using hkept')⟩

/-- What is the value of a replaced property in the one body is the name of another replaced
property in the other: their trees are equal, but the key has its slot in another place. -/
theorem not_datum_same_of_replaced_names :
    let body := Options.group.parse "\x7b\"x\":\"a\",\"b\":1,\"a\":2,\"x\":3\x7d"
    let other := Options.group.parse "\x7b\"x\",\"a\",\"b\":1,\"a\":2,\"x\":3\x7d"
    body.tree.same other.tree = true ∧
      ∃ first second, body.root = some first ∧ other.root = some second ∧
        first.datum.same second.datum = false := by
  intro body other
  have hsame : body.tree.same other.tree = true := by decide +kernel
  have hdata : (body.root.bind fun first => other.root.map fun second =>
      first.datum.same second.datum) = some false := by decide +kernel
  obtain ⟨first, hfirst, hmap⟩ := Option.bind_eq_some_iff.mp hdata
  obtain ⟨second, hsecond, hdiffer⟩ := Option.map_eq_some_iff.mp hmap
  exact ⟨hsame, first, second, hfirst, hsecond, hdiffer⟩

end QueryBody
