import QueryBody.Datum.Basic
import Mathlib.Tactic

/-!
# What a value denotes

An object denotes its keys in the order in which they first occur, each with the
value of its last occurrence.  Here this is said directly, without the slots that
are filled one after the other, and both readings of a value agree.
-/

namespace QueryBody
namespace Slots

variable {α : Type}

/-- The keys of entries in the order of their first occurrence, each with its last entry. -/
def resolved (entries : List (String × α)) : List (String × α) :=
  (entries.map Prod.fst).eraseDups.filterMap fun key =>
    (entries.reverse.lookup key).map fun entry => (key, entry)

theorem ofList_append_singleton (entries : List (String × α)) (entry : String × α) :
    ofList (entries ++ [entry]) = insert entry.1 entry.2 (ofList entries) := by
  simp [ofList]

theorem nodup_keys_insert {slots : List (String × α)}
    (hnodup : (slots.map Prod.fst).Nodup) (key : String) (entry : α) :
    ((insert key entry slots).map Prod.fst).Nodup := by
  rw [keys_insert]
  split
  · exact hnodup
  next hnew =>
    rw [List.nodup_append]
    refine ⟨hnodup, List.nodup_singleton key, ?_⟩
    intro old hold other hother hsame
    rw [List.mem_singleton] at hother
    subst hother hsame
    exact hnew hold

theorem nodup_keys_ofList (entries : List (String × α)) :
    ((ofList entries).map Prod.fst).Nodup := by
  induction entries using List.reverseRecOn with
  | nil => simp [ofList]
  | append_singleton entries entry ih =>
      rw [ofList_append_singleton]
      exact nodup_keys_insert ih entry.1 entry.2

theorem keys_ofList (entries : List (String × α)) :
    (ofList entries).map Prod.fst = (entries.map Prod.fst).eraseDups := by
  induction entries using List.reverseRecOn with
  | nil => rfl
  | append_singleton entries entry ih =>
      have hmem : entry.1 ∈ (entries.map Prod.fst).eraseDups ↔
          entry.1 ∈ entries.map Prod.fst := List.mem_eraseDups
      rw [ofList_append_singleton, keys_insert, ih, List.map_append, List.map_singleton,
        List.eraseDups_append]
      by_cases hold : entry.1 ∈ entries.map Prod.fst
      · have hremoved : [entry.1].removeAll (entries.map Prod.fst) = [] := by
          simpa [List.removeAll] using hold
        rw [if_pos (hmem.mpr hold), hremoved]
        simp
      · have hremoved : [entry.1].removeAll (entries.map Prod.fst) = [entry.1] := by
          simpa [List.removeAll] using hold
        rw [if_neg (mt hmem.mp hold), hremoved]
        rfl

theorem find?_ofList (key : String) (entries : List (String × α)) :
    find? key (ofList entries) = entries.reverse.lookup key := by
  induction entries using List.reverseRecOn with
  | nil => rfl
  | append_singleton entries entry ih =>
      obtain ⟨latest, value⟩ := entry
      rw [ofList_append_singleton, find?_insert, ih, List.reverse_append]
      by_cases hsame : latest = key
      · subst key
        simp
      · have hother : (key == latest) = false := by
          simpa using fun heq : key = latest => hsame heq.symm
        simp [List.lookup_cons, hsame, hother]

/-- Slots without repeated keys are given by their keys and what is found for them. -/
theorem filterMap_find? {slots : List (String × α)} (hnodup : (slots.map Prod.fst).Nodup) :
    ((slots.map Prod.fst).filterMap fun key =>
      (find? key slots).map fun entry => (key, entry)) = slots := by
  induction slots with
  | nil => rfl
  | cons slot rest ih =>
      have hparts := List.nodup_cons.mp hnodup
      have hrest : ∀ key ∈ rest.map Prod.fst, find? key (slot :: rest) = find? key rest := by
        intro key hkey
        have hother : slot.1 ≠ key := by
          intro heq
          exact hparts.1 (heq ▸ hkey)
        simp [find?, hother]
      have htail :
          ((rest.map Prod.fst).filterMap fun key =>
            (find? key (slot :: rest)).map fun entry => (key, entry)) = rest := by
        rw [List.filterMap_congr fun key hkey => by rw [hrest key hkey]]
        exact ih hparts.2
      rw [List.map_cons, List.filterMap_cons, htail]
      simp [find?]

theorem ofList_eq_resolved (entries : List (String × α)) : ofList entries = resolved entries := by
  rw [resolved, ← keys_ofList]
  simp only [← find?_ofList]
  exact (filterMap_find? (nodup_keys_ofList entries)).symm

theorem ofList_eq_self {slots : List (String × α)} (hnodup : (slots.map Prod.fst).Nodup) :
    ofList slots = slots := by
  induction slots using List.reverseRecOn with
  | nil => rfl
  | append_singleton slots slot ih =>
      rw [List.map_append, List.nodup_append] at hnodup
      have hfresh : slot.1 ∉ slots.map Prod.fst := by
        intro hmem
        exact hnodup.2.2 slot.1 hmem slot.1 (by simp) rfl
      rw [ofList_append_singleton, ih hnodup.1]
      clear ih hnodup
      induction slots with
      | nil => rfl
      | cons first rest ih =>
          rw [List.map_cons, List.mem_cons, not_or] at hfresh
          have hother : ¬first.1 = slot.1 := fun heq => hfresh.1 heq.symm
          simp [insert, hother, ih hfresh.2]

theorem mem_of_mem_insert {key : String} {entry : α} {slots : List (String × α)}
    {slot : String × α} (hmem : slot ∈ insert key entry slots) :
    slot = (key, entry) ∨ slot ∈ slots := by
  induction slots with
  | nil => simpa [insert] using hmem
  | cons first rest ih =>
      by_cases hhere : first.1 = key
      · simp only [insert, hhere, if_true, List.mem_cons] at hmem
        exact hmem.imp id (fun hrest => List.mem_cons_of_mem first hrest)
      · simp only [insert, hhere, if_false, List.mem_cons] at hmem
        rcases hmem with hfirst | hrest
        · exact Or.inr (hfirst ▸ List.mem_cons_self)
        · exact (ih hrest).imp id (fun hold => List.mem_cons_of_mem first hold)

theorem mem_of_mem_ofList {entries : List (String × α)} {slot : String × α}
    (hmem : slot ∈ ofList entries) : slot ∈ entries := by
  induction entries using List.reverseRecOn with
  | nil => exact hmem
  | append_singleton entries entry ih =>
      rw [ofList_append_singleton] at hmem
      rcases mem_of_mem_insert hmem with hnew | hold
      · exact List.mem_append_right entries (List.mem_singleton.mpr hnew)
      · exact List.mem_append_left _ (ih hold)

/-- Puts entries into slots one after the other. -/
def fill (slots entries : List (String × α)) : List (String × α) :=
  entries.foldl (fun slots entry => insert entry.1 entry.2 slots) slots

theorem insert_insert (key : String) (first second : α) (slots : List (String × α)) :
    insert key second (insert key first slots) = insert key second slots := by
  induction slots with
  | nil => simp [insert]
  | cons slot rest ih =>
      by_cases hhere : slot.1 = key <;> simp [insert, hhere, ih]

/-- A key that has a slot keeps it, whatever is put into other slots. -/
theorem insert_comm {key other : String} (hother : other ≠ key) {slots : List (String × α)}
    (hmem : key ∈ slots.map Prod.fst) (entry value : α) :
    insert key entry (insert other value slots) = insert other value (insert key entry slots) := by
  induction slots with
  | nil => contradiction
  | cons slot rest ih =>
      by_cases hhere : slot.1 = key
      · have hapart : ¬slot.1 = other := fun heq => hother (heq.symm.trans hhere)
        simp [insert, hhere, hother.symm]
      · have hrest : key ∈ rest.map Prod.fst := by simpa [Ne.symm hhere] using hmem
        by_cases hthere : slot.1 = other
        · simp [insert, hthere, hother]
        · simp [insert, hhere, hthere, ih hrest]

theorem mem_keys_insert (key other : String) (entry : α) {slots : List (String × α)}
    (hmem : key ∈ slots.map Prod.fst) : key ∈ (insert other entry slots).map Prod.fst := by
  rw [keys_insert]
  split
  · exact hmem
  · exact List.mem_append_left _ hmem

theorem insert_fill {key : String} {entries : List (String × α)}
    (hfresh : key ∉ entries.map Prod.fst) (entry : α) {slots : List (String × α)}
    (hmem : key ∈ slots.map Prod.fst) :
    insert key entry (fill slots entries) = fill (insert key entry slots) entries := by
  induction entries generalizing slots with
  | nil => rfl
  | cons first rest ih =>
      rw [List.map_cons, List.mem_cons, not_or] at hfresh
      change insert key entry (fill (insert first.1 first.2 slots) rest) =
        fill (insert first.1 first.2 (insert key entry slots)) rest
      rw [ih hfresh.2 (mem_keys_insert key first.1 first.2 hmem),
        insert_comm (Ne.symm hfresh.1) hmem]

theorem fill_insert {entries : List (String × α)} (hnodup : (entries.map Prod.fst).Nodup)
    (key : String) (entry : α) (slots : List (String × α)) :
    fill slots (insert key entry entries) = insert key entry (fill slots entries) := by
  induction entries generalizing slots with
  | nil => rfl
  | cons first rest ih =>
      rw [List.map_cons, List.nodup_cons] at hnodup
      by_cases hhere : first.1 = key
      · subst hhere
        have hmem : first.1 ∈ (insert first.1 first.2 slots).map Prod.fst := by
          rw [keys_insert]
          split <;> simp_all
        simp only [insert, if_true]
        change fill (insert first.1 entry slots) rest =
          insert first.1 entry (fill (insert first.1 first.2 slots) rest)
        rw [insert_fill hnodup.1 entry hmem, insert_insert]
      · simp only [insert, hhere, if_false]
        exact ih hnodup.2 _

/-- Entries with repeated keys can be replaced by their slots. -/
theorem fill_ofList (slots entries : List (String × α)) :
    fill slots (ofList entries) = fill slots entries := by
  induction entries using List.reverseRecOn with
  | nil => rfl
  | append_singleton entries entry ih =>
      rw [ofList_append_singleton, fill_insert (nodup_keys_ofList entries), ih]
      simp [fill]

theorem ofList_flatten (lists : List (List (String × α))) :
    ofList (lists.map ofList).flatten = ofList lists.flatten := by
  suffices hfill : ∀ slots, fill slots (lists.map ofList).flatten = fill slots lists.flatten from
    hfill []
  induction lists with
  | nil => intro slots; rfl
  | cons entries rest ih =>
      intro slots
      have happend : ∀ first second : List (String × α),
          fill slots (first ++ second) = fill (fill slots first) second :=
        fun first second => List.foldl_append
      rw [List.map_cons, List.flatten_cons, List.flatten_cons, happend, happend, fill_ofList, ih]

end Slots

namespace Value

mutual

/-- The datum that a value denotes. -/
def meaning : Value → Datum
  | scalar _ content => .scalar content
  | array _ items => .array (itemMeanings items)
  | object _ members => .object (Slots.resolved (memberMeanings members))

def itemMeanings : List Value → List Datum
  | [] => []
  | item :: rest => meaning item :: itemMeanings rest

def memberMeanings : List Member → List (String × Option Datum)
  | [] => []
  | .bare key :: rest => (key.text, none) :: memberMeanings rest
  | .pair key value :: rest => (key.text, some (meaning value)) :: memberMeanings rest

end

mutual

theorem datum_eq_meaning : ∀ value : Value, value.datum = value.meaning
  | scalar _ _ => rfl
  | array _ items => by simp [datum, meaning, itemData_eq_itemMeanings items]
  | object _ members => by
      simp [datum, meaning, memberData_eq_memberMeanings members,
        Slots.ofList_eq_resolved]

theorem itemData_eq_itemMeanings :
    ∀ items : List Value, itemData items = itemMeanings items
  | [] => rfl
  | item :: rest => by
      simp [itemData, itemMeanings, datum_eq_meaning item,
        itemData_eq_itemMeanings rest]

theorem memberData_eq_memberMeanings :
    ∀ members : List Member, memberData members = memberMeanings members
  | [] => rfl
  | .bare _ :: rest => by
      simp [memberData, memberMeanings, memberData_eq_memberMeanings rest]
  | .pair _ value :: rest => by
      simp [memberData, memberMeanings, datum_eq_meaning value,
        memberData_eq_memberMeanings rest]

end

end Value
end QueryBody
