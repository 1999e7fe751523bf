/-!
# Slots

An object keeps its entries in the order in which their keys first occur.  A
repeated key replaces the entry in its slot.
-/

namespace QueryBody
namespace Slots

variable {α : Type}

/-- Puts an entry into the slot of its key, or into a new slot at the end. -/
def insert (key : String) (entry : α) : List (String × α) → List (String × α)
  | [] => [(key, entry)]
  | slot :: rest => if slot.1 = key then (key, entry) :: rest else slot :: insert key entry rest

/-- The slots that entries fill one after the other. -/
def ofList (entries : List (String × α)) : List (String × α) :=
  entries.foldl (fun slots entry => insert entry.1 entry.2 slots) []

def find? (key : String) : List (String × α) → Option α
  | [] => none
  | slot :: rest => if slot.1 = key then some slot.2 else find? key rest

@[simp] theorem find?_insert (key other : String) (entry : α) (slots : List (String × α)) :
    find? other (insert key entry slots) =
      if key = other then some entry else find? other slots := by
  induction slots with
  | nil => simp [insert, find?]
  | cons slot rest ih =>
      by_cases here : slot.1 = key
      · by_cases same : key = other
        · simp [insert, find?, here, same]
        · simp [insert, find?, here, same]
      · by_cases there : slot.1 = other
        · have apart : ¬other = key := fun same => here (there.trans same)
          have apart' : ¬key = other := fun same => apart same.symm
          simp [insert, find?, there, apart, apart']
        · simp [insert, find?, here, there, ih]

/-- An insertion adds a key at the end, unless the key has a slot. -/
theorem keys_insert (key : String) (entry : α) (slots : List (String × α)) :
    (insert key entry slots).map Prod.fst =
      if key ∈ slots.map Prod.fst then slots.map Prod.fst else slots.map Prod.fst ++ [key] := by
  induction slots with
  | nil => simp [insert]
  | cons slot rest ih =>
      by_cases here : slot.1 = key
      · simp [insert, here]
      · have apart : ¬key = slot.1 := fun same => here same.symm
        by_cases later : key ∈ rest.map Prod.fst
        · simp [insert, here, apart, ih, later]
        · simp [insert, here, apart, ih, later]

end Slots
end QueryBody
