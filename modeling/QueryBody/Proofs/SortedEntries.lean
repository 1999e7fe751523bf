import QueryBody.Datum.Json
import QueryBody.Proofs.Meaning
import Mathlib.Data.String.Basic
import Mathlib.Tactic

/-!
# Objects in the JSON view

The entries of a JSON object are sorted by key, and a key has the entry that was put in
last.  Both together determine the entries, so filling slots first makes no difference.
-/

namespace QueryBody

namespace Ascending

variable {α : Type} {entries first second : List (String × α)}

end Ascending

namespace Json

/-- The sorted entries of the object that entries make. -/
def sorted (entries : List (String × Json)) : List (String × Json) :=
  entries.foldl (fun done entry => insertEntry entry.1 entry.2 done) []

end Json

/-! ### Slots with a JSON view -/

namespace Slots

variable {α β : Type} {meets : String × α → String × β → Prop}

theorem forall₂_insert (hkey : ∀ slot other, meets slot other → slot.1 = other.1)
    {slots : List (String × α)} {others : List (String × β)}
    (hslots : List.Forall₂ meets slots others) {slot : String × α} {other : String × β}
    (hslot : meets slot other) :
    List.Forall₂ meets (insert slot.1 slot.2 slots) (insert other.1 other.2 others) := by
  induction hslots with
  | nil => exact .cons hslot .nil
  | @cons first second slots others hfirst hrest ih =>
      have hsame : first.1 = slot.1 ↔ second.1 = other.1 := by
        rw [hkey _ _ hfirst, hkey _ _ hslot]
      unfold insert
      by_cases hhere : first.1 = slot.1
      · rw [if_pos hhere, if_pos (hsame.mp hhere)]
        exact .cons hslot hrest
      · rw [if_neg hhere, if_neg (mt hsame.mpr hhere)]
        exact .cons hfirst ih

theorem forall₂_ofList (hkey : ∀ slot other, meets slot other → slot.1 = other.1)
    {entries : List (String × α)} {others : List (String × β)}
    (hentries : List.Forall₂ meets entries others) :
    List.Forall₂ meets (ofList entries) (ofList others) := by
  unfold ofList
  have hempty : List.Forall₂ meets ([] : List (String × α)) ([] : List (String × β)) := .nil
  generalize ([] : List (String × α)) = slots at hempty ⊢
  generalize ([] : List (String × β)) = otherSlots at hempty ⊢
  induction hentries generalizing slots otherSlots with
  | nil => exact hempty
  | cons hfirst _ ih => exact ih _ _ (forall₂_insert hkey hempty hfirst)

end Slots

namespace Datum

/-- The slot is filled, and its entry has this JSON view. -/
def ViewsAs (slot : String × Option Datum) (entry : String × Json) : Prop :=
  slot.1 = entry.1 ∧ ∃ datum, slot.2 = some datum ∧ datum.json? = some entry.2

end Datum
end QueryBody
