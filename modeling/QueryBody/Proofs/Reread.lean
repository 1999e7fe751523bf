import QueryBody.Datum.Template
import QueryBody.Number.Reading
import QueryBody.Proofs.Admission
import QueryBody.Proofs.Meaning
import QueryBody.Proofs.NumberText
import Mathlib.Tactic

/-!
# Data that are written and read again

Reading the text of a number may give another number.  A datum whose numbers come back
is the same after its numbers have been read again, and has the same template.
-/

namespace QueryBody

/-- The text of the number is read as an equal number with the same text. -/
def Number.Rereads (number : Number) : Prop :=
  (Numeral.read number.text.toList).same (.finite number) = true ∧
    (Numeral.read number.text.toList).text = number.text

def Scalar.reread : Scalar → Scalar
  | number value => .number (Numeral.read value.text.toList)
  | content => content

namespace Datum

mutual

/-- The finite numbers in a datum. -/
def numbers : Datum → List Number
  | scalar (.number (.finite number)) => [number]
  | scalar _ => []
  | array items => itemNumbers items
  | object slots => slotNumbers slots

def itemNumbers : List Datum → List Number
  | [] => []
  | item :: rest => numbers item ++ itemNumbers rest

def slotNumbers : List (String × Option Datum) → List Number
  | [] => []
  | (_, none) :: rest => slotNumbers rest
  | (_, some item) :: rest => numbers item ++ slotNumbers rest

end

mutual

/-- The datum with its numbers read again. -/
def reread : Datum → Datum
  | scalar content => scalar content.reread
  | array items => array (rereadItems items)
  | object slots => object (rereadSlots slots)

def rereadItems : List Datum → List Datum
  | [] => []
  | item :: rest => reread item :: rereadItems rest

def rereadSlots : List (String × Option Datum) → List (String × Option Datum)
  | [] => []
  | (key, none) :: rest => (key, none) :: rereadSlots rest
  | (key, some item) :: rest => (key, some (reread item)) :: rereadSlots rest

end

/-- The datum has room at a depth, its scalars are legible, and its keys are distinct. -/
inductive Admitted (limit : Option Nat) : Nat → Datum → Prop
  | scalar {depth : Nat} {content : Scalar} (hlegible : content.IsLegible) :
      Admitted limit depth (.scalar content)
  | array {depth : Nat} {items : List Datum} (hallows : Allows limit (depth + 1))
      (hitems : ∀ item ∈ items, Admitted limit (depth + 1) item) :
      Admitted limit depth (.array items)
  | object {depth : Nat} {slots : List (String × Option Datum)}
      (hallows : Allows limit (depth + 1)) (hnodup : (slots.map Prod.fst).Nodup)
      (hslots : ∀ key item, (key, some item) ∈ slots → Admitted limit (depth + 1) item) :
      Admitted limit depth (.object slots)

end Datum

/-! ### Data of values -/

namespace Value

theorem mem_itemData {items : List Value} {datum : Datum} (hmem : datum ∈ itemData items) :
    ∃ item ∈ items, item.datum = datum := by
  induction items with
  | nil => contradiction
  | cons item rest ih =>
      rcases List.mem_cons.mp hmem with rfl | hrest
      · exact ⟨item, List.mem_cons_self, rfl⟩
      · obtain ⟨found, hfound, hsame⟩ := ih hrest
        exact ⟨found, List.mem_cons_of_mem item hfound, hsame⟩

theorem mem_memberData {members : List Member} {key : String} {datum : Datum}
    (hmem : (key, some datum) ∈ memberData members) :
    ∃ name value, .pair name value ∈ members ∧ value.datum = datum := by
  induction members with
  | nil => contradiction
  | cons member rest ih =>
      cases member with
      | bare name =>
          have hrest : (key, some datum) ∈ memberData rest := by simpa [memberData] using hmem
          obtain ⟨found, value, hfound, hsame⟩ := ih hrest
          exact ⟨found, value, List.mem_cons_of_mem _ hfound, hsame⟩
      | pair name value =>
          rcases List.mem_cons.mp hmem with hfirst | hrest
          · cases hfirst
            exact ⟨name, value, List.mem_cons_self, rfl⟩
          · obtain ⟨found, value, hfound, hsame⟩ := ih hrest
            exact ⟨found, value, List.mem_cons_of_mem _ hfound, hsame⟩

theorem Admitted.datum {limit : Option Nat} {depth : Nat} {value : Value}
    (hadmitted : value.Admitted limit depth) : value.datum.Admitted limit depth := by
  induction hadmitted with
  | scalar hlegible token => exact .scalar hlegible
  | array hallows hitems opener ih =>
      refine .array hallows ?_
      intro item hmem
      obtain ⟨value, hvalue, rfl⟩ := mem_itemData hmem
      exact ih value hvalue
  | object hallows hmembers opener ih =>
      refine .object hallows (Slots.nodup_keys_ofList _) ?_
      intro key item hmem
      obtain ⟨name, value, hvalue, rfl⟩ := mem_memberData (Slots.mem_of_mem_ofList hmem)
      exact ih name value hvalue

end Value

/-! ### Numbers that come back -/

theorem Number.toList_text (number : Number) : number.text.toList = number.chars :=
  String.toList_ofList

namespace Scalar

/-- The text of a legible number is a number. -/
theorem shape_of_isLegible {value : Numeral} (hlegible : (number value).IsLegible) :
    Shape.of value.text.toList = .complete := by
  cases value with
  | finite number =>
      rw [Numeral.text, Number.toList_text]
      exact number.shape_chars
  | outOfRange text => exact hlegible.1

theorem isLegible_of_read {text : List Char} (hshape : Shape.of text = .complete) :
    (number (Numeral.read text)).IsLegible := by
  cases hread : Numeral.read text with
  | finite value => trivial
  | outOfRange kept =>
      have hkept : kept.toList = text := by
        unfold Numeral.read at hread
        split at hread
        · contradiction
        · cases hread
          exact String.toList_ofList
      exact ⟨hkept ▸ hshape, hkept ▸ hread⟩

theorem isLegible_reread {content : Scalar} (hlegible : content.IsLegible) :
    content.reread.IsLegible := by
  cases content with
  | number value => exact isLegible_of_read (shape_of_isLegible hlegible)
  | _ => exact hlegible

theorem reread_same {content : Scalar} (hlegible : content.IsLegible)
    (hnumbers : ∀ number ∈ (Datum.scalar content).numbers, number.Rereads) :
    content.reread.same content = true ∧ content.reread.templateChars = content.templateChars := by
  cases content with
  | number value =>
      cases value with
      | finite found =>
          have hrereads : found.Rereads := hnumbers found (by simp [Datum.numbers])
          exact ⟨hrereads.1, congrArg String.toList hrereads.2⟩
      | outOfRange text =>
          have hread : Numeral.read text.toList = .outOfRange text := hlegible.2
          simp [reread, Numeral.text, hread, same, Numeral.same, templateChars]
  | _ => simp [reread, same]

end Scalar

namespace Datum

/-- Reading again keeps the datum and its template. -/
def Keeps (datum : Datum) : Prop :=
  datum.reread.same datum = true ∧ datum.reread.templateChars = datum.templateChars

theorem keeps_items {items : List Datum} (hkeeps : ∀ item ∈ items, item.Keeps) :
    sameItems (rereadItems items) items = true ∧
      itemTemplates (rereadItems items) = itemTemplates items := by
  induction items with
  | nil => exact ⟨rfl, rfl⟩
  | cons item rest ih =>
      have hitem := hkeeps item List.mem_cons_self
      have hrest := ih fun later hmem => hkeeps later (List.mem_cons_of_mem item hmem)
      constructor
      · simp [rereadItems, sameItems, hitem.1, hrest.1]
      · simp [rereadItems, itemTemplates, hitem.2, hrest.2]

theorem keeps_slots {slots : List (String × Option Datum)}
    (hkeeps : ∀ key item, (key, some item) ∈ slots → item.Keeps) :
    sameSlots (rereadSlots slots) slots = true ∧
      slotTemplates (rereadSlots slots) = slotTemplates slots := by
  induction slots with
  | nil => exact ⟨rfl, rfl⟩
  | cons slot rest ih =>
      have hrest := ih fun key item hmem => hkeeps key item (List.mem_cons_of_mem slot hmem)
      obtain ⟨key, entry⟩ := slot
      cases entry with
      | none =>
          constructor
          · simp [rereadSlots, sameSlots, hrest.1]
          · simp [rereadSlots, slotTemplates]
      | some item =>
          have hitem := hkeeps key item List.mem_cons_self
          constructor
          · simp [rereadSlots, sameSlots, hitem.1, hrest.1]
          · simp [rereadSlots, slotTemplates, hitem.2, hrest.2]

theorem numbers_subset_of_mem_items {items : List Datum} {item : Datum} (hmem : item ∈ items) :
    ∀ number ∈ item.numbers, number ∈ itemNumbers items := by
  induction items with
  | nil => contradiction
  | cons first rest ih =>
      intro number hnumber
      rw [itemNumbers, List.mem_append]
      rcases List.mem_cons.mp hmem with rfl | hrest
      · exact Or.inl hnumber
      · exact Or.inr (ih hrest number hnumber)

theorem numbers_subset_of_mem_slots {slots : List (String × Option Datum)} {key : String}
    {item : Datum} (hmem : (key, some item) ∈ slots) :
    ∀ number ∈ item.numbers, number ∈ slotNumbers slots := by
  induction slots with
  | nil => contradiction
  | cons slot rest ih =>
      intro number hnumber
      rcases List.mem_cons.mp hmem with rfl | hrest
      · rw [slotNumbers, List.mem_append]
        exact Or.inl hnumber
      · have hlater := ih hrest number hnumber
        obtain ⟨name, entry⟩ := slot
        cases entry with
        | none => exact hlater
        | some first =>
            rw [slotNumbers, List.mem_append]
            exact Or.inr hlater

theorem Admitted.keeps {limit : Option Nat} {depth : Nat} {datum : Datum}
    (hadmitted : datum.Admitted limit depth)
    (hnumbers : ∀ number ∈ datum.numbers, number.Rereads) : datum.Keeps := by
  induction hadmitted with
  | scalar hlegible =>
      obtain ⟨hsame, htemplate⟩ := Scalar.reread_same hlegible hnumbers
      exact ⟨hsame, congrArg Except.ok htemplate⟩
  | array hallows hitems ih =>
      rename_i items
      have hkeeps := keeps_items fun item hmem => ih item hmem fun number hnumber =>
        hnumbers number (numbers_subset_of_mem_items hmem number hnumber)
      constructor
      · simp [reread, same, hkeeps.1]
      · simp [reread, templateChars, hkeeps.2]
  | object hallows hnodup hslots ih =>
      rename_i slots
      have hkeeps := keeps_slots fun key item hmem => ih key item hmem fun number hnumber =>
        hnumbers number (numbers_subset_of_mem_slots hmem number hnumber)
      constructor
      · simp [reread, same, hkeeps.1]
      · simp [reread, templateChars, hkeeps.2]

end Datum
end QueryBody
