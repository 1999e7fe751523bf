import QueryBody.Body
import QueryBody.Proofs.PlacedData
import Mathlib.Tactic

/-!
# The first property without a value

A place has a template exactly if it has a JSON view.  It has neither if a property at it
or inside it has no value, and then the error names the first such property: those of an
object come in the order of their slots, and all that is in the value of one comes before
the next.
-/

namespace QueryBody

namespace Datum

/-- With this as the key of the first property without a value, what the template and the JSON
view of the datum are. -/
def FailsAt (datum : Datum) : Option String → Prop
  | none => ∃ text json, datum.templateChars = .ok text ∧ datum.json? = some json
  | some key => datum.templateChars = .error (.missingValue key) ∧ datum.json? = none

/-- The same for the items of an array. -/
def ItemsFailAt (items : List Datum) : Option String → Prop
  | none => ∃ texts views, itemTemplates items = .ok texts ∧ itemsJson? items = some views
  | some key => itemTemplates items = .error (.missingValue key) ∧ itemsJson? items = none

/-- The same for the slots of an object. -/
def SlotsFailAt (slots : List (String × Option Datum)) : Option String → Prop
  | none => ∃ texts views, slotTemplates slots = .ok texts ∧ slotsJson? slots = some views
  | some key => slotTemplates slots = .error (.missingValue key) ∧ slotsJson? slots = none

theorem ItemsFailAt.array {items : List Datum} {key : Option String}
    (hitems : ItemsFailAt items key) : (array items).FailsAt key := by
  cases key with
  | none =>
      obtain ⟨texts, views, htexts, hviews⟩ := hitems
      exact ⟨_, _, by rw [templateChars, htexts]; rfl, by rw [json?, hviews]; rfl⟩
  | some key =>
      obtain ⟨htexts, hviews⟩ := hitems
      exact ⟨by rw [templateChars, htexts]; rfl, by rw [json?, hviews]; rfl⟩

theorem SlotsFailAt.object {slots : List (String × Option Datum)} {key : Option String}
    (hslots : SlotsFailAt slots key) : (object slots).FailsAt key := by
  cases key with
  | none =>
      obtain ⟨texts, views, htexts, hviews⟩ := hslots
      exact ⟨_, _, by rw [templateChars, htexts]; rfl, by rw [json?, hviews]; rfl⟩
  | some key =>
      obtain ⟨htexts, hviews⟩ := hslots
      exact ⟨by rw [templateChars, htexts]; rfl, by rw [json?, hviews]; rfl⟩

theorem itemsFailAt_cons {item : Datum} {rest : List Datum} {first later : Option String}
    (hitem : item.FailsAt first) (hrest : ItemsFailAt rest later) :
    ItemsFailAt (item :: rest) (first.or later) := by
  cases first with
  | some key =>
      obtain ⟨htext, hjson⟩ := hitem
      exact ⟨by rw [itemTemplates, htext]; rfl, by rw [itemsJson?, hjson]; rfl⟩
  | none =>
      obtain ⟨text, json, htext, hjson⟩ := hitem
      cases later with
      | some key =>
          obtain ⟨htexts, hviews⟩ := hrest
          exact ⟨by rw [itemTemplates, htext, htexts]; rfl, by rw [itemsJson?, hjson, hviews]; rfl⟩
      | none =>
          obtain ⟨texts, views, htexts, hviews⟩ := hrest
          exact ⟨_, _, by rw [itemTemplates, htext, htexts]; rfl,
            by rw [itemsJson?, hjson, hviews]; rfl⟩

/-- An empty slot fails at its key, whatever comes after it. -/
theorem slotsFailAt_empty (key : String) (rest : List (String × Option Datum)) :
    SlotsFailAt ((key, none) :: rest) (some key) :=
  ⟨rfl, rfl⟩

theorem slotsFailAt_cons (key : String) {item : Datum} {rest : List (String × Option Datum)}
    {first later : Option String} (hitem : item.FailsAt first) (hrest : SlotsFailAt rest later) :
    SlotsFailAt ((key, some item) :: rest) (first.or later) := by
  cases first with
  | some missing =>
      obtain ⟨htext, hjson⟩ := hitem
      exact ⟨by rw [slotTemplates, htext]; rfl, by rw [slotsJson?, hjson]; rfl⟩
  | none =>
      obtain ⟨text, json, htext, hjson⟩ := hitem
      cases later with
      | some missing =>
          obtain ⟨htexts, hviews⟩ := hrest
          exact ⟨by rw [slotTemplates, htext, htexts]; rfl, by rw [slotsJson?, hjson, hviews]; rfl⟩
      | none =>
          obtain ⟨texts, views, htexts, hviews⟩ := hrest
          exact ⟨_, _, by rw [slotTemplates, htext, htexts]; rfl,
            by rw [slotsJson?, hjson, hviews]; rfl⟩

end Datum

/-! ### Properties in their order -/

namespace Tree

/-- The properties at a number and inside it, at most `steps` containers deep: those of an object
in the order of their slots, and after each of them those in its value. -/
def properties (tree : Tree) : (steps : Nat) → (id : Nat) → List (String × Entry)
  | 0, _ => []
  | steps + 1, id =>
      match (tree.get? id).map Place.content with
      | some (.array items) => items.flatMap (tree.properties steps)
      | some (.object entries) => entries.flatMap fun slot =>
          slot :: slot.2.value.toList.flatMap (tree.properties steps)
      | _ => []

/-- The key of the first property without a value.  Parts have greater numbers than their
containers, so the size of the tree is enough steps. -/
def firstWithoutValue? (tree : Tree) (id : Nat) : Option String :=
  ((tree.properties tree.size id).find? (·.2.value.isNone)).map Prod.fst

variable {tree : Tree}

def firstEmpty? (properties : List (String × Entry)) : Option String :=
  (properties.find? (·.2.value.isNone)).map Prod.fst

theorem firstEmpty?_append (front back : List (String × Entry)) :
    firstEmpty? (front ++ back) = (firstEmpty? front).or (firstEmpty? back) := by
  rw [firstEmpty?, List.find?_append, Option.map_or]
  rfl

variable {steps : Nat}

/-- The parts of an array fail at the first property without a value among all of theirs. -/
theorem itemsFailAt_of_said {ids : List Nat} {items : List Datum}
    (hparts : ∀ id ∈ ids, ∀ datum, tree.Says id datum →
      datum.FailsAt (firstEmpty? (tree.properties steps id)))
    (hsaid : List.Forall₂ tree.Says ids items) :
    Datum.ItemsFailAt items (firstEmpty? (ids.flatMap (tree.properties steps))) := by
  induction hsaid with
  | nil => exact ⟨_, _, rfl, rfl⟩
  | @cons id item ids items hitem _ ih =>
      rw [List.flatMap_cons, firstEmpty?_append]
      exact Datum.itemsFailAt_cons (hparts id List.mem_cons_self item hitem)
        (ih fun later hmem => hparts later (List.mem_cons_of_mem id hmem))

theorem slotsFailAt_of_said {entries : List (String × Entry)}
    {slots : List (String × Option Datum)}
    (hparts : ∀ slot ∈ entries, ∀ id, slot.2.value = some id → ∀ datum, tree.Says id datum →
      datum.FailsAt (firstEmpty? (tree.properties steps id)))
    (hsaid : List.Forall₂ tree.SaysSlot entries slots) :
    Datum.SlotsFailAt slots (firstEmpty? (entries.flatMap fun slot =>
      slot :: slot.2.value.toList.flatMap (tree.properties steps))) := by
  induction hsaid with
  | nil => exact ⟨_, _, rfl, rfl⟩
  | @cons entry slot entries slots hslot _ ih =>
      have hrest := ih fun later hmem => hparts later (List.mem_cons_of_mem entry hmem)
      have hhere := hparts entry List.mem_cons_self
      obtain ⟨key, name, value⟩ := entry
      obtain ⟨slotKey, held⟩ := slot
      obtain ⟨hkey, hvalue⟩ := hslot
      change key = slotKey at hkey
      subst hkey
      cases hvalue with
      | none => exact Datum.slotsFailAt_empty key slots
      | @some id datum hdatum =>
          have hfailing := Datum.slotsFailAt_cons key (hhere id rfl datum hdatum) hrest
          rw [List.flatMap_cons, List.cons_append, firstEmpty?, List.find?_cons_of_neg (by simp),
            ← firstEmpty?, firstEmpty?_append]
          simpa using hfailing

theorem failsAt_of_said {id : Nat} {datum : Datum} (hsaid : tree.Says id datum)
    (hsteps : tree.size ≤ id + steps) :
    datum.FailsAt (firstEmpty? (tree.properties steps id)) := by
  -- parts have greater numbers than their containers, so fewer steps are enough for them
  induction steps generalizing id datum with
  | zero =>
      obtain ⟨place, hget, _⟩ := hsaid
      have hlt : id < tree.size := (List.getElem?_eq_some_iff.mp hget).1
      omega
  | succ steps ih =>
      obtain ⟨place, hget, hplace⟩ := hsaid
      obtain rfl := id_of_get? hget
      have hread := saysBy_of_mem (List.mem_of_getElem? hget)
      rw [hplace] at hread
      rw [properties, hget, Option.map_some]
      cases hcontent : place.content with
      | scalar content =>
          rw [hcontent] at hread
          cases hread
          exact ⟨_, _, rfl, rfl⟩
      | array ids =>
          rw [hcontent] at hread
          cases hread with
          | array hitems =>
              refine (itemsFailAt_of_said ?_ hitems).array
              intro part hpart datum hdatum
              have hlt := Place.lt_of_content_array hcontent hpart
              exact ih hdatum (by omega)
      | object entries =>
          rw [hcontent] at hread
          cases hread with
          | object hslots =>
              refine (slotsFailAt_of_said ?_ hslots).object
              intro slot hslot part hpart datum hdatum
              have hlt := Place.lt_of_content_object hcontent hslot hpart
              exact ih hdatum (by omega)

end Tree

theorem Datum.template_eq_ok {datum : Datum} {text : List Char}
    (htext : datum.templateChars = .ok text) : datum.template = .ok (String.ofList text) := by
  rw [template, htext]
  rfl

theorem Datum.template_eq_error {datum : Datum} {error : TemplateError}
    (herror : datum.templateChars = .error error) : datum.template = .error error := by
  rw [template, herror]
  rfl

/-- Every place of a body has a template exactly if it has a JSON view, and otherwise the error
names the first property without a value at the place or inside it. -/
theorem template_isOk_iff_json {options : Options} {source : String} {id : Nat} {place : Place}
    (hget : (options.parse source).tree.get? id = some place) :
    ((∃ template, place.value.datum.template = .ok template) ↔
        ∃ json, place.value.datum.json? = some json) ∧
      ∀ error, place.value.datum.template = .error error ↔
        ∃ key, error = .missingValue key ∧
          (options.parse source).tree.firstWithoutValue? id = some key := by
  have hfails := Tree.failsAt_of_said ⟨place, hget, rfl⟩ (Nat.le_add_left _ id)
  change place.value.datum.FailsAt ((options.parse source).tree.firstWithoutValue? id) at hfails
  cases hfirst : (options.parse source).tree.firstWithoutValue? id with
  | none =>
      rw [hfirst] at hfails
      obtain ⟨text, json, htext, hjson⟩ := hfails
      simp [Datum.template_eq_ok htext, hjson]
  | some key =>
      rw [hfirst] at hfails
      obtain ⟨herror, hjson⟩ := hfails
      simp [Datum.template_eq_error herror, hjson, eq_comm]

/-- A slot that was empty first is filled later on, and another one inside the same value is not;
the property after that value has none either. -/
theorem template_isOk_iff_json_refilled_slot :
    let body := Options.group.parse
      "\x7b\"x\": [1, \x7b\"b\": , \"a\": 1, \"b\": 2, \"c\": \x7d], \"y\": \x7d"
    ∃ place, body.tree.get? 0 = some place ∧
      place.value.datum.template = .error (.missingValue "c") ∧ place.value.datum.json? = none := by
  intro body
  have hsome : (body.tree.get? 0).isSome = true := by decide +kernel
  obtain ⟨place, hget⟩ := Option.isSome_iff_exists.mp hsome
  have hfirst : body.tree.firstWithoutValue? 0 = some "c" := by decide +kernel
  obtain ⟨hok, herror⟩ := template_isOk_iff_json hget
  have hfails : place.value.datum.template = .error (.missingValue "c") :=
    (herror _).mpr ⟨"c", rfl, hfirst⟩
  refine ⟨place, hget, hfails, ?_⟩
  cases hjson : place.value.datum.json? with
  | none => rfl
  | some json =>
      obtain ⟨template, htemplate⟩ := hok.mpr ⟨json, hjson⟩
      rw [htemplate] at hfails
      contradiction

end QueryBody
