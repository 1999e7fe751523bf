import QueryBody.Proofs.Acceptance
import QueryBody.Proofs.Reread
import QueryBody.Proofs.StringToken
import QueryBody.Proofs.TemplateTokens
import Mathlib.Tactic

/-!
# Templates are read back

The template of a body is a sentence that says what the body says, once its numbers
have been read again.  If the numbers come back, so does the template.
-/

namespace QueryBody

open Lexer

variable {limit : Option Nat} {depth : Nat}

/-- The tokens write a value that says the datum and has room at a depth. -/
structure Value.Says (limit : Option Nat) (depth : Nat) (datum : Datum) (lexemes : List Lexeme)
    (value : Value) : Prop where
  spells : Spells value lexemes
  datum : value.datum = datum
  admitted : value.Admitted limit depth

/-- The text is cut into the tokens of a value that says the datum. -/
def Writes (limit : Option Nat) (depth : Nat) (datum : Datum) (text : List Char) : Prop :=
  Yields (fun lexemes => ∃ value, Value.Says limit depth datum lexemes value) text

/-! ### Scalars -/

theorem writes_of_isScalar {content : Scalar} {text : List Char} (hlegible : content.IsLegible)
    (hyields : Yields (IsScalar content) text) : Writes limit depth (.scalar content) text := by
  refine hyields.mono ?_
  rintro lexemes ⟨token, hspells⟩
  exact ⟨_, hspells, rfl, .scalar hlegible token⟩

theorem yields_written_string (text : String) :
    Yields (IsScalar (.string text)) (Scalar.string text).templateChars := by
  obtain ⟨body, hencode, hwhole⟩ := begun?_encode text.toList
  have hchecked : checked .string ('"' :: body) = .string := hencode ▸ checked_encode text.toList
  rw [Scalar.templateChars, hencode]
  refine yields_string hwhole hchecked ?_
  intro lexeme hlexeme
  rw [Lexeme.string_of_encode (hlexeme.trans hencode.symm), String.ofList_toList]

theorem parameterOpening_whole :
    begun? '{' parameterOpening.tail = some ⟨.parameterOpen, parameterOpening.tail, []⟩ := rfl

theorem parameterClosing_whole :
    begun? '{' parameterClosing.tail = some ⟨.parameterClose, parameterClosing.tail, []⟩ := rfl

/-- The markers of a parameter keep away from its name. -/
theorem yields_parameter {name : String} (hname : IsName name.toList) :
    Yields (IsScalar (.parameter name)) (Scalar.parameter name).templateChars := by
  obtain ⟨c, body, htext, hwhole⟩ := begun?_of_isName hname
  have hclosing : Yields (fun lexemes => ∃ closing : Lexeme, lexemes = [closing] ∧
      closing.kind = .parameterClose) parameterClosing :=
    yields_single parameterClosing_whole rfl rfl rfl
  have hnamed : Yields (fun lexemes => ∃ found closing : Lexeme, lexemes = [found, closing] ∧
      found.kind = .identifier ∧ found.word = name ∧ closing.kind = .parameterClose)
      (name.toList ++ parameterClosing) := by
    rw [htext]
    refine Yields.token hwhole rfl rfl ?_ hclosing ?_
    · intro later _
      -- a name ends before the brace of the marker behind it
      exact .of_ends (c := '{') rfl _ _
    · rintro found rest hkind hfound ⟨closing, rfl, hclosed⟩
      refine ⟨found, closing, rfl, hkind, ?_, hclosed⟩
      rw [Lexeme.word, hfound, ← htext, String.ofList_toList]
  rw [Scalar.templateChars, List.append_assoc]
  refine Yields.token parameterOpening_whole rfl rfl ?_ hnamed ?_
  · intro later _
    exact .of_always (fun _ => rfl) _
  · rintro opening rest hkind _ ⟨found, closing, rfl, hfound, rfl, hclosed⟩
    exact ⟨opening.toToken, .parameter hkind hfound hclosed⟩

theorem writes_scalar {content : Scalar} (hlegible : content.IsLegible) :
    Writes limit depth (.scalar content.reread) content.templateChars := by
  refine writes_of_isScalar (Scalar.isLegible_reread hlegible) ?_
  cases content with
  | null => exact yields_word rfl (Or.inr (Or.inr ⟨rfl, rfl⟩))
  | bool flag =>
      cases flag with
      | true => exact yields_word rfl (Or.inl ⟨rfl, rfl⟩)
      | false => exact yields_word rfl (Or.inr (Or.inl ⟨rfl, rfl⟩))
  | number value => exact yields_number (Scalar.shape_of_isLegible hlegible)
  | string text => exact yields_written_string text
  | parameter name => exact yields_parameter hlegible

/-! ### Arrays -/

theorem exists_ok_of_bind {ε α β : Type} {first : Except ε α} {next : α → Except ε β} {result : β}
    (hbind : first >>= next = .ok result) :
    ∃ value, first = .ok value ∧ next value = .ok result := by
  cases first with
  | error reason => contradiction
  | ok value => exact ⟨value, rfl, hbind⟩

theorem itemTemplates_forall₂ {meets : Datum → List Char → Prop} {items : List Datum}
    {texts : List (List Char)}
    (hitems : ∀ item ∈ items, ∀ text, item.templateChars = .ok text → meets item text)
    (htemplates : Datum.itemTemplates items = .ok texts) : List.Forall₂ meets items texts := by
  induction items generalizing texts with
  | nil =>
      cases htemplates
      exact .nil
  | cons item rest ih =>
      rw [Datum.itemTemplates] at htemplates
      obtain ⟨first, hfirst, hmore⟩ := exists_ok_of_bind htemplates
      obtain ⟨others, hothers, hresult⟩ := exists_ok_of_bind hmore
      cases hresult
      constructor
      · exact hitems item List.mem_cons_self first hfirst
      · exact ih (fun later hmem => hitems later (List.mem_cons_of_mem item hmem)) hothers

theorem itemData_of_says {items : List Datum} {parts : List Writing}
    (hparts : List.Forall₂ (fun item part =>
      part.value.Says limit depth item.reread part.lexemes) items parts) :
    Value.itemData (parts.map Writing.value) = Datum.rereadItems items := by
  induction hparts with
  | nil => rfl
  | cons hfirst _ ih => rw [List.map_cons, Value.itemData, hfirst.datum, ih, Datum.rereadItems]

theorem writes_array {items : List Datum} {texts : List (List Char)}
    (hallows : Allows limit (depth + 1))
    (hitems : List.Forall₂ (fun item text => Writes limit (depth + 1) item.reread text) items
      texts) :
    Writes limit depth (.array (Datum.rereadItems items))
      ('[' :: [','].intercalate texts ++ [']']) := by
  let meets (item : Datum) (part : Writing) : Prop :=
    part.value.Says limit (depth + 1) item.reread part.lexemes
  have hrow : Yields (fun lexemes => ∃ parts, Row Writing.lexemes parts lexemes ∧
      List.Forall₂ meets items parts) ([','].intercalate texts) := by
    apply yields_row
    refine hitems.imp ?_
    intro item text hwrites
    refine hwrites.mono ?_
    rintro lexemes ⟨value, hsays⟩
    exact ⟨⟨value, lexemes⟩, rfl, hsays⟩
  have hspells : ∀ item part, meets item part → Spells part.value part.lexemes :=
    fun _ _ hsays => hsays.spells
  refine (yields_array hspells hrow).mono ?_
  rintro lexemes ⟨opener, parts, harray, hmeets⟩
  refine ⟨_, harray, ?_, .array hallows ?_ _⟩
  · rw [Value.datum, itemData_of_says hmeets]
  · intro value hmem
    obtain ⟨part, hpart, rfl⟩ := List.mem_map.mp hmem
    obtain ⟨item, _, hitem⟩ := exists_of_forall₂ hmeets hpart
    exact hitem.admitted

/-! ### Objects -/

/-- The tokens of a property write a slot. -/
structure Property.Says (limit : Option Nat) (depth : Nat) (slot : String × Option Datum)
    (part : Property) : Prop where
  name : part.name.kind = .string
  colon : part.colon.kind = .colon
  key : part.name.string = slot.1
  value : ∃ item, slot.2 = some item ∧
    part.writing.value.Says limit depth item.reread part.writing.lexemes

theorem yields_property {key : String} {item : Datum} {text : List Char}
    (hvalue : Writes limit depth item.reread text) :
    Yields (fun lexemes => ∃ part : Property, part.lexemes = lexemes ∧
      part.Says limit depth (key, some item)) (Quoted.encode key.toList ++ ':' :: text) := by
  obtain ⟨body, hencode, hwhole⟩ := begun?_encode key.toList
  have hchecked : checked .string ('"' :: body) = .string := hencode ▸ checked_encode key.toList
  rw [hencode]
  refine Yields.token hwhole hchecked rfl ?_ (yields_colon hvalue) ?_
  · intro later _
    exact .of_always (fun _ => rfl) _
  · rintro name rest hname htext ⟨colon, lexemes, rfl, hkind, value, hsays⟩
    have hkey := Lexeme.string_of_encode (htext.trans hencode.symm)
    rw [String.ofList_toList] at hkey
    exact ⟨⟨name, colon, ⟨value, lexemes⟩⟩, rfl, hname, hkind, hkey, item, rfl, hsays⟩

theorem slotTemplates_forall₂ {meets : String × Option Datum → List Char → Prop}
    {slots : List (String × Option Datum)} {texts : List (List Char)}
    (hslots : ∀ key item, (key, some item) ∈ slots → ∀ text, item.templateChars = .ok text →
      meets (key, some item) (Quoted.encode key.toList ++ ':' :: text))
    (htemplates : Datum.slotTemplates slots = .ok texts) : List.Forall₂ meets slots texts := by
  induction slots generalizing texts with
  | nil =>
      cases htemplates
      exact .nil
  | cons slot rest ih =>
      obtain ⟨key, entry⟩ := slot
      cases entry with
      | none => contradiction
      | some item =>
          rw [Datum.slotTemplates] at htemplates
          obtain ⟨first, hfirst, hmore⟩ := exists_ok_of_bind htemplates
          obtain ⟨others, hothers, hresult⟩ := exists_ok_of_bind hmore
          cases hresult
          constructor
          · exact hslots key item List.mem_cons_self first hfirst
          · apply ih _ hothers
            intro key item hmem
            exact hslots key item (List.mem_cons_of_mem _ hmem)

theorem memberData_of_says {slots : List (String × Option Datum)} {parts : List Property}
    (hparts : List.Forall₂ (fun slot part => part.Says limit depth slot) slots parts) :
    Value.memberData (parts.map Property.member) = Datum.rereadSlots slots := by
  induction hparts with
  | nil => rfl
  | cons hfirst hrest ih =>
      rename_i slot part slots parts
      obtain ⟨key, entry⟩ := slot
      obtain ⟨item, hentry, hsays⟩ := hfirst.value
      have hkey : part.name.string = key := hfirst.key
      change entry = some item at hentry
      subst hentry
      rw [List.map_cons, Property.member, Value.memberData, hsays.datum, ih, Lexeme.key, hkey,
        Datum.rereadSlots]

theorem Datum.keys_rereadSlots (slots : List (String × Option Datum)) :
    (rereadSlots slots).map Prod.fst = slots.map Prod.fst := by
  induction slots with
  | nil => rfl
  | cons slot rest ih =>
      obtain ⟨key, entry⟩ := slot
      cases entry with
      | none => simp [rereadSlots, ih]
      | some item => simp [rereadSlots, ih]

theorem Property.Says.isSpelled {slot : String × Option Datum} {part : Property}
    (hsaid : part.Says limit depth slot) : part.IsSpelled := by
  obtain ⟨item, _, hitem⟩ := hsaid.value
  exact ⟨hsaid.name, hsaid.colon, hitem.spells⟩

theorem writes_object {slots : List (String × Option Datum)} {texts : List (List Char)}
    (hallows : Allows limit (depth + 1)) (hnodup : (slots.map Prod.fst).Nodup)
    (hslots : ∀ key item, (key, some item) ∈ slots → ∀ text, item.templateChars = .ok text →
      Writes limit (depth + 1) item.reread text)
    (htemplates : Datum.slotTemplates slots = .ok texts) :
    Writes limit depth (.object (Datum.rereadSlots slots))
      ('{' :: ' ' :: [','].intercalate texts ++ [' ', '}']) := by
  have hrow : Yields (fun lexemes => ∃ parts, Row Property.lexemes parts lexemes ∧
      List.Forall₂ (fun slot part => part.Says limit (depth + 1) slot) slots parts)
      ([','].intercalate texts) := by
    apply yields_row
    apply slotTemplates_forall₂ _ htemplates
    intro key item hmem text htext
    exact yields_property (hslots key item hmem text htext)
  -- the blanks inside the braces do not matter, also where nothing is between them
  have hblank : Yields (· = []) [' '] := Yields.nil.blank rfl
  have hspaced := (hrow.trailing hblank (.cons (by decide) [])).blank (c := ' ') rfl
  have hspells : ∀ slot (part : Property), part.Says limit (depth + 1) slot → part.IsSpelled :=
    fun _ _ hsays => hsays.isSpelled
  have hobject := yields_object hspells (by simp) hspaced
  have htext : '{' :: ' ' :: [','].intercalate texts ++ [' ', '}'] =
      '{' :: (' ' :: ([','].intercalate texts ++ [' '])) ++ ['}'] := by simp
  rw [htext]
  refine hobject.mono ?_
  rintro lexemes ⟨opener, parts, hspelled, hmeets⟩
  refine ⟨_, hspelled, ?_, .object hallows ?_ _⟩
  · have hkeys : ((Datum.rereadSlots slots).map Prod.fst).Nodup := by
      rwa [Datum.keys_rereadSlots]
    rw [Value.datum, memberData_of_says hmeets, Slots.ofList_eq_self hkeys]
  · intro key value hmem
    obtain ⟨part, hpart, hmember⟩ := List.mem_map.mp hmem
    obtain ⟨slot, _, hslot⟩ := exists_of_forall₂ hmeets hpart
    obtain ⟨item, _, hitem⟩ := hslot.value
    cases hmember
    exact hitem.admitted

/-! ### Bodies -/

theorem Datum.Admitted.writes {datum : Datum} (hadmitted : datum.Admitted limit depth)
    {text : List Char} (htemplate : datum.templateChars = .ok text) :
    Writes limit depth datum.reread text := by
  induction hadmitted generalizing text with
  | scalar hlegible =>
      cases htemplate
      exact writes_scalar hlegible
  | array hallows hitems ih =>
      rename_i depth items
      rw [templateChars] at htemplate
      obtain ⟨texts, htexts, hresult⟩ := exists_ok_of_bind htemplate
      cases hresult
      exact writes_array hallows
        (itemTemplates_forall₂ (fun item hmem text htext => ih item hmem htext) htexts)
  | object hallows hnodup hslots ih =>
      rw [templateChars] at htemplate
      obtain ⟨texts, htexts, hresult⟩ := exists_ok_of_bind htemplate
      cases hresult
      exact writes_object hallows hnodup
        (fun key item hmem text htext => ih key item hmem htext) htexts

/-- A text that writes a datum is a sentence, if nothing is open around it. -/
theorem Writes.isSentence {datum : Datum} {source : String}
    (hwrites : Writes limit 0 datum source.toList) :
    ∃ value, IsSentence limit (lex source) value ∧ value.datum = datum := by
  obtain ⟨⟨value, hsays⟩, hclosed⟩ := hwrites.lex
  have hallows := hsays.admitted.allows_nesting (Allows.zero limit)
  exact ⟨value, ⟨hclosed, hsays.spells, hallows.mono (by simp)⟩, hsays.datum⟩

/-- Where a body has a template, the template is read without a report as what the body says,
and it is its own template, if every number of the body is read from its text. -/
theorem template_round_trip {options : Options} {source template : String}
    (htemplate : (options.parse source).template = .ok template)
    (hnumbers : ∀ datum, (options.parse source).datum? = some datum →
      ∀ number ∈ datum.numbers, number.Rereads) :
    ((Options.groupWithin options.nestingLimit).parse template).IsSilent ∧
      (∃ first second, (options.parse source).datum? = some first ∧
        ((Options.groupWithin options.nestingLimit).parse template).datum? = some second ∧
        second.same first = true) ∧
      ((Options.groupWithin options.nestingLimit).parse template).template = .ok template := by
  cases hroot : (options.parse source).root with
  | none =>
      rw [Body.template, Body.datum?, hroot] at htemplate
      contradiction
  | some value =>
      have hdatum : (options.parse source).datum? = some value.datum := by
        rw [Body.datum?, hroot, Option.map_some]
      have hadmitted := (admitted_of_root hroot).datum
      have hkeeps := hadmitted.keeps (hnumbers _ hdatum)
      have hchars : value.datum.templateChars = .ok template.toList := by
        rw [Body.template, hdatum] at htemplate
        cases hchars : value.datum.templateChars with
        | error reason =>
            simp [Datum.template, hchars, Except.map] at htemplate
        | ok chars =>
            simp only [Datum.template, hchars, Except.map, Except.ok.injEq] at htemplate
            rw [← htemplate, String.toList_ofList]
      obtain ⟨again, hsentence, hagain⟩ := (hadmitted.writes hchars).isSentence
      rw [parse_of_isSentence hsentence]
      refine ⟨rfl, ⟨value.datum, again.datum, hdatum, rfl, ?_⟩, ?_⟩
      · rw [hagain]
        exact hkeeps.1
      · have htext : again.datum.templateChars = .ok template.toList := by
          rw [hagain, hkeeps.2, hchars]
        change again.datum.template = .ok template
        simp [Datum.template, htext, Except.map]

/-- A body that is cut off in a key has a template without that property. -/
theorem template_round_trip_cut_key :
    ((Options.fragmentWithin (some 2)).parse "\x7b\"a\": [1, \"x\"], \"b").template =
        .ok "\x7b \"a\":[1,\"x\"] \x7d" ∧
      ((Options.groupWithin (some 2)).parse "\x7b \"a\":[1,\"x\"] \x7d").IsSilent ∧
      (∃ first second, ((Options.fragmentWithin (some 2)).parse "\x7b\"a\": [1, \"x\"], \"b").datum? = some first ∧
        ((Options.groupWithin (some 2)).parse "\x7b \"a\":[1,\"x\"] \x7d").datum? = some second ∧
        second.same first = true) ∧
      ((Options.groupWithin (some 2)).parse "\x7b \"a\":[1,\"x\"] \x7d").template =
        .ok "\x7b \"a\":[1,\"x\"] \x7d" := by
  have htemplate : ((Options.fragmentWithin (some 2)).parse "\x7b\"a\": [1, \"x\"], \"b").template =
      .ok "\x7b \"a\":[1,\"x\"] \x7d" := by
    decide +kernel
  have honly : ((Options.fragmentWithin (some 2)).parse
      "\x7b\"a\": [1, \"x\"], \"b").datum?.map Datum.numbers = some [.integer 1] := by
    decide +kernel
  have hone : (Number.integer 1).Rereads := by
    unfold Number.Rereads
    constructor <;> decide +kernel
  have hnumbers : ∀ datum,
      ((Options.fragmentWithin (some 2)).parse "\x7b\"a\": [1, \"x\"], \"b").datum? = some datum →
        ∀ number ∈ datum.numbers, number.Rereads := by
    intro datum hfound number hmem
    rw [hfound, Option.map_some, Option.some.injEq] at honly
    rw [honly, List.mem_singleton] at hmem
    exact hmem ▸ hone
  have hround := template_round_trip htemplate hnumbers
  exact ⟨htemplate, hround⟩

end QueryBody
