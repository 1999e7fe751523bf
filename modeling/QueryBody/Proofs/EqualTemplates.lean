import QueryBody.Proofs.LiteralParts
import QueryBody.Proofs.Origins
import QueryBody.Proofs.RoundTrip
import Mathlib.Tactic

/-!
# Equal templates

A template is read in one way only, so it determines what it was made from, up to numbers that
do not come back.  Integers and literals out of range come back as they are: where a datum
has no other numbers, its template determines it.
-/

namespace QueryBody

/-! ### Parts of placed values -/

/-- The scalar can be the text of a token, and if it is an integer, it fits. -/
def Label.IsRead (label : Label) : Prop :=
  ∀ content, label.head = .scalar content → content.IsLegible ∧
    ∀ value, content = .number (.finite (.integer value)) → Number.Fits value

theorem Label.WrittenIn.isRead {source : String} {label : Label}
    (hwritten : label.WrittenIn (significant (lex source))) : label.IsRead := by
  have hlegible : ∀ lexeme ∈ significant (lex source), lexeme.IsLegible :=
    fun lexeme hmem => isLegible_of_mem_lex (List.mem_of_mem_filter hmem)
  cases hwritten with
  | scalar hmem hsaid =>
      rename_i lexeme content
      rintro _ ⟨⟩
      cases hsaid with
      | number hkind =>
          refine ⟨Scalar.isLegible_of_read ((hlegible lexeme hmem).number hkind), ?_⟩
          intro value hvalue
          exact Number.fits_of_read (Scalar.number.inj hvalue)
      | _ => exact ⟨trivial, by simp⟩
  | parameter hlexemes hopening hname hclosing =>
      rename_i front back opening name closing
      rintro _ ⟨⟩
      have hmem : name ∈ significant (lex source) := by simp [hlexemes]
      have hnamed := (hlegible name hmem).name hname
      refine ⟨?_, by simp⟩
      rwa [Scalar.IsLegible, Lexeme.word, String.toList_ofList]
  | array hmem hkind => exact fun _ hhead => by contradiction
  | object hmem hkind => exact fun _ hhead => by contradiction

theorem isRead_of_mem_labels {options : Options} {source : String} {id : Nat} {place : Place}
    (hget : (options.parse source).tree.get? id = some place) {label : Label}
    (hmem : label ∈ place.value.labels) : label.IsRead := by
  have hplaces := Tree.places_subset (List.mem_of_getElem? hget)
  have hlabels := List.map_subset (fun place : Place => place.value.label) hplaces
  rw [Value.map_label_places, Tree.map_label_places] at hlabels
  exact ((labels_parse options source).2 label (hlabels hmem)).isRead

namespace Datum

/-- The numbers in the datum are integers. -/
def HasNoFloat (datum : Datum) : Prop :=
  ∀ number ∈ datum.numbers, ∃ value, number = .integer value

theorem exists_of_mem_itemNumbers {items : List Datum} {number : Number}
    (hmem : number ∈ itemNumbers items) : ∃ item ∈ items, number ∈ item.numbers := by
  induction items with
  | nil => contradiction
  | cons item rest ih =>
      rw [itemNumbers, List.mem_append] at hmem
      rcases hmem with hfirst | hrest
      · exact ⟨item, List.mem_cons_self, hfirst⟩
      · obtain ⟨found, hfound, hnumber⟩ := ih hrest
        exact ⟨found, List.mem_cons_of_mem item hfound, hnumber⟩

theorem exists_of_mem_slotNumbers {slots : List (String × Option Datum)} {number : Number}
    (hmem : number ∈ slotNumbers slots) :
    ∃ key item, (key, some item) ∈ slots ∧ number ∈ item.numbers := by
  induction slots with
  | nil => contradiction
  | cons slot rest ih =>
      have hlater (hrest : number ∈ slotNumbers rest) :
          ∃ key item, (key, some item) ∈ slot :: rest ∧ number ∈ item.numbers := by
        obtain ⟨key, item, hfound, hnumber⟩ := ih hrest
        exact ⟨key, item, List.mem_cons_of_mem slot hfound, hnumber⟩
      obtain ⟨key, entry⟩ := slot
      cases entry with
      | none => exact hlater hmem
      | some item =>
          rw [slotNumbers, List.mem_append] at hmem
          rcases hmem with hfirst | hrest
          · exact ⟨key, item, List.mem_cons_self, hfirst⟩
          · exact hlater hrest

end Datum

namespace Value

theorem labels_subset_of_mem_items {items : List Value} {item : Value} (hmem : item ∈ items) :
    item.labels ⊆ itemLabels items := by
  induction items with
  | nil => contradiction
  | cons first rest ih =>
      rw [itemLabels]
      rcases List.mem_cons.mp hmem with rfl | hrest
      · exact List.subset_append_left _ _
      · exact List.subset_append_of_subset_right _ (ih hrest)

theorem labels_subset_of_mem_members {members : List Member} {key : Key} {value : Value}
    (hmem : .pair key value ∈ members) : value.labels ⊆ memberLabels members := by
  induction members with
  | nil => contradiction
  | cons member rest ih =>
      rcases List.mem_cons.mp hmem with rfl | hrest
      · rw [memberLabels, List.cons_append]
        exact List.subset_cons_of_subset _ (List.subset_append_left _ _)
      · cases member with
        | bare name =>
            rw [memberLabels]
            exact List.subset_cons_of_subset _ (ih hrest)
        | pair name first =>
            rw [memberLabels, List.cons_append]
            exact List.subset_cons_of_subset _ (List.subset_append_of_subset_right _ (ih hrest))

mutual

theorem admitted_of_isRead : ∀ (value : Value) (depth : Nat),
    (∀ label ∈ value.labels, label.IsRead) → value.Admitted none depth
  | scalar token content, _, hread =>
      .scalar (hread _ List.mem_cons_self content rfl).1 token
  | array opener items, depth, hread => by
      refine .array (fun _ hnone => by contradiction) ?_ opener
      exact items_admitted_of_isRead items (depth + 1)
        fun label hmem => hread label (List.mem_cons_of_mem _ hmem)
  | object opener members, depth, hread => by
      refine .object (fun _ hnone => by contradiction) ?_ opener
      exact members_admitted_of_isRead members (depth + 1)
        fun label hmem => hread label (List.mem_cons_of_mem _ hmem)

theorem items_admitted_of_isRead : ∀ (items : List Value) (depth : Nat),
    (∀ label ∈ itemLabels items, label.IsRead) → ∀ item ∈ items, item.Admitted none depth
  | [], _, _, _, hmem => by contradiction
  | first :: rest, depth, hread, item, hmem => by
      rw [itemLabels] at hread
      rcases List.mem_cons.mp hmem with hfirst | hrest
      · rw [hfirst]
        exact admitted_of_isRead first depth
          fun label hlabel => hread label (List.mem_append_left _ hlabel)
      · exact items_admitted_of_isRead rest depth
          (fun label hlabel => hread label (List.mem_append_right _ hlabel)) item hrest

theorem members_admitted_of_isRead : ∀ (members : List Member) (depth : Nat),
    (∀ label ∈ memberLabels members, label.IsRead) →
      ∀ key value, .pair key value ∈ members → value.Admitted none depth
  | [], _, _, _, _, hmem => by contradiction
  | .bare name :: rest, depth, hread, key, value, hmem => by
      rw [memberLabels] at hread
      have hrest : .pair key value ∈ rest := by simpa using hmem
      exact members_admitted_of_isRead rest depth
        (fun label hlabel => hread label (List.mem_cons_of_mem _ hlabel)) key value hrest
  | .pair name first :: rest, depth, hread, key, value, hmem => by
      rw [memberLabels, List.cons_append] at hread
      rcases List.mem_cons.mp hmem with hfirst | hrest
      · rw [(Member.pair.inj hfirst).2]
        exact admitted_of_isRead first depth fun label hlabel =>
          hread label (List.mem_cons_of_mem _ (List.mem_append_left _ hlabel))
      · exact members_admitted_of_isRead rest depth (fun label hlabel =>
          hread label (List.mem_cons_of_mem _ (List.mem_append_right _ hlabel))) key value hrest

end

/-- The numbers in a datum are labels of its value. -/
theorem Admitted.exists_label {limit : Option Nat} {depth : Nat} {value : Value}
    (hadmitted : value.Admitted limit depth) {number : Number}
    (hmem : number ∈ value.datum.numbers) :
    ∃ token, ⟨token, .scalar (.number (.finite number))⟩ ∈ value.labels := by
  induction hadmitted with
  | scalar hlegible token =>
      rename_i content
      cases content with
      | number numeral =>
          cases numeral with
          | finite found =>
              obtain rfl := List.mem_singleton.mp hmem
              exact ⟨token, List.mem_cons_self⟩
          | outOfRange text => contradiction
      | _ => contradiction
  | array hallows hitems opener ih =>
      obtain ⟨found, hfound, hnumber⟩ := Datum.exists_of_mem_itemNumbers hmem
      obtain ⟨item, hitem, rfl⟩ := mem_itemData hfound
      obtain ⟨token, hlabel⟩ := ih item hitem hnumber
      exact ⟨token, List.mem_cons_of_mem _ (labels_subset_of_mem_items hitem hlabel)⟩
  | object hallows hmembers opener ih =>
      obtain ⟨key, found, hfound, hnumber⟩ := Datum.exists_of_mem_slotNumbers hmem
      obtain ⟨name, item, hitem, rfl⟩ := mem_memberData (Slots.mem_of_mem_ofList hfound)
      obtain ⟨token, hlabel⟩ := ih name item hitem hnumber
      exact ⟨token, List.mem_cons_of_mem _ (labels_subset_of_mem_members hitem hlabel)⟩

end Value

/-! ### Data without floats -/

theorem Scalar.same_iff_eq {first second : Scalar} (hexact : (Datum.scalar first).HasNoFloat) :
    first.same second = true ↔ first = second := by
  cases first with
  | number numeral =>
      cases numeral with
      | finite number =>
          obtain ⟨value, rfl⟩ := hexact number List.mem_cons_self
          cases second with
          | number other =>
              obtain (_ | _) | _ := other <;> simp [same, Numeral.same, Number.same]
          | _ => simp [same]
      | outOfRange text =>
          cases second with
          | number other => cases other <;> simp [same, Numeral.same]
          | _ => simp [same]
  | _ => cases second <;> simp [same]

namespace Datum

mutual

theorem same_iff_eq : ∀ first second : Datum, first.HasNoFloat →
    (first.same second = true ↔ first = second)
  | scalar content, second, hexact => by
      cases second with
      | scalar other =>
          rw [same, scalar.injEq]
          exact Scalar.same_iff_eq hexact
      | _ => simp [same]
  | array items, second, hexact => by
      cases second with
      | array others =>
          rw [same, array.injEq]
          exact sameItems_iff_eq items others hexact
      | _ => simp [same]
  | object slots, second, hexact => by
      cases second with
      | object others =>
          rw [same, object.injEq]
          exact sameSlots_iff_eq slots others hexact
      | _ => simp [same]

theorem sameItems_iff_eq : ∀ items others : List Datum,
    (∀ number ∈ itemNumbers items, ∃ value, number = .integer value) →
      (sameItems items others = true ↔ items = others)
  | [], others, _ => by cases others <;> simp [sameItems]
  | item :: rest, others, hexact => by
      rw [itemNumbers] at hexact
      cases others with
      | nil => simp [sameItems]
      | cons other more =>
          have hitem := same_iff_eq item other
            fun number hmem => hexact number (List.mem_append_left _ hmem)
          have hrest := sameItems_iff_eq rest more
            fun number hmem => hexact number (List.mem_append_right _ hmem)
          rw [sameItems, Bool.and_eq_true, hitem, hrest, List.cons.injEq]

theorem sameSlots_iff_eq : ∀ slots others : List (String × Option Datum),
    (∀ number ∈ slotNumbers slots, ∃ value, number = .integer value) →
      (sameSlots slots others = true ↔ slots = others)
  | [], others, _ => by cases others <;> simp [sameSlots]
  | (key, none) :: rest, others, hexact => by
      obtain _ | ⟨⟨name, _ | other⟩, more⟩ := others
      · simp [sameSlots]
      · simp [sameSlots, sameSlots_iff_eq rest more hexact]
      · simp [sameSlots]
  | (key, some item) :: rest, others, hexact => by
      rw [slotNumbers] at hexact
      obtain _ | ⟨⟨name, _ | other⟩, more⟩ := others
      · simp [sameSlots]
      · simp [sameSlots]
      · have hitem := same_iff_eq item other
          fun number hmem => hexact number (List.mem_append_left _ hmem)
        have hrest := sameSlots_iff_eq rest more
          fun number hmem => hexact number (List.mem_append_right _ hmem)
        simp [sameSlots, hitem, hrest]

end

theorem rereadItems_eq_self {items : List Datum} (hitems : ∀ item ∈ items, item.reread = item) :
    rereadItems items = items := by
  induction items with
  | nil => rfl
  | cons item rest ih =>
      have hrest := ih fun later hmem => hitems later (List.mem_cons_of_mem item hmem)
      rw [rereadItems, hitems item List.mem_cons_self, hrest]

theorem rereadSlots_eq_self {slots : List (String × Option Datum)}
    (hslots : ∀ key item, (key, some item) ∈ slots → item.reread = item) :
    rereadSlots slots = slots := by
  induction slots with
  | nil => rfl
  | cons slot rest ih =>
      have hrest := ih fun key item hmem => hslots key item (List.mem_cons_of_mem slot hmem)
      obtain ⟨key, entry⟩ := slot
      cases entry with
      | none => rw [rereadSlots, hrest]
      | some item => rw [rereadSlots, hslots key item List.mem_cons_self, hrest]

/-- Numbers that are read from their texts come back as they are, and so does the datum. -/
theorem Admitted.reread_eq_self {limit : Option Nat} {depth : Nat} {datum : Datum}
    (hadmitted : datum.Admitted limit depth)
    (hnumbers : ∀ number ∈ datum.numbers, Numeral.read number.chars = .finite number) :
    datum.reread = datum := by
  induction hadmitted with
  | scalar hlegible =>
      rename_i content
      rw [reread]
      cases content with
      | number numeral =>
          cases numeral with
          | finite number =>
              rw [Scalar.reread, Numeral.text, Number.toList_text,
                hnumbers number List.mem_cons_self]
          | outOfRange text => rw [Scalar.reread, Numeral.text, hlegible.2]
      | _ => rfl
  | array hallows hitems ih =>
      rename_i items
      have hkept := rereadItems_eq_self fun item hmem => ih item hmem fun number hnumber =>
        hnumbers number (numbers_subset_of_mem_items hmem number hnumber)
      rw [reread, hkept]
  | object hallows hnodup hslots ih =>
      rename_i slots
      have hkept := rereadSlots_eq_self fun key item hmem => ih key item hmem fun number hnumber =>
        hnumbers number (numbers_subset_of_mem_slots hmem number hnumber)
      rw [reread, hkept]

/-- Data with one template are equal, once their numbers have been read again. -/
theorem Admitted.reread_eq_of_template {first second : Datum} (hfirst : first.Admitted none 0)
    (hsecond : second.Admitted none 0) {text : List Char}
    (hfirstText : first.templateChars = .ok text) (hsecondText : second.templateChars = .ok text) :
    first.reread = second.reread := by
  let source := String.ofList text
  have hsource : source.toList = text := String.toList_ofList
  rw [← hsource] at hfirstText hsecondText
  obtain ⟨value, hvalue, hdatum⟩ := (hfirst.writes hfirstText).isSentence
  obtain ⟨other, hother, hagain⟩ := (hsecond.writes hsecondText).isSentence
  -- both are what the one parse of the template gives
  have hparse : (⟨some value, .empty, false⟩ : Body) = ⟨some other, .empty, false⟩ :=
    (parse_of_isSentence hvalue).symm.trans (parse_of_isSentence hother)
  cases hparse
  rw [← hdatum, ← hagain]

theorem templateChars_of_template {datum : Datum} {text : String}
    (htemplate : datum.template = .ok text) : datum.templateChars = .ok text.toList := by
  cases hchars : datum.templateChars with
  | error reason => simp [template, hchars, Except.map] at htemplate
  | ok chars =>
      simp only [template, hchars, Except.map, Except.ok.injEq] at htemplate
      rw [← htemplate, String.toList_ofList]

end Datum

theorem reread_eq_self_of_get? {options : Options} {source : String} {id : Nat} {place : Place}
    (hget : (options.parse source).tree.get? id = some place)
    (hexact : place.value.datum.HasNoFloat) :
    place.value.datum.Admitted none 0 ∧ place.value.datum.reread = place.value.datum := by
  have hvalue := place.value.admitted_of_isRead 0 fun label hmem => isRead_of_mem_labels hget hmem
  refine ⟨hvalue.datum, hvalue.datum.reread_eq_self ?_⟩
  intro number hmem
  obtain ⟨value, rfl⟩ := hexact number hmem
  obtain ⟨token, hlabel⟩ := hvalue.exists_label hmem
  have hread := isRead_of_mem_labels hget hlabel _ rfl
  exact Number.read_integer (hread.2 value rfl)

/-- Places without floats that have templates are the same exactly if their templates are. -/
theorem same_iff_template_eq {options other : Options} {source text : String} {id place : Nat}
    {first second : Place} (hfirst : (options.parse source).tree.get? id = some first)
    (hsecond : (other.parse text).tree.get? place = some second)
    (hfirstExact : first.value.datum.HasNoFloat) (hsecondExact : second.value.datum.HasNoFloat)
    {template again : String} (hfirstText : first.value.datum.template = .ok template)
    (hsecondText : second.value.datum.template = .ok again) :
    first.value.datum.same second.value.datum = true ↔ template = again := by
  rw [Datum.same_iff_eq _ _ hfirstExact]
  constructor
  · intro heq
    rw [heq, hsecondText] at hfirstText
    exact (Except.ok.inj hfirstText).symm
  · rintro rfl
    obtain ⟨hfirstAdmitted, hfirstReread⟩ := reread_eq_self_of_get? hfirst hfirstExact
    obtain ⟨hsecondAdmitted, hsecondReread⟩ := reread_eq_self_of_get? hsecond hsecondExact
    have hsame := hfirstAdmitted.reread_eq_of_template hsecondAdmitted
      (Datum.templateChars_of_template hfirstText) (Datum.templateChars_of_template hsecondText)
    rwa [hfirstReread, hsecondReread] at hsame

/-- An array in an object, and one that is cut off after its last item and spells a string in
another way. -/
theorem same_iff_template_eq_cut_array :
    let body := Options.group.parse "\x7b\"a\": [-12, 1e4000000000, \"A\"]\x7d"
    let cut := ({} : Options).parse "[-12, 1e4000000000, \"\\u0041\", "
    ∃ first second, body.tree.get? 2 = some first ∧ cut.tree.get? 0 = some second ∧
      first.value.datum.template = .ok "[-12,1e4000000000,\"A\"]" ∧
      second.value.datum.template = .ok "[-12,1e4000000000,\"A\"]" ∧
      first.value.datum.same second.value.datum = true := by
  intro body cut
  have hfirstSays : (body.tree.get? 2).map (fun place =>
      (place.value.datum.template, place.value.datum.numbers)) =
        some (.ok "[-12,1e4000000000,\"A\"]", [.integer (-12)]) := by
    decide +kernel
  have hsecondSays : (cut.tree.get? 0).map (fun place =>
      (place.value.datum.template, place.value.datum.numbers)) =
        some (.ok "[-12,1e4000000000,\"A\"]", [.integer (-12)]) := by
    decide +kernel
  obtain ⟨first, hfirst, hfirstPair⟩ := Option.map_eq_some_iff.mp hfirstSays
  obtain ⟨second, hsecond, hsecondPair⟩ := Option.map_eq_some_iff.mp hsecondSays
  obtain ⟨hfirstText, hfirstNumbers⟩ := Prod.mk.inj hfirstPair
  obtain ⟨hsecondText, hsecondNumbers⟩ := Prod.mk.inj hsecondPair
  have hfirstExact : first.value.datum.HasNoFloat := by
    simp [Datum.HasNoFloat, hfirstNumbers]
  have hsecondExact : second.value.datum.HasNoFloat := by
    simp [Datum.HasNoFloat, hsecondNumbers]
  have hiff := same_iff_template_eq hfirst hsecond hfirstExact hsecondExact hfirstText hsecondText
  exact ⟨first, second, hfirst, hsecond, hfirstText, hsecondText, hiff.mpr rfl⟩

end QueryBody
