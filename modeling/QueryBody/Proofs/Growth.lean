import QueryBody.Datum.Basic
import QueryBody.Proofs.Meaning
import QueryBody.Proofs.Moves
import Mathlib.Tactic

/-!
# Growth of the root

While a body is read, what would be its root if it were cut off grows with every token:
scalars stay as they are, and containers only get more parts at their ends.
-/

namespace QueryBody

namespace Datum

mutual

/-- The first datum may grow into the second one. -/
def Below : Datum → Datum → Prop
  | scalar a, scalar b => a = b
  | array a, array b => ItemsBelow a b
  | object a, object b => SlotsBelow a b
  | _, _ => False

/-- The second list is as long as the first one or longer, and every item of the first one is
below the item in its place. -/
def ItemsBelow : List Datum → List Datum → Prop
  | [], _ => True
  | a :: as, b :: bs => Below a b ∧ ItemsBelow as bs
  | _ :: _, [] => False

/-- The second object has the keys of the first one and maybe more after them, and every value of
the first one is below the value of its key. -/
def SlotsBelow : List (String × Option Datum) → List (String × Option Datum) → Prop
  | [], _ => True
  | (key, none) :: as, (other, none) :: bs => key = other ∧ SlotsBelow as bs
  | (key, some a) :: as, (other, some b) :: bs => key = other ∧ Below a b ∧ SlotsBelow as bs
  | _, _ => False

end

/-- The order of roots; a root that is not there yet is below everything. -/
def RootBelow : Option Datum → Option Datum → Prop
  | none, _ => True
  | some a, some b => Below a b
  | some _, none => False

end Datum

namespace Value

mutual

/-- The first value may grow into the second one, tokens and all. -/
def Below : Value → Value → Prop
  | scalar token content, other => other = scalar token content
  | array opener items, other => ∃ more, other = array opener more ∧ ItemsBelow items more
  | object opener members, other =>
      ∃ more, other = object opener more ∧ MembersBelow members more

def ItemsBelow : List Value → List Value → Prop
  | [], _ => True
  | item :: rest, others =>
      ∃ other more, others = other :: more ∧ Below item other ∧ ItemsBelow rest more

def MembersBelow : List Member → List Member → Prop
  | [], _ => True
  | .bare key :: rest, others => ∃ more, others = .bare key :: more ∧ MembersBelow rest more
  | .pair key value :: rest, others =>
      ∃ other more, others = .pair key other :: more ∧ Below value other ∧ MembersBelow rest more

end

mutual

theorem Below.refl : ∀ value : Value, value.Below value
  | scalar _ _ => rfl
  | array _ items => ⟨items, rfl, ItemsBelow.refl items⟩
  | object _ members => ⟨members, rfl, MembersBelow.refl members⟩

theorem ItemsBelow.refl : ∀ items : List Value, ItemsBelow items items
  | [] => trivial
  | item :: rest => ⟨item, rest, rfl, Below.refl item, ItemsBelow.refl rest⟩

theorem MembersBelow.refl : ∀ members : List Member, MembersBelow members members
  | [] => trivial
  | .bare _ :: rest => ⟨rest, rfl, MembersBelow.refl rest⟩
  | .pair _ value :: rest => ⟨value, rest, rfl, Below.refl value, MembersBelow.refl rest⟩

end

mutual

theorem Below.trans : ∀ {first second third : Value}, first.Below second → second.Below third →
    first.Below third
  | scalar _ _, second, third, hfirst, hsecond => by
      obtain rfl : second = _ := hfirst
      exact hsecond
  | array _ items, second, third, hfirst, hsecond => by
      obtain ⟨more, rfl, hmore⟩ := hfirst
      obtain ⟨most, rfl, hmost⟩ := hsecond
      exact ⟨most, rfl, ItemsBelow.trans hmore hmost⟩
  | object _ members, second, third, hfirst, hsecond => by
      obtain ⟨more, rfl, hmore⟩ := hfirst
      obtain ⟨most, rfl, hmost⟩ := hsecond
      exact ⟨most, rfl, MembersBelow.trans hmore hmost⟩

theorem ItemsBelow.trans : ∀ {first second third : List Value}, ItemsBelow first second →
    ItemsBelow second third → ItemsBelow first third
  | [], _, _, _, _ => trivial
  | item :: rest, second, third, hfirst, hsecond => by
      obtain ⟨other, more, rfl, hitem, hrest⟩ := hfirst
      obtain ⟨last, most, rfl, hother, hmore⟩ := hsecond
      exact ⟨last, most, rfl, Below.trans hitem hother, ItemsBelow.trans hrest hmore⟩

theorem MembersBelow.trans : ∀ {first second third : List Member}, MembersBelow first second →
    MembersBelow second third → MembersBelow first third
  | [], _, _, _, _ => trivial
  | .bare key :: rest, second, third, hfirst, hsecond => by
      obtain ⟨more, rfl, hrest⟩ := hfirst
      obtain ⟨most, rfl, hmore⟩ := hsecond
      exact ⟨most, rfl, MembersBelow.trans hrest hmore⟩
  | .pair key value :: rest, second, third, hfirst, hsecond => by
      obtain ⟨other, more, rfl, hvalue, hrest⟩ := hfirst
      obtain ⟨last, most, rfl, hother, hmore⟩ := hsecond
      exact ⟨last, most, rfl, Below.trans hvalue hother, MembersBelow.trans hrest hmore⟩

end

/-- More items after the same ones. -/
theorem itemsBelow_append (items : List Value) {first second : List Value}
    (hbelow : ItemsBelow first second) : ItemsBelow (items ++ first) (items ++ second) := by
  induction items with
  | nil => exact hbelow
  | cons item rest ih => exact ⟨item, rest ++ second, rfl, Below.refl item, ih⟩

theorem membersBelow_append (members : List Member) {first second : List Member}
    (hbelow : MembersBelow first second) : MembersBelow (members ++ first) (members ++ second) := by
  induction members with
  | nil => exact hbelow
  | cons member rest ih =>
      cases member with
      | bare key => exact ⟨rest ++ second, rfl, ih⟩
      | pair key value => exact ⟨value, rest ++ second, rfl, Below.refl value, ih⟩

/-- The order of roots that are values. -/
def RootBelow : Option Value → Option Value → Prop
  | none, _ => True
  | some first, some second => first.Below second
  | some _, none => False

theorem RootBelow.refl (root : Option Value) : RootBelow root root := by
  cases root with
  | none => trivial
  | some value => exact Below.refl value

theorem RootBelow.trans {first second third : Option Value} (hfirst : RootBelow first second)
    (hsecond : RootBelow second third) : RootBelow first third := by
  cases first with
  | none => trivial
  | some first =>
      cases second with
      | none => contradiction
      | some second =>
          cases third with
          | none => contradiction
          | some third => exact Below.trans hfirst hsecond

end Value

/-! ### Containers grow -/

open Value

namespace Hole

theorem discard_below_fill (hole : Hole) (value : Option Value) :
    hole.discard.value.Below (hole.fill value).value := by
  cases hole with
  | item opener items =>
      cases value with
      | none => exact Below.refl _
      | some value =>
          refine ⟨_, rfl, ?_⟩
          rw [List.reverse_cons]
          have hmore : ItemsBelow (items.reverse ++ []) (items.reverse ++ [value]) :=
            itemsBelow_append items.reverse trivial
          rwa [List.append_nil] at hmore
  | property opener members key =>
      refine ⟨_, rfl, ?_⟩
      rw [List.reverse_cons]
      have hmore : MembersBelow (members.reverse ++ []) (members.reverse ++ [.of key value]) :=
        membersBelow_append members.reverse trivial
      rwa [List.append_nil] at hmore

theorem fill_below_fill (hole : Hole) {first second : Value} (hbelow : first.Below second) :
    (hole.fill (some first)).value.Below (hole.fill (some second)).value := by
  cases hole with
  | item opener items =>
      refine ⟨_, rfl, ?_⟩
      rw [List.reverse_cons, List.reverse_cons]
      exact itemsBelow_append items.reverse ⟨second, [], rfl, hbelow, trivial⟩
  | property opener members key =>
      refine ⟨_, rfl, ?_⟩
      rw [List.reverse_cons, List.reverse_cons]
      exact membersBelow_append members.reverse ⟨second, [], rfl, hbelow, trivial⟩

end Hole

namespace Container

theorem cutOff_cons (container : Container) (hole : Hole) (rest : List Hole) :
    container.cutOff (hole :: rest) =
      if container.isEmpty then hole.discard.cutOff rest
      else (hole.fill (some container.value)).cutOff rest := rfl

/-- A container with parts does not become empty. -/
theorem isEmpty_of_below {first second : Container} (hbelow : first.value.Below second.value)
    (hempty : second.isEmpty = true) : first.isEmpty = true := by
  cases first with
  | array opener items =>
      obtain ⟨more, hvalue, hitems⟩ := hbelow
      cases second with
      | object other members => contradiction
      | array other others =>
          obtain rfl : others = [] := by simpa [isEmpty] using hempty
          cases hvalue
          cases hreverse : items.reverse with
          | nil => simpa [isEmpty] using hreverse
          | cons item rest =>
              rw [hreverse] at hitems
              obtain ⟨_, _, hnil, _⟩ := hitems
              contradiction
  | object opener members =>
      obtain ⟨more, hvalue, hmembers⟩ := hbelow
      cases second with
      | array other items => contradiction
      | object other others =>
          obtain rfl : others = [] := by simpa [isEmpty] using hempty
          cases hvalue
          cases hreverse : members.reverse with
          | nil => simpa [isEmpty] using hreverse
          | cons member rest =>
              rw [hreverse] at hmembers
              cases member <;> obtain ⟨_, hnil⟩ := hmembers
              · cases hnil.1
              · obtain ⟨_, hnil, _⟩ := hnil
                contradiction

/-- What is left out of a container that grows can only come back. -/
theorem cutOff_below_cutOff {first second : Container} (holes : List Hole)
    (hbelow : first.value.Below second.value) :
    (first.cutOff holes).Below (second.cutOff holes) := by
  induction holes generalizing first second with
  | nil => exact hbelow
  | cons hole rest ih =>
      rw [cutOff_cons, cutOff_cons]
      cases hfirst : first.isEmpty with
      | true =>
          cases hsecond : second.isEmpty with
          | true => exact Below.refl _
          | false => exact ih (hole.discard_below_fill _)
      | false =>
          have hsecond : second.isEmpty = false := by
            by_contra hempty
            rw [isEmpty_of_below hbelow (by simpa using hempty)] at hfirst
            contradiction
          rw [hsecond]
          exact ih (hole.fill_below_fill hbelow)

theorem cutOff_below_enclose (container : Container) (holes : List Hole) :
    (container.cutOff holes).Below (container.enclose holes) := by
  induction holes generalizing container with
  | nil => exact Below.refl _
  | cons hole rest ih =>
      have hfill := ih (hole.fill (some container.value))
      rw [cutOff_cons]
      split
      · exact (cutOff_below_cutOff rest (hole.discard_below_fill _)).trans hfill
      · exact hfill

end Container

namespace Hole

theorem cutOff_below_abandon (holes : List Hole) : RootBelow (cutOff holes) (abandon holes) := by
  cases holes with
  | nil => trivial
  | cons hole rest =>
      have hdiscard := Container.cutOff_below_cutOff rest (hole.discard_below_fill none)
      exact hdiscard.trans (Container.cutOff_below_enclose _ rest)

end Hole

/-! ### A run only adds to the root -/

namespace Reader

variable {setting : Setting} {lexeme : Lexeme}

theorem cutRoot_deliver_none (holes : List Hole) (reports : List Diagnostic) :
    RootBelow (Hole.cutOff holes) (deliver none holes reports).cutRoot := by
  cases holes with
  | nil => trivial
  | cons hole rest => exact Container.cutOff_below_cutOff rest (hole.discard_below_fill none)

theorem cutRoot_deliver_some (value : Value) (holes : List Hole) (reports : List Diagnostic) :
    RootBelow (Hole.cutOff holes) (deliver (some value) holes reports).cutRoot := by
  cases holes with
  | nil => trivial
  | cons hole rest =>
      exact Container.cutOff_below_cutOff rest (hole.discard_below_fill (some value))

/-- A container that is closed is no longer left out if it is empty. -/
theorem cutRoot_deliver_container (container : Container) (holes : List Hole)
    (reports : List Diagnostic) :
    RootBelow (some (container.cutOff holes))
      (deliver (some container.value) holes reports).cutRoot := by
  cases holes with
  | nil => exact Below.refl _
  | cons hole rest =>
      change (container.cutOff (hole :: rest)).Below
        ((hole.fill (some container.value)).cutOff rest)
      rw [Container.cutOff_cons]
      split
      · exact Container.cutOff_below_cutOff rest (hole.discard_below_fill _)
      · exact Below.refl _

theorem Turn.cutRoot_below {first last : Reader} (hturn : Turn setting lexeme first last) :
    RootBelow first.cutRoot last.cutRoot := by
  cases hturn with
  | item => exact RootBelow.refl _
  | missingValue => exact cutRoot_deliver_none _ _
  | noProperty => exact RootBelow.refl _
  | missingComma => exact RootBelow.refl _
  | noPart => exact RootBelow.refl _
  | resume => exact RootBelow.refl _
  | resumePart => exact RootBelow.refl _
  | mismatched => exact cutRoot_deliver_container _ _ _
  | mismatchedPart => exact cutRoot_deliver_container _ _ _
  | missingColon => exact RootBelow.refl _
  | noPair =>
      rename_i opener members key holes reports _ _ _
      exact Container.cutOff_below_cutOff holes
        ((Hole.property opener members key).discard_below_fill none)
  | noName => exact RootBelow.refl _
  | noMarker => exact cutRoot_deliver_none _ _
  | resumeParameter => exact cutRoot_deliver_none _ _

/-- A bracket opens a container that is left out while it is empty, unless it is the root. -/
theorem cutRoot_opening (opener : Token) (hole : Hole) (rest : List Hole) :
    (Container.ofOpener opener).cutOff (hole :: rest) = hole.discard.cutOff rest := by
  rw [Container.cutOff_cons, Container.ofOpener]
  split <;> rfl

theorem Shift.cutRoot_below {first last : Reader} (hshift : Shift setting lexeme first last) :
    RootBelow first.cutRoot last.cutRoot := by
  cases hshift with
  | cut => exact RootBelow.refl _
  | tooDeep => exact Hole.cutOff_below_abandon _
  | opening =>
      rename_i holes reports _ _
      cases holes with
      | nil => trivial
      | cons hole rest =>
          change (hole.discard.cutOff rest).Below _
          rw [cutRoot_opening]
          exact Below.refl _
  | parameterOpen => exact RootBelow.refl _
  | scalar => exact cutRoot_deliver_some _ _ _
  | noValue => exact cutRoot_deliver_none _ _
  | name => exact RootBelow.refl _
  | colon => exact RootBelow.refl _
  | parameterName => exact RootBelow.refl _
  | parameterClose => exact cutRoot_deliver_some _ _ _
  | comma => exact RootBelow.refl _
  | extraComma => exact RootBelow.refl _
  | close => exact cutRoot_deliver_container _ _ _
  | closePart => exact cutRoot_deliver_container _ _ _
  | pass => exact RootBelow.refl _
  | passParameter => exact RootBelow.refl _
  | brokenMarker => exact cutRoot_deliver_none _ _
  | excess => exact RootBelow.refl _
  | stopped => exact RootBelow.refl _

theorem cutRoot_below_take (setting : Setting) (reader : Reader) (lexeme : Lexeme) :
    RootBelow reader.cutRoot (reader.take setting lexeme).cutRoot := by
  refine take_induction (fun later => RootBelow reader.cutRoot later.cutRoot)
    (fun later => RootBelow reader.cutRoot later.cutRoot) ?_ ?_ (RootBelow.refl _)
  · intro first last hturn hfirst
    exact hfirst.trans hturn.cutRoot_below
  · intro first last hshift hfirst
    exact hfirst.trans hshift.cutRoot_below

/-- Whatever the tokens are, a body that is cut off later has a root that continues the one of a
body that is cut off earlier. -/
theorem cutRoot_below_run (setting : Setting) (reader : Reader) (lexemes : List Lexeme) :
    RootBelow reader.cutRoot (reader.run setting lexemes).cutRoot := by
  induction lexemes generalizing reader with
  | nil => exact RootBelow.refl _
  | cons lexeme rest ih =>
      refine RootBelow.trans ?_ (ih (reader.step setting lexeme))
      unfold step ignore
      split
      · split <;> exact RootBelow.refl _
      · exact cutRoot_below_take setting reader lexeme

end Reader

/-! ### What a growing root says -/

namespace Value

/-- No object of the value repeats a key. -/
inductive HasDistinctKeys : Value → Prop
  | scalar (token : Token) (content : Scalar) : HasDistinctKeys (.scalar token content)
  | array {items : List Value} (opener : Token)
      (hitems : ∀ item ∈ items, HasDistinctKeys item) : HasDistinctKeys (.array opener items)
  | object {members : List Member} (opener : Token)
      (hnodup : (members.map fun member => member.key.text).Nodup)
      (hmembers : ∀ key value, .pair key value ∈ members → HasDistinctKeys value) :
      HasDistinctKeys (.object opener members)

theorem keys_memberData (members : List Member) :
    (memberData members).map Prod.fst = members.map fun member => member.key.text := by
  induction members with
  | nil => rfl
  | cons member rest ih => cases member <;> simp [memberData, Member.key, ih]

theorem keys_prefix_of_below {first second : List Member} (hbelow : MembersBelow first second) :
    (first.map fun member => member.key.text) <+: second.map fun member => member.key.text := by
  induction first generalizing second with
  | nil => exact List.nil_prefix
  | cons member rest ih =>
      cases member with
      | bare key =>
          obtain ⟨more, rfl, hrest⟩ := hbelow
          exact List.cons_prefix_cons.mpr ⟨rfl, ih hrest⟩
      | pair key value =>
          obtain ⟨other, more, rfl, _, hrest⟩ := hbelow
          exact List.cons_prefix_cons.mpr ⟨rfl, ih hrest⟩

mutual

/-- A value repeats no key if it grows into one that does not. -/
theorem hasDistinctKeys_of_below : ∀ {first second : Value}, first.Below second →
    second.HasDistinctKeys → first.HasDistinctKeys
  | scalar token content, _, _, _ => .scalar token content
  | array opener items, second, hbelow, hkeys => by
      obtain ⟨more, rfl, hitems⟩ := hbelow
      cases hkeys with
      | array _ hmore => exact .array opener (itemsHaveDistinctKeys_of_below hitems hmore)
  | object opener members, second, hbelow, hkeys => by
      obtain ⟨more, rfl, hmembers⟩ := hbelow
      cases hkeys with
      | object _ hnodup hmore =>
          have hbeginning := keys_prefix_of_below hmembers
          exact .object opener (hnodup.sublist hbeginning.sublist)
            (membersHaveDistinctKeys_of_below hmembers hmore)

theorem itemsHaveDistinctKeys_of_below : ∀ {first second : List Value}, ItemsBelow first second →
    (∀ item ∈ second, item.HasDistinctKeys) → ∀ item ∈ first, item.HasDistinctKeys
  | [], _, _, _ => by simp
  | item :: rest, second, hbelow, hkeys => by
      obtain ⟨other, more, rfl, hitem, hrest⟩ := hbelow
      have hother := List.forall_mem_cons.mp hkeys
      exact List.forall_mem_cons.mpr ⟨hasDistinctKeys_of_below hitem hother.1,
        itemsHaveDistinctKeys_of_below hrest hother.2⟩

theorem membersHaveDistinctKeys_of_below : ∀ {first second : List Member},
    MembersBelow first second →
    (∀ key value, .pair key value ∈ second → value.HasDistinctKeys) →
      ∀ key value, .pair key value ∈ first → value.HasDistinctKeys
  | [], _, _, _ => by simp
  | .bare _ :: rest, second, hbelow, hkeys => by
      obtain ⟨more, rfl, hrest⟩ := hbelow
      have hmore := membersHaveDistinctKeys_of_below hrest
        (fun key value hmem => hkeys key value (List.mem_cons_of_mem _ hmem))
      intro key value hmem
      exact hmore key value (by simpa using hmem)
  | .pair name value :: rest, second, hbelow, hkeys => by
      obtain ⟨other, more, rfl, hvalue, hrest⟩ := hbelow
      have hmore := membersHaveDistinctKeys_of_below hrest
        (fun key value hmem => hkeys key value (List.mem_cons_of_mem _ hmem))
      intro key found hmem
      rcases List.mem_cons.mp hmem with hfirst | hlater
      · cases hfirst
        exact hasDistinctKeys_of_below hvalue (hkeys name other List.mem_cons_self)
      · exact hmore key found hlater

end

/-- Without repeated keys the slots of an object are its members. -/
theorem datum_object_of_nodup {opener : Token} {members : List Member}
    (hnodup : (members.map fun member => member.key.text).Nodup) :
    (object opener members).datum = .object (memberData members) := by
  rw [datum, Slots.ofList_eq_self]
  rwa [keys_memberData]

mutual

/-- Without repeated keys, what a value says grows with the value. -/
theorem datum_below : ∀ {first second : Value}, first.Below second → second.HasDistinctKeys →
    first.datum.Below second.datum
  | scalar token content, second, hbelow, _ => by
      obtain rfl : second = _ := hbelow
      rfl
  | array opener items, second, hbelow, hkeys => by
      obtain ⟨more, rfl, hitems⟩ := hbelow
      cases hkeys with
      | array _ hmore => exact itemData_below hitems hmore
  | object opener members, second, hbelow, hkeys => by
      have hfirst := hasDistinctKeys_of_below hbelow hkeys
      obtain ⟨more, rfl, hmembers⟩ := hbelow
      cases hfirst with
      | object _ hnodup _ =>
      cases hkeys with
      | object _ hnodupMore hmore =>
          rw [datum_object_of_nodup hnodup, datum_object_of_nodup hnodupMore]
          exact memberData_below hmembers hmore

theorem itemData_below : ∀ {first second : List Value}, ItemsBelow first second →
    (∀ item ∈ second, item.HasDistinctKeys) →
      Datum.ItemsBelow (itemData first) (itemData second)
  | [], _, _, _ => by simp [itemData, Datum.ItemsBelow]
  | item :: rest, second, hbelow, hkeys => by
      obtain ⟨other, more, rfl, hitem, hrest⟩ := hbelow
      have hother := List.forall_mem_cons.mp hkeys
      exact ⟨datum_below hitem hother.1, itemData_below hrest hother.2⟩

theorem memberData_below : ∀ {first second : List Member}, MembersBelow first second →
    (∀ key value, .pair key value ∈ second → value.HasDistinctKeys) →
      Datum.SlotsBelow (memberData first) (memberData second)
  | [], _, _, _ => by simp [memberData, Datum.SlotsBelow]
  | .bare _ :: rest, second, hbelow, hkeys => by
      obtain ⟨more, rfl, hrest⟩ := hbelow
      exact ⟨rfl, memberData_below hrest
        (fun key value hmem => hkeys key value (List.mem_cons_of_mem _ hmem))⟩
  | .pair name value :: rest, second, hbelow, hkeys => by
      obtain ⟨other, more, rfl, hvalue, hrest⟩ := hbelow
      exact ⟨rfl, datum_below hvalue (hkeys name other List.mem_cons_self),
        memberData_below hrest
          (fun key value hmem => hkeys key value (List.mem_cons_of_mem _ hmem))⟩

end

theorem RootBelow.datum {first second : Option Value} (hbelow : RootBelow first second)
    (hkeys : ∀ value, second = some value → value.HasDistinctKeys) :
    Datum.RootBelow (first.map Value.datum) (second.map Value.datum) := by
  cases first with
  | none => trivial
  | some first =>
      cases second with
      | none => contradiction
      | some second => exact datum_below hbelow (hkeys second rfl)

end Value
end QueryBody
