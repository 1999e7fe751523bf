import QueryBody.Proofs.DescentValues
import Mathlib.Tactic

/-!
# Containers in the descent

Each part of a container leaves it with one part more, or as it was, and the reader is
then after the part.
-/

namespace QueryBody
namespace Descent

variable {input : Input} {outcome : Reader.Outcome} {hole : Hole} {holes : List Hole}
  {reports : List Diagnostic} {tail : List Lexeme} {fuel : Nat} {form : Form}

/-- The rest of the body is left in a container: it is cut off there, or it is ignored. -/
inductive LeftIn (outcome : Reader.Outcome) (holes : List Hole) (last : State) : Prop
  | cut {container : Container}
      (hcut : CutAt outcome (some (container.cutOff holes)) (workIn container holes) last)
  | abandoned {container : Container}
      (habandoned : AbandonedAt outcome (some (container.enclose holes))
        (workIn container holes) last)

theorem LeftIn.shouldStop {last : State} (hleft : LeftIn outcome holes last) :
    shouldStop last = .ok (true, last) := by
  cases hleft with
  | cut hcut => exact hcut.shouldStop
  | abandoned habandoned => exact habandoned.shouldStop

inductive Passed (input : Input) (outcome : Reader.Outcome) (form : Form) (holes : List Hole)
    (looks : Nat) (tail : List Lexeme) (fuel : Nat) : State → Prop
  | next {container : Container} {next : List Lexeme} {reports : List Diagnostic} {left : Nat}
      (hholds : form.Holds container)
      (hagrees : Agrees input outcome ⟨.separator container, holes, reports⟩
        (workIn container holes) next)
      (hmoved : Moved looks tail fuel next left)
      (hends : next.length < tail.length ∨ IsSync .valueRecovery next) :
      Passed input outcome form holes looks tail fuel
        (live next reports left (workIn container holes))
  | left {last : State} (hleft : LeftIn outcome holes last) :
      Passed input outcome form holes looks tail fuel last

theorem Passed.after {first looks middle : Nat} {before : List Lexeme} {last : State}
    (hpassed : Passed input outcome form holes looks tail middle last)
    (htaken : Taken first before tail middle) :
    Passed input outcome form holes (first + looks) before fuel last := by
  cases hpassed with
  | next hholds hagrees hmoved hends =>
      have hall := htaken.trans hmoved
      exact .next hholds hagrees (hall.moved le_rfl) (Or.inl hall.shorter)
  | left hleft => exact .left hleft

theorem Passed.trans {first looks middle : Nat} {before : List Lexeme} {last : State}
    (hmoved : Moved first before fuel tail middle)
    (hpassed : Passed input outcome form holes looks tail middle last) :
    Passed input outcome form holes (first + looks) before fuel last := by
  cases hpassed with
  | next hholds hagrees hmore hends =>
      exact .next hholds hagrees (hmoved.trans hmore) (hends.imp_left hmoved.length_le.trans_lt')
  | left hleft => exact .left hleft

theorem Passed.weaken {first second : Nat} {last : State}
    (hpassed : Passed input outcome form holes first tail fuel last) (hle : first ≤ second) :
    Passed input outcome form holes second tail fuel last := by
  cases hpassed with
  | next hholds hagrees hmoved hends => exact .next hholds hagrees (hmoved.weaken hle) hends
  | left hleft => exact .left hleft

/-- The number of nodes before a part. -/
def markOf (hole : Hole) (holes : List Hole) : Nat :=
  (nodesWith hole.discard.value holes).length

theorem take_layout (hole : Hole) (holes : List Hole) :
    (layout (hole :: holes)).take (markOf hole holes) = nodesWith hole.discard.value holes := by
  rw [layout_cons, markOf, List.take_left]

theorem take_nodesWith (value : Value) (hole : Hole) (holes : List Hole) :
    (nodesWith value (hole :: holes)).take (markOf hole holes) =
      nodesWith hole.discard.value holes := by
  rw [nodesWith, layout_cons, List.append_assoc, markOf, List.take_left]

/-- How the value of a hole gets into its container, and how the lack of one. -/
structure Fills (hole : Hole) (holes : List Hole) (keep : Nat → Run Unit) (lack : Run Unit) :
    Prop where
  keep (value : Value) (state : State)
    (hnodes : state.work.nodes = nodesWith value (hole :: holes)) :
    keep (place (hole :: holes)) state =
      .ok ((), state.withNodes (nodesWith (hole.fill (some value)).value holes))
  lack (state : State) (hnodes : state.work.nodes = layout (hole :: holes)) :
    lack state = .ok ((), state.withNodes (nodesWith (hole.fill none).value holes))

theorem fills_item (opener : Token) (items : List Value) (holes : List Hole) :
    Fills (.item opener items) holes (pushElement (place holes)) (return ()) where
  keep value state hnodes := by
    obtain ⟨ids, hrevised⟩ := revised_item value opener items holes
    rw [← hnodes] at hrevised
    exact pushElement_of_revised hrevised
  lack state hnodes := by
    rw [layout_item] at hnodes
    rw [Hole.fill, ← hnodes]
    rfl

theorem fills_property (opener : Token) (members : List Member) (key : Key)
    (holes : List Hole) :
    Fills (.property opener members key) holes
      (fun id => insertProperty (place holes) key.text
        ⟨namePlace opener members holes, some id⟩)
      (insertProperty (place holes) key.text ⟨namePlace opener members holes, none⟩) where
  keep value state hnodes := by
    obtain ⟨entries, hrevised⟩ := revised_pair value opener members key holes
    rw [← hnodes] at hrevised
    exact insertProperty_of_revised hrevised
  lack state hnodes := by
    obtain ⟨entries, hrevised⟩ := revised_bare opener members key holes
    rw [← hnodes] at hrevised
    exact insertProperty_of_revised hrevised

/-- The container of a part is the innermost one while the part is read. -/
theorem workAt_withNodes {container : Container} (hopener : container.opener = hole.opener) :
    { workAt (hole :: holes) with nodes := nodesWith container.value holes } =
      workIn container holes := by
  rw [workIn, workAt, hopener]
  rfl

theorem work_withNodes {container : Container} {state : State} {nodes : List Node}
    (hopener : container.opener = hole.opener)
    (hwork : state.work = { workAt (hole :: holes) with nodes }) :
    (state.withNodes (nodesWith container.value holes)).work = workIn container holes := by
  rw [← workAt_withNodes hopener, State.withNodes, hwork]

theorem CutAt.withNodes {container : Container} {root : Option Value} {last : State}
    {nodes : List Node} (hopener : container.opener = hole.opener)
    (hcut : CutAt outcome root { workAt (hole :: holes) with nodes } last) :
    CutAt outcome root (workIn container holes)
      (last.withNodes (nodesWith container.value holes)) :=
  ⟨hcut.isCut, work_withNodes hopener hcut.work_eq, hcut.outcome_eq⟩

theorem AbandonedAt.withNodes {container : Container} {root : Option Value} {last : State}
    {nodes : List Node} (hopener : container.opener = hole.opener)
    (habandoned : AbandonedAt outcome root { workAt (hole :: holes) with nodes } last) :
    AbandonedAt outcome root (workIn container holes)
      (last.withNodes (nodesWith container.value holes)) :=
  ⟨habandoned.isCut, habandoned.isAbandoned, work_withNodes hopener habandoned.work_eq,
    habandoned.outcome_eq⟩

variable {looks : Nat} {keep : Nat → Run Unit} {lack : Run Unit} {last : State}

theorem runs_cutPart (hole : Hole)
    (hcut : CutAt outcome (Hole.cutOff (hole :: holes)) (workAt (hole :: holes)) last) :
    Runs (rollback (markOf hole holes)) last fun _ final =>
      Passed input outcome form holes looks tail fuel final := by
  refine ⟨(), _, rollback_eq _, ?_⟩
  rw [hcut.work_eq, workAt, take_layout]
  exact .left (.cut (CutAt.withNodes (Hole.opener_discard hole) hcut))

/-- A container that is cut off is a part unless it is empty. -/
theorem runs_cutValue {container : Container} (hfills : Fills hole holes keep lack)
    (hcut : CutAt outcome (some (container.cutOff (hole :: holes)))
      (workWith container.value (hole :: holes)) last) :
    Runs (keepCut (some (place (hole :: holes))) (markOf hole holes) keep) last fun _ final =>
      Passed input outcome form holes looks tail fuel final := by
  have hnodes : last.work.nodes = nodesWith container.value (hole :: holes) := by
    rw [hcut.work_eq, workWith]
  refine .step (isEmptyContainer_of_container hnodes) ?_
  rw [Container.cutOff] at hcut
  split
  next hempty =>
    rw [if_pos hempty] at hcut
    refine ⟨(), _, rollback_eq _, ?_⟩
    rw [hnodes, take_nodesWith]
    exact .left (.cut (CutAt.withNodes (Hole.opener_discard hole) hcut))
  next hempty =>
    rw [if_neg hempty] at hcut
    refine ⟨(), _, hfills.keep container.value last hnodes, ?_⟩
    exact .left (.cut (CutAt.withNodes (Hole.opener_fill hole _) hcut))

/-- After a value that could not be read the rest of its part is skipped. -/
theorem runs_lack (hfills : Fills hole holes keep lack)
    (hholds : form.Holds (hole.fill none)) (hfuel : 1 < fuel)
    (hagrees : Agrees input outcome (Reader.deliver none (hole :: holes) reports)
      (workAt (hole :: holes)) tail) :
    Runs (do
        skipUntil input .valueRecovery
        lack)
      (live tail reports fuel (workAt (hole :: holes))) fun _ final =>
      Passed input outcome form holes 1 tail fuel final := by
  refine .bind (runs_skipPart hfuel hagrees) ?_
  rintro _ _ ⟨hskipped, hsync, hmoved⟩
  refine ⟨(), _, hfills.lack _ rfl, ?_⟩
  rename_i next reports left
  change Passed input outcome form holes 1 tail fuel (live next reports left
    { workAt (hole :: holes) with nodes := nodesWith (hole.fill none).value holes })
  rw [workAt_withNodes (Hole.opener_fill hole none)]
  refine .next hholds (hskipped.rework ?_) hmoved (Or.inr hsync)
  rw [workIn, length_nodesWith_fill_none]
  exact hskipped.room

/-- A part whose value has been read is kept, and one whose value is missing is passed. -/
theorem runs_settle (hfills : Fills hole holes keep lack)
    (hholds : ∀ value, form.Holds (hole.fill value)) (hfuel : 8 < fuel) {value : Option Nat}
    (hreturned : Returned input outcome (hole :: holes) tail fuel value last) :
    Runs (settle input value (markOf hole holes) keep lack) last fun _ final =>
      Passed input outcome form holes 5 tail fuel final := by
  refine .step rfl ?_
  cases hreturned with
  | found hagrees hshort =>
      rename_i value next reports
      refine ⟨(), _, hfills.keep value _ rfl, ?_⟩
      change Passed input outcome form holes 5 tail fuel (live next reports fullFuel
        { workAt (hole :: holes) with nodes := nodesWith (hole.fill (some value)).value holes })
      rw [workAt_withNodes (Hole.opener_fill hole (some value))]
      refine .next (hholds _) (hagrees.rework ?_) ?_ (Or.inl hshort)
      · rw [workIn, length_nodesWith_fill_some]
        exact hagrees.room
      · exact Taken.moved ⟨hshort, le_rfl⟩ (Nat.zero_le _)
  | missing hagrees hmoved =>
      rename_i next reports left
      have hleft : 1 < left := hmoved.lt_left (by omega) (by decide)
      exact (runs_lack hfills (hholds none) hleft hagrees).mono fun _ _ => Passed.trans hmoved
  | cut hcut =>
      rw [if_pos hcut.isCut]
      exact runs_cutPart hole hcut
  | cutIn hcut =>
      rw [if_pos hcut.isCut]
      exact runs_cutValue hfills hcut
  | abandoned habandoned hrest hleft =>
      -- Nothing is left to be skipped, but the lack of the value is still noted.
      rw [if_neg (by simp [habandoned.isCut])]
      refine .step (skipUntil_of_nil _ hrest hleft) ?_
      refine ⟨(), _, hfills.lack _ (by rw [habandoned.work_eq, workAt]), ?_⟩
      exact .left (.abandoned (AbandonedAt.withNodes (Hole.opener_fill hole none)
        ⟨habandoned.isCut, habandoned.isAbandoned, habandoned.work_eq, habandoned.outcome_eq⟩))
  | abandonedIn habandoned =>
      rename_i container
      rw [if_neg (by simp [habandoned.isCut])]
      refine ⟨(), _, hfills.keep container.value last (by rw [habandoned.work_eq, workWith]), ?_⟩
      exact .left (.abandoned (AbandonedAt.withNodes (Hole.opener_fill hole _) habandoned))

/-- Reading a value does what it should before any shorter rest of the body. -/
def ReadsValue (input : Input) (outcome : Reader.Outcome) (read : Option Nat → Run (Option Nat))
    (bound : Nat) : Prop :=
  ∀ {holes : List Hole} {reports : List Diagnostic} {tail : List Lexeme} {fuel : Nat},
    tail.length < bound → 8 < fuel → holes ≠ [] ∨ ahead tail ≠ [] →
    Agrees input outcome ⟨.value, holes, reports⟩ (workAt holes) tail →
    Runs (read (owner holes)) (live tail reports fuel (workAt holes))
      (Returned input outcome holes tail fuel)

variable {read : Option Nat → Run (Option Nat)} {bound : Nat} {opener : Token}
  {items : List Value} {members : List Member} {comma : Option Token} {key : Key}
  {lexeme : Lexeme} {rest : List Lexeme}

theorem runs_element (hread : ReadsValue input outcome read bound)
    (hbound : (lexeme :: rest).length < bound) (hfuel : 8 < fuel)
    (htrivia : lexeme.kind.isTrivia = false) (hbrace : lexeme.kind ≠ .braceClose)
    (hbracket : lexeme.kind ≠ .bracketClose) (hopener : opener.kind = .bracketOpen)
    (hagrees : Agrees input outcome ⟨.part (.array opener items) comma, holes, reports⟩
      (workIn (.array opener items) holes) (lexeme :: rest)) :
    Runs (element input read (place holes))
      (live (lexeme :: rest) reports fuel (workIn (.array opener items) holes)) fun _ last =>
      Passed input outcome .array holes 5 (lexeme :: rest) fuel last := by
  rw [← workAt_item] at hagrees ⊢
  have hvalue := hagrees.look htrivia (Reader.take_item hbrace hbracket) rfl
  have hmark : mark (live (lexeme :: rest) reports fuel (workAt (.item opener items :: holes))) =
      .ok (markOf (.item opener items) holes,
        live (lexeme :: rest) reports fuel (workAt (.item opener items :: holes))) := by
    rw [workAt, layout_item]
    rfl
  refine .step hmark (.bind (hread hbound hfuel (Or.inl (List.cons_ne_nil _ _)) hvalue) ?_)
  intro value last hreturned
  refine runs_settle (fills_item opener items holes) ?_ hfuel hreturned
  intro value
  cases value <;> exact ⟨rfl, hopener⟩

theorem runs_propertyValue (hread : ReadsValue input outcome read bound)
    (hbound : tail.length < bound) (hfuel : 8 < fuel) (hopener : opener.kind = .braceOpen)
    (hagrees : Agrees input outcome ⟨.value, .property opener members key :: holes, reports⟩
      (workAt (.property opener members key :: holes)) tail) :
    Runs (propertyValue input read (place holes) (namePlace opener members holes) key.text
        (namePlace opener members holes))
      (live tail reports fuel (workAt (.property opener members key :: holes))) fun _ last =>
      Passed input outcome .object holes 5 tail fuel last := by
  refine runs_atCut hagrees rfl (Or.inl rfl) (fun last hcut => runs_cutPart _ hcut) ?_
  intro reports next hnear huncut hnext
  have hshort := hnear.length_le.trans_lt hbound
  refine .bind (hread hshort hfuel (Or.inl (List.cons_ne_nil _ _)) hnext) ?_
  intro value last hreturned
  refine (runs_settle (fills_property opener members key holes) (fun _ => ⟨rfl, hopener⟩) hfuel
    hreturned).mono fun _ _ hpassed => ?_
  exact (Passed.trans hnear.moved hpassed).weaken (by omega)

theorem alloc_name (opener : Token) (members : List Member) (holes : List Hole)
    (hroom : (workIn (.object opener members) holes).nodes.length < UInt32.size) :
    alloc (.scalar (.string lexeme.string)) lexeme.toToken (some (place holes))
        (live tail reports fuel (workIn (.object opener members) holes)) =
      .ok (namePlace opener members holes,
        live tail reports fuel (workAt (.property opener members lexeme.key :: holes))) := by
  rw [workAt_property]
  exact alloc_live _ _ _ hroom

theorem runs_noPair (hfuel : 1 < fuel) (hopener : opener.kind = .braceOpen)
    (hagrees : Agrees input outcome
      ⟨.skip 0 (.object opener (.bare key :: members)) .separator, holes, reports⟩
      (workAt (.property opener members key :: holes)) tail) :
    Runs (do
        skipUntil input .valueRecovery
        insertProperty (place holes) key.text ⟨namePlace opener members holes, none⟩)
      (live tail reports fuel (workAt (.property opener members key :: holes))) fun _ last =>
      Passed input outcome .object holes 1 tail fuel last :=
  runs_lack (fills_property opener members key holes) ⟨rfl, hopener⟩ hfuel hagrees

/-- After its name a property gets its value or lacks it, with or without a colon. -/
theorem runs_afterName (hread : ReadsValue input outcome read bound) (hbound : tail.length < bound)
    (hfuel : 11 < fuel) (hopener : opener.kind = .braceOpen)
    (hagrees : Agrees input outcome ⟨.colon opener members key, holes, reports⟩
      (workAt (.property opener members key :: holes)) tail) :
    Runs (do
        if ← atCut input then rollback (namePlace opener members holes)
        else
          match ← eat input .colon with
          | some _ =>
              propertyValue input read (place holes) (namePlace opener members holes) key.text
                (namePlace opener members holes)
          | none =>
              errorFound input .expectedColon
              if KindSet.valueFirst.contains (← current input) then
                propertyValue input read (place holes) (namePlace opener members holes) key.text
                  (namePlace opener members holes)
              else
                skipUntil input .valueRecovery
                insertProperty (place holes) key.text ⟨namePlace opener members holes, none⟩)
      (live tail reports fuel (workAt (.property opener members key :: holes))) fun _ last =>
      Passed input outcome .object holes 8 tail fuel last := by
  refine runs_atCut hagrees rfl (Or.inl rfl)
    (fun last hcut => runs_cutPart (.property opener members key) hcut) ?_
  intro reports next hnear huncut hcolon
  have hshort : next.length < bound := hnear.length_le.trans_lt hbound
  refine runs_eat (by decide) hcolon (by omega) ?_ ?_ ?_
  · intro reports hnext hahead
    have hstrict : input.setting.allowsFragments = false := huncut.atEnd hnext
    have hmoved : Moved 3 tail fuel [] (fuel - 3) :=
      hnear.moved.trans (moved_ahead hnext 3 (by omega))
    refine .step (errorFound_end _ (by omega)) (.step (current_end (by omega)) ?_)
    refine (runs_noPair (by omega) hopener (hahead.atEnd ?_ rfl)).mono fun _ _ hpassed => ?_
    · simp [Reader.finish, Reader.endAfterName, hstrict]
      rfl
    · exact (Passed.trans hmoved hpassed).weaken (by omega)
  · intro reports other more hnext hother hahead
    have htrivia := isTrivia_of_ahead hnext
    have hmoved : Moved 3 tail fuel (other :: more) (fuel - 3) :=
      hnear.moved.trans (moved_ahead hnext 3 (by omega))
    refine .step (errorFound_token _ htrivia hahead.mem_head (by omega)) ?_
    refine .step (current_token htrivia (by omega)) ?_
    split
    next hfirst =>
      have hvalue := hahead.turn htrivia (.missingColon (huncut.token hnext) hother hfirst)
      refine (runs_propertyValue hread ?_ (by omega) hopener hvalue).mono fun _ _ hpassed => ?_
      · exact hmoved.length_le.trans_lt hbound
      · exact Passed.trans hmoved hpassed
    next hfirst =>
      rw [Bool.not_eq_true] at hfirst
      have hskip := hahead.turn htrivia (.noPair (huncut.token hnext) hother hfirst)
      refine (runs_noPair (by omega) hopener hskip).mono fun _ _ hpassed => ?_
      exact (Passed.trans hmoved hpassed).weaken (by omega)
  · intro reports colon more hnext hkind hahead
    have htaken := taken_next hnext hnear.length_le
    have hvalue := hahead.take (isTrivia_of_ahead hnext)
      (Reader.take_colon (huncut.token hnext) hkind _ _ _ _ _) rfl
    refine (runs_propertyValue hread ?_ (by decide) hopener hvalue).mono fun _ _ hpassed => ?_
    · exact htaken.shorter.trans hbound
    · exact (hpassed.after htaken).weaken (by omega)

theorem runs_property (hread : ReadsValue input outcome read bound)
    (hbound : (lexeme :: rest).length < bound) (hfuel : 1 < fuel)
    (htrivia : lexeme.kind.isTrivia = false) (hkind : lexeme.kind = .string)
    (hopen : input.setting.isCutIn lexeme = false) (hopener : opener.kind = .braceOpen)
    (hagrees : Agrees input outcome ⟨.part (.object opener members) comma, holes, reports⟩
      (workIn (.object opener members) holes) (lexeme :: rest)) :
    Runs (property input read (place holes))
      (live (lexeme :: rest) reports fuel (workIn (.object opener members) holes)) fun _ last =>
      Passed input outcome .object holes 8 (lexeme :: rest) fuel last := by
  have hroom := hagrees.room_next
  have htaken : Taken 0 (lexeme :: rest) rest fullFuel := ⟨Nat.lt_succ_self _, le_rfl⟩
  have hmark : mark (live (lexeme :: rest) reports (fuel - 1)
        (workIn (.object opener members) holes)) =
      .ok (namePlace opener members holes, live (lexeme :: rest) reports (fuel - 1)
        (workIn (.object opener members) holes)) := rfl
  have hcolon : Agrees input outcome ⟨.colon opener members lexeme.key, holes, reports⟩
      (workAt (.property opener members lexeme.key :: holes)) rest := by
    refine (hagrees.take htrivia ?_ rfl).rework ?_
    · exact Reader.take_part_name hopen hkind _ _ _ _ _
    · rw [workAt_property, List.length_append]
      exact hroom
  rw [property, ← hkind]
  refine .step (assertCurrent_token htrivia hfuel) (.step hmark (.step (bump_token htrivia) ?_))
  refine .step (stringValue_of_mem hagrees.mem_head hkind) ?_
  refine .step (alloc_name opener members holes (by omega)) ?_
  refine (runs_afterName hread ?_ (by decide) hopener hcolon).mono fun _ _ hpassed => ?_
  · exact htaken.shorter.trans hbound
  · exact (hpassed.after htaken).weaken (by omega)

theorem runs_noPart {container : Container} (hholds : form.Holds container) (hfuel : 1 < fuel)
    (hagrees : Agrees input outcome ⟨.skip 0 container .separator, holes, reports⟩
      (workIn container holes) tail) :
    Runs (skipUntil input .valueRecovery) (live tail reports fuel (workIn container holes))
      fun _ last => Passed input outcome form holes 1 tail fuel last := by
  refine (runs_skipPart hfuel hagrees).mono ?_
  rintro _ _ ⟨hskipped, hsync, hmoved⟩
  exact .next hholds hskipped hmoved (Or.inr hsync)

theorem pass_of_isLexicalError (herror : lexeme.kind.isLexicalError = true) :
    KindSet.valueRecovery.contains lexeme.kind = false ∧ Reader.pass lexeme 0 = 0 := by
  unfold Reader.pass
  cases hkind : lexeme.kind <;> rw [hkind] at herror <;>
    first | contradiction | exact ⟨rfl, rfl⟩

theorem runs_member (hread : ReadsValue input outcome read bound)
    (hbound : (lexeme :: rest).length < bound) (hfuel : 8 < fuel)
    (htrivia : lexeme.kind.isTrivia = false) (hbrace : lexeme.kind ≠ .braceClose)
    (hbracket : lexeme.kind ≠ .bracketClose) (hopen : input.setting.isCutIn lexeme = false)
    (hopener : opener.kind = .braceOpen)
    (hagrees : Agrees input outcome ⟨.part (.object opener members) comma, holes, reports⟩
      (workIn (.object opener members) holes) (lexeme :: rest)) :
    Runs (member input read (place holes) lexeme.kind)
      (live (lexeme :: rest) reports fuel (workIn (.object opener members) holes)) fun _ last =>
      Passed input outcome .object holes 8 (lexeme :: rest) fuel last := by
  have hfull : fullFuel = 256 := rfl
  have hholds : Form.object.Holds (.object opener members) := ⟨rfl, hopener⟩
  have hahead := ahead_cons htrivia rest
  unfold member
  split
  next hkind => exact runs_property hread hbound (by omega) htrivia hkind hopen hopener hagrees
  next hstring =>
    split
    next hcomma =>
      refine ⟨(), _, errorFound_token _ htrivia hagrees.mem_head (by omega), ?_⟩
      refine .next hholds (hagrees.look htrivia (Reader.take_extraComma hcomma) rfl) ?_
        (Or.inr ?_)
      · exact (moved_ahead hahead 1 (by omega)).weaken (by omega)
      · rintro other more ⟨⟩
        exact ⟨htrivia, by rw [hcomma]; rfl⟩
    next hcomma =>
      have hrecovery := KindSet.not_valueRecovery hcomma hbrace hbracket
      have hskip := hagrees.turn htrivia (.noProperty hopen hrecovery hstring)
      unfold errorNoProperty
      rw [Report.noProperty] at hskip
      split
      next herror =>
        rw [if_pos herror] at hskip
        refine .step (errorBadValue_token htrivia hagrees.mem_head (by omega)) ?_
        obtain ⟨hpassed, hdepth⟩ := pass_of_isLexicalError herror
        have hrest := hskip.take htrivia
          ((skips_part _ .separator holes).pass 0 lexeme _ (by simp [hpassed])) rfl
        rw [hdepth] at hrest
        refine (runs_noPart hholds (by omega) hrest).mono fun _ _ hpassed => ?_
        have htaken := taken_next hahead (le_refl (lexeme :: rest).length)
        exact (hpassed.after htaken).weaken (by omega)
      next herror =>
        rw [if_neg herror] at hskip
        refine .step (errorFound_token _ htrivia hagrees.mem_head (by omega)) ?_
        refine (runs_noPart hholds (by omega) hskip).mono fun _ _ hpassed => ?_
        exact (Passed.trans (moved_ahead hahead 1 (by omega)) hpassed).weaken (by omega)

/-- A part of a container, or what stands in its place. -/
theorem runs_part {container : Container} (hholds : form.Holds container)
    (hread : ReadsValue input outcome read bound) (hbound : (lexeme :: rest).length < bound)
    (hfuel : 8 < fuel) (htrivia : lexeme.kind.isTrivia = false)
    (hbrace : lexeme.kind ≠ .braceClose) (hbracket : lexeme.kind ≠ .bracketClose)
    (hopen : input.setting.isCutIn lexeme = false)
    (hagrees : Agrees input outcome ⟨.part container comma, holes, reports⟩
      (workIn container holes) (lexeme :: rest)) :
    Runs (part input read form (place holes) lexeme.kind)
      (live (lexeme :: rest) reports fuel (workIn container holes)) fun _ last =>
      Passed input outcome form holes 8 (lexeme :: rest) fuel last := by
  cases container with
  | array opener items =>
      obtain ⟨rfl, hopener⟩ := hholds
      refine (runs_element hread hbound hfuel htrivia hbrace hbracket hopener hagrees).mono
        fun _ _ hpassed => ?_
      exact hpassed.weaken (by omega)
  | object opener members =>
      obtain ⟨rfl, hopener⟩ := hholds
      exact runs_member hread hbound hfuel htrivia hbrace hbracket hopen hopener hagrees

end Descent
end QueryBody
