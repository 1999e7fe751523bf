import QueryBody.Proofs.DescentContainers
import Mathlib.Tactic

/-!
# The descent never breaks down

Every production ends without a fault, and with the values and reports of the reader.
-/

namespace QueryBody
namespace Descent

variable {input : Input} {outcome : Reader.Outcome} {holes : List Hole}
  {reports : List Diagnostic} {tail : List Lexeme} {fuel : Nat} {form : Form}
  {read : Option Nat → Run (Option Nat)} {bound : Nat} {comma : Option Token}
  {lexeme : Lexeme} {rest : List Lexeme}

/-- What reading the parts of a container and its closing bracket comes to. -/
inductive Closed (input : Input) (outcome : Reader.Outcome) (holes : List Hole)
    (bound : Nat) : State → Prop
  | closed {container : Container} {next : List Lexeme} {reports : List Diagnostic} {left : Nat}
      (hagrees : Agrees input outcome (Reader.deliver (some container.value) holes reports)
        (workIn container holes) next)
      (hlength : next.length ≤ bound) :
      Closed input outcome holes bound (live next reports left (workIn container holes))
  | left {last : State} (hleft : LeftIn outcome holes last) :
      Closed input outcome holes bound last

theorem Closed.mono {more : Nat} {last : State}
    (hclosed : Closed input outcome holes bound last) (hle : bound ≤ more) :
    Closed input outcome holes more last := by
  cases hclosed with
  | closed hagrees hlength => exact .closed hagrees (hlength.trans hle)
  | left hleft => exact .left hleft

theorem isClosing_of_endsContainer {lexeme : Lexeme} (hmem : lexeme ∈ lex input.source)
    (hends : endsContainer lexeme.kind = true) :
    lexeme.kind = .braceClose ∨ lexeme.kind = .bracketClose := by
  have hinside := kind_ne_endOfInput hmem
  unfold endsContainer at hends
  split at hends
  next hkind => exact Or.inl hkind
  next hkind => exact Or.inr hkind
  next hkind => exact absurd hkind hinside
  · contradiction

/-- Whatever stands in the place of a part, one token is taken before the next part begins. -/
theorem taken_of_separated {looks left : Nat} {lexeme : Lexeme} {rest next : List Lexeme}
    (hbrace : lexeme.kind ≠ .braceClose) (hbracket : lexeme.kind ≠ .bracketClose)
    (htrivia : lexeme.kind.isTrivia = false)
    (hmoved : Moved looks (lexeme :: rest) fuel next left)
    (hends : next.length < (lexeme :: rest).length ∨ IsSync .valueRecovery next)
    {final : List Lexeme} {still : Nat} (hseparated : Moved 3 next left final still)
    (hcomma : ∀ other more, ahead next = other :: more → other.kind = .comma →
      final.length < next.length) :
    Taken (looks + 3) (lexeme :: rest) final still := by
  refine (hmoved.trans hseparated).taken htrivia ?_
  have hfinal := hseparated.length_le
  have hnext := hmoved.length_le
  by_cases hshort : next.length < (lexeme :: rest).length
  · omega
  · -- Nothing has been taken, so the part was a comma, and the separator has taken that.
    have hsync := hends.resolve_left hshort
    rcases hmoved with ⟨⟨hsame, _⟩, _⟩ | htaken
    · rw [ahead_cons htrivia] at hsame
      have hrecovery := hsync.contains_of_ahead hsame
      have hkind : lexeme.kind = .comma := by
        by_contra hother
        rw [KindSet.not_valueRecovery hother hbrace hbracket] at hrecovery
        contradiction
      have hless := hcomma lexeme rest hsame hkind
      omega
    · exact absurd htaken.shorter hshort

theorem closeMismatched_eq {container : Container} {state : State}
    (hwork : state.work = workIn container holes) :
    closeMismatched input state = errorUnclosed input container.opener state := by
  rw [closeMismatched, run_get, hwork]
  rfl

theorem runs_unclosed {container : Container} (hholds : form.Holds container)
    (hstrict : input.setting.allowsFragments = false)
    (hagrees : Agrees input outcome ⟨.part container comma, holes, reports⟩
      (workIn container holes) []) :
    Runs (closeMismatched input) (live [] reports fuel (workIn container holes)) fun _ last =>
      Closed input outcome holes bound last := by
  refine ⟨(), _, (closeMismatched_eq rfl).trans (errorUnclosed_end hholds), ?_⟩
  refine .closed (hagrees.atEnd ?_ (Reader.isStopped_deliver _ _ _)) (Nat.zero_le _)
  exact (Reader.finish_unclosed hstrict container holes reports).symm

theorem runs_mismatched {container : Container} (hholds : form.Holds container)
    (htrivia : lexeme.kind.isTrivia = false) (hends : endsContainer lexeme.kind = true)
    (hcloser : lexeme.kind ≠ container.closer) (hlength : (lexeme :: rest).length ≤ bound)
    (hagrees : Agrees input outcome ⟨.part container comma, holes, reports⟩
      (workIn container holes) (lexeme :: rest)) :
    Runs (closeMismatched input) (live (lexeme :: rest) reports fuel (workIn container holes))
      fun _ last => Closed input outcome holes bound last := by
  have hclosing := isClosing_of_endsContainer hagrees.mem_head hends
  have hrecovery : KindSet.valueRecovery.contains lexeme.kind = true := by
    rcases hclosing with hkind | hkind <;> rw [hkind] <;> rfl
  have hcomma : lexeme.kind ≠ .comma := by
    rcases hclosing with hkind | hkind <;> rw [hkind] <;> decide
  refine ⟨(), _, (closeMismatched_eq rfl).trans (errorUnclosed_token hholds htrivia), ?_⟩
  exact .closed (hagrees.turn htrivia (.mismatchedPart hrecovery hcomma hcloser)) hlength

/-- Reading the parts of a container does what it should before any shorter rest of the body. -/
def ReadsParts (input : Input) (outcome : Reader.Outcome) (form : Form) (holes : List Hole)
    (read : (comma : Option Token) → Run Unit) (bound : Nat) : Prop :=
  ∀ {container : Container} {comma : Option Token} {reports : List Diagnostic}
    {tail : List Lexeme} {fuel : Nat},
    tail.length < bound → 16 ≤ fuel → form.Holds container →
    Agrees input outcome ⟨.part container comma, holes, reports⟩ (workIn container holes) tail →
    Runs (read comma) (live tail reports fuel (workIn container holes)) fun _ last =>
      Closed input outcome holes tail.length last

theorem runs_afterPart {more : (comma : Option Token) → Run Unit} {last : State}
    (hmore : ReadsParts input outcome form holes more bound)
    (hbound : (lexeme :: rest).length ≤ bound) (hfuel : 11 < fuel)
    (htrivia : lexeme.kind.isTrivia = false) (hbrace : lexeme.kind ≠ .braceClose)
    (hbracket : lexeme.kind ≠ .bracketClose)
    (hpassed : Passed input outcome form holes 8 (lexeme :: rest) fuel last) :
    Runs (do
        if ← shouldStop then return ()
        else
          let comma ← separator input form
          more comma)
      last fun _ last => Closed input outcome holes (lexeme :: rest).length last := by
  cases hpassed with
  | @next container next reports left hholds hagrees hmoved hends =>
      refine .step shouldStop_live ?_
      rw [if_neg Bool.false_ne_true]
      have hleft : 3 < left := hmoved.lt_left (by omega) (by decide)
      refine .bind (runs_separator hholds hleft hagrees) ?_
      rintro comma _ ⟨hpart, hseparated, hcomma⟩
      have htaken := taken_of_separated hbrace hbracket htrivia hmoved hends hseparated hcomma
      have hless := htaken.shorter
      have hstill := htaken.fuel
      have hfull : fullFuel = 256 := rfl
      exact (hmore (by omega) (by omega) hholds hpart).mono fun _ _ hclosed =>
        hclosed.mono hless.le
  | left hleft => exact .step hleft.shouldStop (.done (.left hleft))

/-- Reading part after part ends with the container: with its closing bracket, where it has to
end without one, or with the rest of the body. -/
theorem runs_parts (hread : ReadsValue input outcome read bound) (steps : Nat)
    (hsteps : steps ≤ bound) :
    ReadsParts input outcome form holes (parts input read form (place holes) steps) steps := by
  -- A part and the comma after it take at least one token, whatever they are.
  induction steps with
  | zero => exact fun hlength => absurd hlength (Nat.not_lt_zero _)
  | succ steps ih =>
      intro container comma reports tail fuel hlength hfuel hholds hagrees
      rw [parts]
      refine .step shouldStop_live ?_
      rw [if_neg Bool.false_ne_true]
      refine runs_atCut hagrees rfl (Or.inl rfl) (fun last hcut => .done (.left (.cut hcut))) ?_
      intro reports next hnear huncut hnext
      refine runs_current hnext (by omega) ?_ ?_
      · intro reports hend hahead
        have hcloser : .endOfInput ≠ form.closer := by cases form <;> decide
        have hends : endsContainer .endOfInput = true := rfl
        rw [if_neg hcloser, if_pos hends]
        exact runs_unclosed hholds (huncut.atEnd hend) hahead
      · intro reports lexeme rest hlexemes hahead
        have htrivia := isTrivia_of_ahead hlexemes
        have hle : (lexeme :: rest).length ≤ tail.length :=
          (hnear.trans (hlexemes ▸ near_ahead next)).length_le
        rw [hholds.closer_eq]
        split
        next hkind =>
          refine .step (errorTrailingComma_live comma) (.step (bump_token htrivia) (.done ?_))
          refine .closed (hahead.take htrivia (Reader.take_part_closer hkind _ _ _) ?_) ?_
          · exact Reader.isStopped_deliver _ _ _
          · exact (Nat.le_succ _).trans hle
        next hkind =>
          split
          next hends => exact runs_mismatched hholds htrivia hends hkind hle hahead
          next hgoes =>
            have hbrace : lexeme.kind ≠ .braceClose := fun hsame => hgoes (by rw [hsame]; rfl)
            have hbracket : lexeme.kind ≠ .bracketClose :=
              fun hsame => hgoes (by rw [hsame]; rfl)
            refine .bind (runs_part hholds hread (by omega) (by omega) htrivia hbrace hbracket
              (huncut.token hlexemes) hahead) ?_
            intro _ last hpassed
            refine (runs_afterPart (ih (by omega)) (by omega) (by omega) htrivia hbrace hbracket
              hpassed).mono fun _ _ hclosed => ?_
            exact hclosed.mono hle

/-! ### Containers -/

theorem Form.holds_ofOpener {token : Token} (hkind : token.kind = form.opener) :
    form.Holds (.ofOpener token) := by
  cases form <;> simp_all [Form.opener, Form.Holds, Container.ofOpener]

theorem workIn_ofOpener {token : Token} (hkind : token.kind = form.opener) (holes : List Hole) :
    workIn (.ofOpener token) holes =
      ⟨layout holes ++ [⟨form.empty, token, owner holes⟩], holes.length + 1,
        token :: holes.map Hole.opener⟩ := by
  cases form with
  | array =>
      have hother : token.kind ≠ .braceOpen := by rw [hkind]; decide
      rw [Container.ofOpener, if_neg hother]
      rfl
  | object =>
      have hbrace : token.kind = .braceOpen := hkind
      rw [Container.ofOpener, if_pos hbrace]
      rfl

theorem alloc_container (hkind : lexeme.kind = form.opener)
    (hroom : (layout holes).length < UInt32.size) :
    alloc form.empty lexeme.toToken (owner holes)
        (live tail reports fuel ⟨layout holes, holes.length + 1,
          lexeme.toToken :: holes.map Hole.opener⟩) =
      .ok (place holes, live tail reports fuel (workIn (.ofOpener lexeme.toToken) holes)) := by
  rw [workIn_ofOpener hkind]
  exact alloc_live _ _ _ hroom

/-- Everything that entering a container has opened is closed again. -/
theorem leave_eq {container : Container} {last : State} (id : Nat)
    (hwork : last.work = workIn container holes) :
    (do
        popDelimiter
        exitRecursion
        return some id : Run (Option Nat)) last =
      .ok (some id, { last with fuel := fullFuel, work := workWith container.value holes }) := by
  obtain ⟨rest, diagnostics, fuel, work, isCut, isAbandoned⟩ := last
  subst hwork
  rfl

theorem runs_leave {last : State} (hclosed : Closed input outcome holes rest.length last)
    (hshort : rest.length < tail.length) :
    Runs (do
        popDelimiter
        exitRecursion
        return some (place holes))
      last (Returned input outcome holes tail fuel) := by
  cases hclosed with
  | closed hagrees hlength =>
      refine ⟨_, _, leave_eq _ rfl, .found (hagrees.rework hagrees.room) ?_⟩
      exact hlength.trans_lt hshort
  | left hleft =>
      cases hleft with
      | cut hcut =>
          exact ⟨_, _, leave_eq _ hcut.work_eq, .cutIn ⟨hcut.isCut, rfl, hcut.outcome_eq⟩⟩
      | abandoned habandoned =>
          exact ⟨_, _, leave_eq _ habandoned.work_eq, .abandonedIn
            ⟨habandoned.isCut, habandoned.isAbandoned, rfl, habandoned.outcome_eq⟩⟩

/-- A container that is too deep leaves no value, and nothing of the body. -/
theorem abandonedAt_of_exceeded {limit : Nat} (htrivia : lexeme.kind.isTrivia = false)
    (hkind : lexeme.kind = .braceOpen ∨ lexeme.kind = .bracketOpen)
    (hopen : input.setting.isCutIn lexeme = false)
    (hexceeded : input.setting.exceeded? holes.length = some limit)
    (hagrees : Agrees input outcome ⟨.value, holes, reports⟩ (workAt holes) (lexeme :: rest)) :
    AbandonedAt outcome (Hole.abandon holes) (workAt holes)
      ⟨[], Report.add (Report.tooDeep limit lexeme) reports, fuel, workAt holes, false, true⟩ where
  isCut := rfl
  isAbandoned := rfl
  work_eq := rfl
  outcome_eq := by
    refine hagrees.stopped htrivia ?_
    rw [Reader.take_opening hkind hopen, Reader.openContainer, hexceeded]

/-- A container is read up to where the reader leaves it. -/
theorem runs_container {looks : Nat}
    (hread : ReadsValue input outcome read bound) (hbound : rest.length < bound)
    (htrivia : lexeme.kind.isTrivia = false) (hkind : lexeme.kind = form.opener)
    (hopen : input.setting.isCutIn lexeme = false) (hfuel : 2 < looks)
    (hagrees : Agrees input outcome ⟨.value, holes, reports⟩ (workAt holes) (lexeme :: rest))
    (hshort : rest.length < tail.length) :
    Runs (container input read form (owner holes))
      (live (lexeme :: rest) reports looks (workAt holes))
      (Returned input outcome holes tail fuel) := by
  have hopener : lexeme.kind = .braceOpen ∨ lexeme.kind = .bracketOpen :=
    hkind ▸ form.opener_eq
  have hroom : (layout holes).length + 1 + rest.length < UInt32.size := hagrees.room_next
  have hdepth : holes.length ≤ (layout holes).length := length_le_place holes
  have hfull : 16 ≤ fullFuel := by decide
  rw [container, ← hkind]
  refine .step (assertCurrent_token htrivia (by omega)) ?_
  cases hexceeded : input.setting.exceeded? holes.length with
  | some limit =>
      refine .step (enterRecursion_exceeded htrivia hexceeded) (.done (.abandoned ?_ rfl ?_))
      · exact abandonedAt_of_exceeded htrivia hopener hopen hexceeded hagrees
      · exact Nat.lt_sub_of_add_lt hfuel
  | none =>
      have hpart : Agrees input outcome ⟨.part (.ofOpener lexeme.toToken) none, holes, reports⟩
          (workIn (.ofOpener lexeme.toToken) holes) rest := by
        refine (hagrees.take htrivia ?_ rfl).rework ?_
        · rw [Reader.take_opening hopener hopen, Reader.openContainer, hexceeded]
        · rw [workIn_ofOpener hkind, List.length_append]
          exact hroom
      -- Every open container has a node, so the depth has room where the nodes have.
      have hsmall : holes.length + 1 < UInt32.size := by omega
      refine .step (enterRecursion_room hexceeded hsmall) ?_
      refine .step (bump_token htrivia) (.step rfl ?_)
      refine .step (alloc_container hkind (by omega)) (.step rfl ?_)
      refine .bind (runs_parts hread _ ?_ ?_ hfull (Form.holds_ofOpener hkind) hpart) ?_
      · rw [live, List.length_map]
        exact hbound
      · rw [live, List.length_map]
        exact Nat.lt_succ_self _
      · intro _ last hclosed
        exact runs_leave hclosed hshort

/-! ### Values -/

theorem scalar?_of_truth (hkind : lexeme.kind = .trueWord ∨ lexeme.kind = .falseWord) :
    lexeme.scalar? = some (.bool (lexeme.toToken.kind = .trueWord)) := by
  rcases hkind with hkind | hkind <;> rw [Lexeme.scalar?, hkind] <;> rfl

theorem runs_scalar {content : Scalar} (htrivia : lexeme.kind.isTrivia = false)
    (hopen : input.setting.isCutIn lexeme = false) (hcontent : lexeme.scalar? = some content)
    (hagrees : Agrees input outcome ⟨.value, holes, reports⟩ (workAt holes) (lexeme :: rest))
    (hshort : rest.length < tail.length) :
    Runs (do return some (← alloc (.scalar content) lexeme.toToken (owner holes)))
      (live rest reports fullFuel (workAt holes)) (Returned input outcome holes tail fuel) :=
  runs_alloc (hagrees.take htrivia (Reader.take_value_scalar hopen hcontent _ _)
    (Reader.isStopped_deliver _ _ _)) hagrees.room_next hshort

theorem runs_noValueAtEnd {looks : Nat} (hholes : holes ≠ [])
    (hstrict : input.setting.allowsFragments = false)
    (hagrees : Agrees input outcome ⟨.value, holes, reports⟩ (workAt holes) [])
    (hmoved : Moved 4 tail fuel [] looks) :
    Runs (do
        error input .unexpectedEnd
        return none)
      (live [] reports looks (workAt holes)) (Returned input outcome holes tail fuel) := by
  refine .step (error_end _) (.done (.missing (hagrees.atEnd ?_ ?_) hmoved))
  · obtain ⟨hole, outer, rfl⟩ := List.exists_cons_of_ne_nil hholes
    rw [Reader.finish_deliver_none]
    simp [Reader.finish, Reader.endBefore, hstrict]
    rfl
  · exact Reader.isStopped_deliver _ _ _

theorem runs_noValue {looks : Nat} (htrivia : lexeme.kind.isTrivia = false)
    (hrecovery : KindSet.valueRecovery.contains lexeme.kind = true) (hfuel : 1 < looks)
    (hagrees : Agrees input outcome ⟨.value, holes, reports⟩ (workAt holes) (lexeme :: rest))
    (hmoved : Moved 4 tail fuel (lexeme :: rest) (looks - 1)) :
    Runs (do
        errorFound input .expectedValue
        return none)
      (live (lexeme :: rest) reports looks (workAt holes))
      (Returned input outcome holes tail fuel) := by
  refine .step (errorFound_token _ htrivia hagrees.mem_head hfuel) (.done (.missing ?_ hmoved))
  exact hagrees.turn htrivia (.missingValue hrecovery)

/-- A value is read up to where the reader has delivered it. -/
theorem runs_value (input : Input) (outcome : Reader.Outcome) (steps : Nat) :
    ReadsValue input outcome (value input steps) steps := by
  -- The values in a container are read after its bracket has been taken.
  induction steps with
  | zero => exact fun hsteps => absurd hsteps (Nat.not_lt_zero _)
  | succ steps ih =>
      intro holes reports tail fuel hsteps hfuel hsome hagrees
      rw [value]
      refine runs_atCut hagrees rfl ?_ (fun last hcut => .done (.cut hcut)) ?_
      · refine hsome.imp_left fun hholes => ?_
        simpa [Reader.mayEndCut] using hholes
      intro reports next hnear huncut hnext
      refine runs_current hnext (by omega) ?_ ?_
      · intro reports hend hahead
        have hholes : holes ≠ [] := hsome.resolve_right fun hne => hne (hnear.ahead_eq ▸ hend)
        have hstrict : input.setting.allowsFragments = false := huncut.atEnd hend
        have hmoved : Moved 4 tail fuel [] (fuel - 1) :=
          (hnear.moved.trans (moved_ahead hend 1 (by omega))).weaken (by omega)
        exact runs_noValueAtEnd hholes hstrict hahead hmoved
      · intro reports lexeme rest hlexemes hahead
        have htrivia := isTrivia_of_ahead hlexemes
        have hopen := huncut.token hlexemes
        have hmem := hahead.mem_head
        have htaken := taken_next hlexemes hnear.length_le
        have hshort := htaken.shorter
        have hbound : rest.length < steps := by omega
        have hlooks : 2 < fuel - 1 := by omega
        have hstays : Moved 4 tail fuel (lexeme :: rest) (fuel - 1 - 1) :=
          (hnear.moved.trans (moved_ahead hlexemes 2 (by omega))).weaken (by omega)
        have hnone (hrecovery : KindSet.valueRecovery.contains lexeme.kind = true) :=
          runs_noValue htrivia hrecovery (by omega) hahead hstays
        split
        next hkind =>
          have hopener : lexeme.kind = Form.object.opener := hkind
          exact runs_container ih hbound htrivia hopener hopen hlooks hahead hshort
        next hkind =>
          have hopener : lexeme.kind = Form.array.opener := hkind
          exact runs_container ih hbound htrivia hopener hopen hlooks hahead hshort
        next hkind => exact runs_parameter htrivia hkind hopen hahead (by omega) htaken
        next hkind =>
          refine .step (bump_token htrivia) (.step (stringValue_of_mem hmem hkind) ?_)
          exact runs_scalar htrivia hopen (by rw [Lexeme.scalar?, hkind]) hahead hshort
        next hkind =>
          refine .step (currentText_token htrivia hmem) (.step (bump_token htrivia) ?_)
          exact runs_scalar htrivia hopen (by rw [Lexeme.scalar?, hkind]) hahead hshort
        next hkind =>
          refine .step (bump_token htrivia) ?_
          exact runs_scalar htrivia hopen (scalar?_of_truth (Or.inl hkind)) hahead hshort
        next hkind =>
          refine .step (bump_token htrivia) ?_
          exact runs_scalar htrivia hopen (scalar?_of_truth (Or.inr hkind)) hahead hshort
        next hkind =>
          refine .step (bump_token htrivia) ?_
          exact runs_scalar htrivia hopen (by rw [Lexeme.scalar?, hkind]) hahead hshort
        next hkind => exact absurd hkind (kind_ne_endOfInput hmem)
        next hkind => exact hnone (by rw [hkind]; rfl)
        next hkind => exact hnone (by rw [hkind]; rfl)
        next hkind => exact hnone (by rw [hkind]; rfl)
        next hbrace hbracket hparameter hstring hnumber htrue hfalse hnull _ hcomma hend hclose =>
          have hrecovery := KindSet.not_valueRecovery hcomma hend hclose
          have hfirst : KindSet.valueFirst.contains lexeme.kind = false := by
            simpa [KindSet.contains, KindSet.valueFirst] using
              ⟨hbrace, hbracket, hstring, hnumber, htrue, hfalse, hnull, hparameter⟩
          refine .step (errorBadValue_token htrivia hmem (by omega)) (.done (.missing ?_ ?_))
          · exact hahead.take htrivia (Reader.take_noValue hopen hrecovery hfirst)
              (Reader.isStopped_deliver _ _ _)
          · exact htaken.moved (Nat.zero_le _)

/-! ### The whole body -/

/-- What is built and open once a body has been read. -/
def workOf (root : Option Value) : Work := ⟨(Tree.mk root).places.map Node.ofPlace, 0, []⟩

/-- The parse has made of the body what the reader makes of it. -/
structure Ended (outcome : Reader.Outcome) (root : Option Nat) (last : State) : Prop where
  root_eq : root = (Tree.mk outcome.root).rootId?
  work_eq : last.work = workOf outcome.root
  reports_eq : last.reports = outcome.reports
  isCut_eq : last.isCut = outcome.isCut

variable {root : Option Value} {id : Option Nat} {last : State}

theorem ended_of_outcome_eq (hid : id = (Tree.mk root).rootId?) (hwork : last.work = workOf root)
    (houtcome : outcome = ⟨root, last.reports, last.isCut⟩) : Ended outcome id last := by
  subst hid houtcome
  exact ⟨rfl, hwork, rfl, rfl⟩

theorem CutAt.ended (hid : id = (Tree.mk root).rootId?)
    (hcut : CutAt outcome root (workOf root) last) : Ended outcome id last :=
  ended_of_outcome_eq hid hcut.work_eq (hcut.isCut ▸ hcut.outcome_eq)

theorem AbandonedAt.ended (hid : id = (Tree.mk root).rootId?)
    (habandoned : AbandonedAt outcome root (workOf root) last) : Ended outcome id last :=
  ended_of_outcome_eq hid habandoned.work_eq (habandoned.isCut ▸ habandoned.outcome_eq)

theorem runs_excess (hid : id = (Tree.mk root).rootId?) (hfuel : 2 < fuel)
    (hagrees : Agrees input outcome ⟨.finished root, [], reports⟩ (workOf root) tail) :
    Runs (do
        if (← current input) = .endOfInput then return id
        else if ← atCut input then return id
        else
          errorFound input .trailingContent
          modify fun state => { state with rest := [] }
          return id)
      (live tail reports fuel (workOf root)) (Ended outcome) := by
  refine runs_current hagrees (by omega) ?_ ?_
  · intro reports hend hahead
    exact .done (ended_of_outcome_eq hid rfl hahead.outcome_eq.symm)
  · intro reports lexeme rest hlexemes hahead
    have htrivia := isTrivia_of_ahead hlexemes
    rw [if_neg (kind_ne_endOfInput hahead.mem_head)]
    refine runs_atCut hahead rfl ?_ (fun last hcut => .done (hcut.ended hid)) ?_
    · rw [ahead_cons htrivia]
      exact Or.inr (List.cons_ne_nil _ _)
    · intro reports next hnear huncut hnext
      obtain rfl := hnear.eq_cons htrivia
      refine .step (errorFound_token _ htrivia hahead.mem_head (by omega)) (.step rfl (.done ?_))
      refine ended_of_outcome_eq hid rfl (hnext.stopped htrivia ?_)
      simp [Reader.take, Reader.excess, huncut.token (ahead_cons htrivia rest), live]

theorem workAt_nil : workAt [] = workOf none := rfl

theorem workWith_nil (value : Value) : workWith value [] = workOf (some value) := rfl

theorem runs_afterRoot (hfuel : 8 < fuel)
    (hreturned : Returned input outcome [] tail fuel id last) :
    Runs (do
        if ← shouldStop then return id
        else if (← current input) = .endOfInput then return id
        else if ← atCut input then return id
        else
          errorFound input .trailingContent
          modify fun state => { state with rest := [] }
          return id)
      last (Ended outcome) := by
  have hsome (value : Value) : some (place []) = (Tree.mk (some value)).rootId? := rfl
  cases hreturned with
  | found hagrees hshort =>
      rw [workWith_nil] at hagrees ⊢
      refine .step shouldStop_live ?_
      rw [if_neg Bool.false_ne_true]
      exact runs_excess (hsome _) (by decide) hagrees
  | missing hagrees hmoved =>
      rw [workAt_nil] at hagrees ⊢
      refine .step shouldStop_live ?_
      rw [if_neg Bool.false_ne_true]
      exact runs_excess rfl (hmoved.lt_left (by omega) (by decide)) hagrees
  | cut hcut => exact .step hcut.shouldStop (.done (hcut.ended rfl))
  | cutIn hcut => exact .step hcut.shouldStop (.done (hcut.ended (hsome _)))
  | abandoned habandoned => exact .step habandoned.shouldStop (.done (habandoned.ended rfl))
  | abandonedIn habandoned =>
      exact .step habandoned.shouldStop (.done (habandoned.ended (hsome _)))

/-- A body without any value is a mistake only if it is a group. -/
theorem runs_noRoot (hagrees : Agrees input outcome ⟨.value, [], reports⟩ (workAt []) []) :
    Runs (do
        if input.options.isGroup then
          errorMessage input .expectedValue Kind.endOfInput.describe
        return none)
      (live [] reports fuel (workAt [])) (Ended outcome) := by
  have houtcome := hagrees.outcome_eq.symm
  rw [workAt_nil]
  cases hgroup : input.options.isGroup with
  | true =>
      rw [hgroup] at houtcome
      change Runs ((current? input >>= _) >>= _) _ _
      rw [bind_assoc]
      exact .step current?_end (.step rfl (.done (ended_of_outcome_eq rfl rfl houtcome)))
  | false =>
      rw [hgroup] at houtcome
      exact .done (ended_of_outcome_eq rfl rfl houtcome)

theorem runs_root (hagrees : Agrees input outcome .start (workAt []) tail) :
    Runs (Descent.root input) (live tail [] fullFuel (workAt [])) (Ended outcome) := by
  rw [Descent.root]
  refine runs_current hagrees (by decide) ?_ ?_
  · intro reports hend hahead
    rw [if_pos rfl]
    exact runs_noRoot hahead
  · intro reports lexeme rest hlexemes hahead
    have htrivia := isTrivia_of_ahead hlexemes
    have hsome : ahead (lexeme :: rest) ≠ [] := by
      rw [ahead_cons htrivia]
      exact List.cons_ne_nil _ _
    rw [if_neg (kind_ne_endOfInput hahead.mem_head)]
    refine .step rfl (.bind (runs_value input outcome _ ?_ ?_ (Or.inr hsome) hahead) ?_)
    · simp [live]
    · decide
    · intro id last hreturned
      exact runs_afterRoot (by decide) hreturned

/-- A body as its tree of nodes. -/
def Parsed.of (body : Body) : Parsed :=
  ⟨body.tree.rootId?, body.tree.places.map Node.ofPlace, body.diagnostics, body.isCut⟩

theorem agrees_start (hsize : input.size < UInt32.size) :
    Agrees input
      ((Reader.start.run input.setting (lex input.source)).finish input.setting
        input.options.isGroup)
      .start (workAt []) (lex input.source) where
  outcome_eq := rfl
  goes := rfl
  mem := fun _ hmem => hmem
  room := by
    have hlength : (lex input.source).length ≤ input.size := length_lex_le input.source
    exact (Nat.zero_add _).trans_lt (hlength.trans_lt hsize)

theorem parse_eq (input : Input) (hsize : input.size < UInt32.size) :
    parse input = .ok (.of (input.options.parse input.source)) := by
  obtain ⟨id, last, hrun, hended⟩ := runs_root (agrees_start hsize)
  have hbalanced : (last.work.depth = 0 && last.work.delimiters.isEmpty) = true := by
    rw [hended.work_eq]
    rfl
  have hparsed : Parsed.of (input.options.parse input.source) =
      ⟨id, last.work.nodes, ⟨last.reports.reverse⟩, last.isCut⟩ := by
    rw [hended.root_eq, hended.work_eq, hended.reports_eq, hended.isCut_eq]
    rfl
  have hstart : (Descent.root input).run (start input) = .ok (id, last) := hrun
  rw [parse, if_neg (Nat.not_le.mpr hsize), hstart, hparsed]
  change (if (last.work.depth = 0 && last.work.delimiters.isEmpty) = true then _ else _) = _
  rw [if_pos hbalanced]
  rfl

/-- Parsing ends for every body whose offsets have 32 bits, without any fault on the way, and
makes of it what the reader makes of it.  The texts of tokens can be cut out of the body, and the
quotes off the strings among them. -/
theorem parse_eq_ok (input : Input) (hsize : input.size < UInt32.size) :
    parse input = .ok (.of (input.options.parse input.source)) ∧
      ∀ lexeme ∈ lex input.source, lexeme.IsSliceOf input.source :=
  ⟨parse_eq input hsize, fun _ hmem => isSliceOf_of_mem_lex hmem⟩

theorem parse_eq_ok_wrong_closer :
    Input.size ⟨.group, "[\"\\q\",\x7d"⟩ < UInt32.size ∧
      parse ⟨.group, "[\"\\q\",\x7d"⟩ = .ok (.of (Options.group.parse "[\"\\q\",\x7d")) ∧
      ∀ lexeme ∈ lex "[\"\\q\",\x7d", lexeme.IsSliceOf "[\"\\q\",\x7d" :=
  have hsize : Input.size ⟨.group, "[\"\\q\",\x7d"⟩ < UInt32.size := by decide
  ⟨hsize, parse_eq_ok _ hsize⟩

end Descent
end QueryBody
