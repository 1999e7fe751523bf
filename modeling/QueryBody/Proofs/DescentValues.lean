import QueryBody.Proofs.DescentRecovery
import Mathlib.Tactic

/-!
# Values in the descent

Where the descent reads a value, it comes to the nodes of the value or leaves none, and
the reader has delivered the same value or none.
-/

namespace QueryBody

@[simp] theorem Hole.opener_discard (hole : Hole) : hole.discard.opener = hole.opener := by
  cases hole <;> rfl

namespace Descent

/-- What is built and open where a value is read. -/
def workAt (holes : List Hole) : Work := ⟨layout holes, holes.length, holes.map Hole.opener⟩

/-- What is built and open once the value is there. -/
def workWith (value : Value) (holes : List Hole) : Work :=
  ⟨nodesWith value holes, holes.length, holes.map Hole.opener⟩

/-- What is built and open in a container. -/
def workIn (container : Container) (holes : List Hole) : Work :=
  ⟨nodesWith container.value holes, holes.length + 1, container.opener :: holes.map Hole.opener⟩

theorem workAt_item (opener : Token) (items : List Value) (holes : List Hole) :
    workAt (.item opener items :: holes) = workIn (.array opener items) holes := by
  rw [workAt, layout_item]
  rfl

theorem workAt_property (opener : Token) (members : List Member) (key : Key)
    (holes : List Hole) :
    workAt (.property opener members key :: holes) =
      { workIn (.object opener members) holes with
        nodes := nodesWith (Container.object opener members).value holes ++
          [⟨.scalar (.string key.text), key.token, some (place holes)⟩] } := by
  rw [workAt, layout_property]
  rfl

variable {input : Input} {outcome : Reader.Outcome} {holes : List Hole}
  {reports : List Diagnostic} {tail : List Lexeme} {fuel : Nat}

/-- The rest of the body is ignored, and this is its root. -/
structure AbandonedAt (outcome : Reader.Outcome) (root : Option Value) (work : Work)
    (last : State) : Prop where
  isCut : last.isCut = false
  isAbandoned : last.isAbandoned = true
  work_eq : last.work = work
  outcome_eq : outcome = ⟨root, last.reports, false⟩

theorem AbandonedAt.shouldStop {root : Option Value} {work : Work} {last : State}
    (habandoned : AbandonedAt outcome root work last) : shouldStop last = .ok (true, last) := by
  change Except.ok (last.isCut || last.isAbandoned, last) = _
  rw [habandoned.isAbandoned, Bool.or_true]

/-- What reading a value comes to. -/
inductive Returned (input : Input) (outcome : Reader.Outcome) (holes : List Hole)
    (tail : List Lexeme) (fuel : Nat) : Option Nat → State → Prop
  | found {value : Value} {next : List Lexeme} {reports : List Diagnostic}
      (hagrees : Agrees input outcome (Reader.deliver (some value) holes reports)
        (workWith value holes) next)
      (hshort : next.length < tail.length) :
      Returned input outcome holes tail fuel (some (place holes))
        (live next reports fullFuel (workWith value holes))
  | missing {next : List Lexeme} {reports : List Diagnostic} {left : Nat}
      (hagrees : Agrees input outcome (Reader.deliver none holes reports) (workAt holes) next)
      (hmoved : Moved 4 tail fuel next left) :
      Returned input outcome holes tail fuel none (live next reports left (workAt holes))
  | cut {last : State} (hcut : CutAt outcome (Hole.cutOff holes) (workAt holes) last) :
      Returned input outcome holes tail fuel none last
  /-- The body is cut off in a container, which is the value. -/
  | cutIn {container : Container} {last : State}
      (hcut : CutAt outcome (some (container.cutOff holes)) (workWith container.value holes)
        last) :
      Returned input outcome holes tail fuel (some (place holes)) last
  | abandoned {last : State}
      (habandoned : AbandonedAt outcome (Hole.abandon holes) (workAt holes) last)
      (hrest : last.rest = []) (hfuel : 1 < last.fuel) :
      Returned input outcome holes tail fuel none last
  | abandonedIn {container : Container} {last : State}
      (habandoned : AbandonedAt outcome (some (container.enclose holes))
        (workWith container.value holes) last) :
      Returned input outcome holes tail fuel (some (place holes)) last

theorem nodesWith_scalar (token : Token) (content : Scalar) (holes : List Hole) :
    nodesWith (.scalar token content) holes =
      layout holes ++ [⟨.scalar content, token, owner holes⟩] := rfl

theorem runs_alloc {content : Scalar} {token : Token} {next : List Lexeme}
    (hagrees : Agrees input outcome
      (Reader.deliver (some (.scalar token content)) holes reports) (workAt holes) next)
    (hroom : (workAt holes).nodes.length + 1 + next.length < UInt32.size)
    (hshort : next.length < tail.length) :
    Runs (do return some (← alloc (.scalar content) token (owner holes)))
      (live next reports fullFuel (workAt holes)) (Returned input outcome holes tail fuel) := by
  have hwork : (workWith (.scalar token content) holes).nodes.length =
      (workAt holes).nodes.length + 1 := by
    rw [workWith, nodesWith_scalar, List.length_append]
    rfl
  have hfound : Agrees input outcome _ (workWith (.scalar token content) holes) next :=
    hagrees.rework (by omega)
  exact .step (alloc_live _ _ _ (by omega)) (.done (.found hfound hshort))

/-- What is left of a broken placeholder is skipped, with its closing marker. -/
theorem runs_brokenParameter {next : List Lexeme} {left : Nat}
    (hagrees : Agrees input outcome ⟨.skipParameter 0, holes, reports⟩ (workAt holes) next)
    (htaken : Taken 2 tail next left) :
    Runs (do
        skipUntil input .parameterRecovery
        let _ ← eat input .parameterClose
        return none)
      (live next reports left (workAt holes)) (Returned input outcome holes tail fuel) := by
  have hfull : fullFuel = 256 := rfl
  have hfuel := htaken.fuel
  refine .bind (runs_skipUntil (skips_parameter holes) (by omega) hagrees) ?_
  rintro _ _ ⟨hskipped, hsync, hmoved⟩
  rename_i last reports left
  have htakenAll := htaken.trans hmoved
  have hleft := htakenAll.fuel
  refine runs_eat (by decide) hskipped (by omega) ?_ ?_ ?_
  · intro reports hnext hahead
    refine .done (.missing (hahead.atEnd ?_ (Reader.isStopped_deliver _ _ _)) ?_)
    · rw [Reader.finish_deliver_none]
      rfl
    · exact (htakenAll.trans (moved_ahead hnext 1 (by omega))).moved (by omega)
  · intro reports lexeme rest hnext hkind hahead
    have htrivia := isTrivia_of_ahead hnext
    have hrecovery : KindSet.valueRecovery.contains lexeme.kind = true := by
      have hset := hsync.contains_of_ahead hnext
      rw [KindSet.parameterRecovery, KindSet.contains_union] at hset
      simpa [KindSet.contains, hkind] using hset
    refine .done (.missing (hahead.turn htrivia (.resumeParameter hrecovery)) ?_)
    exact (htakenAll.trans (moved_ahead hnext 1 (by omega))).moved (by omega)
  · intro reports lexeme rest hnext hkind hahead
    have htrivia := isTrivia_of_ahead hnext
    refine .done (.missing (hahead.take htrivia ?_ (Reader.isStopped_deliver _ _ _)) ?_)
    · simp [Reader.take, Reader.skipParameter, KindSet.parameterRecovery, KindSet.contains,
        KindSet.union, hkind]
    · exact (taken_next hnext htakenAll.shorter.le).moved (by omega)

theorem runs_closingMarker {marker : Token} {name : List Char} {next : List Lexeme}
    (hagrees : Agrees input outcome ⟨.parameterClose marker (String.ofList name), holes, reports⟩
      (workAt holes) next)
    (htaken : Taken 0 tail next fullFuel) :
    Runs (do
        if ← atCutInMarker input then return none
        else
          match ← eat input .parameterClose with
          | none =>
              errorFound input .expectedParameterClose
              return none
          | some _ =>
              return some
                (← alloc (.scalar (.parameter (String.ofList name))) marker (owner holes)))
      (live next reports fullFuel (workAt holes)) (Returned input outcome holes tail fuel) := by
  have hfull : fullFuel = 256 := rfl
  refine runs_atCutInMarker hagrees (fun last hcut => .done (.cut hcut)) ?_
  intro reports next hnear hend hmarker hclose
  have htaken := htaken.trans hnear.moved
  refine runs_eat (by decide) hclose (by omega) ?_ ?_ ?_
  · intro reports hnext hahead
    have hstrict : input.setting.allowsFragments = false := hend hnext
    refine .step (errorFound_end _ (by omega)) (.done (.missing (hahead.atEnd ?_ ?_) ?_))
    · rw [Reader.finish_deliver_none]
      simp [Reader.finish, Reader.endBefore, hstrict]
      rfl
    · exact Reader.isStopped_deliver _ _ _
    · exact (htaken.trans (moved_ahead hnext 2 (by omega))).moved (by omega)
  · intro reports closing more hnext hother hahead
    have htrivia := isTrivia_of_ahead hnext
    refine .step (errorFound_token _ htrivia hahead.mem_head (by omega)) ?_
    refine .done (.missing (hahead.turn htrivia (.noMarker (hmarker closing more hnext) hother)) ?_)
    exact (htaken.trans (moved_ahead hnext 2 (by omega))).moved (by omega)
  · intro reports closing more hnext hclosing hahead
    have htaken := taken_next hnext htaken.shorter.le
    have hopen := Reader.isCutIn_of_isCutInMarker (hmarker closing more hnext)
    refine runs_alloc (hahead.take (isTrivia_of_ahead hnext) ?_ ?_) hahead.room_next
      htaken.shorter
    · exact Reader.take_parameterClose hopen hclosing _ _ _ _
    · exact Reader.isStopped_deliver _ _ _

/-- A placeholder is read as a whole, or what is left of it is skipped. -/
theorem runs_parameter {lexeme : Lexeme} {rest : List Lexeme} {left : Nat}
    (htrivia : lexeme.kind.isTrivia = false) (hkind : lexeme.kind = .parameterOpen)
    (hopen : input.setting.isCutIn lexeme = false)
    (hagrees : Agrees input outcome ⟨.value, holes, reports⟩ (workAt holes) (lexeme :: rest))
    (hfuel : 1 < left) (htaken : Taken 0 tail rest fullFuel) :
    Runs (parameter input (owner holes)) (live (lexeme :: rest) reports left (workAt holes))
      (Returned input outcome holes tail fuel) := by
  have hfull : fullFuel = 256 := rfl
  rw [parameter, ← hkind]
  refine .step (assertCurrent_token htrivia hfuel) (.step (bump_token htrivia) ?_)
  have hname := hagrees.take htrivia (Reader.take_value_parameterOpen hopen hkind _ _) rfl
  refine runs_atCut hname rfl (Or.inl rfl) (fun last hcut => .done (.cut hcut)) ?_
  intro reports next hnear huncut hname
  have htaken := htaken.trans hnear.moved
  refine runs_eat (by decide) hname (by omega) ?_ ?_ ?_
  · intro reports hnext hahead
    have hstrict : input.setting.allowsFragments = false := huncut.atEnd hnext
    refine .step (errorFound_end _ (by omega)) (runs_brokenParameter (hahead.atEnd ?_ rfl) ?_)
    · simp [Reader.finish, Reader.endBefore, hstrict]
      rfl
    · exact htaken.trans (moved_ahead hnext 2 (by omega))
  · intro reports name more hnext hother hahead
    have htriviaName := isTrivia_of_ahead hnext
    refine .step (errorFound_token _ htriviaName hahead.mem_head (by omega)) ?_
    refine runs_brokenParameter (hahead.turn htriviaName ?_) ?_
    · exact .noName (huncut.token hnext) hother
    · exact htaken.trans (moved_ahead hnext 2 (by omega))
  · intro reports name more hnext hidentifier hahead
    refine .step (text_of_mem hahead.mem_head) (runs_closingMarker ?_ ?_)
    · refine hahead.take (isTrivia_of_ahead hnext) ?_ rfl
      exact Reader.take_parameterName (huncut.token hnext) hidentifier _ _ _
    · exact taken_next hnext htaken.shorter.le

end Descent
end QueryBody
