import QueryBody.Proofs.DescentSteps
import Mathlib.Tactic

/-!
# The descent and the reader

A parse agrees with a reader when the reader, with the same tokens before it, will end
with the outcome of the whole body.
-/

namespace QueryBody

theorem Report.add_add_of_offset {first second : Diagnostic}
    (hoffset : second.offset = first.offset) (reports : List Diagnostic) :
    add second (add first reports) = add first reports := by
  cases reports with
  | nil => simp [add, hoffset]
  | cons latest rest =>
      by_cases hlatest : latest.offset = first.offset
      · simp [add, hlatest, hoffset]
      · simp [add, hlatest, hoffset]

theorem KindSet.not_valueRecovery {kind : Kind} (hcomma : kind ≠ .comma)
    (hbrace : kind ≠ .braceClose) (hbracket : kind ≠ .bracketClose) :
    valueRecovery.contains kind = false := by
  simp [contains, valueRecovery, hcomma, hbrace, hbracket]

namespace Reader

variable {setting : Setting} {lexeme : Lexeme}

theorem isStopped_deliver (value : Option Value) (holes : List Hole)
    (reports : List Diagnostic) : (deliver value holes reports).isStopped = false := by
  cases holes <;> cases value <;> rfl

theorem Turn.isStopped {first last : Reader} (hturn : Turn setting lexeme first last) :
    last.isStopped = false := by
  cases hturn <;> first | rfl | exact isStopped_deliver _ _ _

/-- In an array, a comma in the place of an item is read as a value, too. -/
theorem take_item {opener : Token} {items : List Value} {comma : Option Token}
    {holes : List Hole} {reports : List Diagnostic} (hbrace : lexeme.kind ≠ .braceClose)
    (hbracket : lexeme.kind ≠ .bracketClose) :
    take setting ⟨.part (.array opener items) comma, holes, reports⟩ lexeme =
      take setting ⟨.value, .item opener items :: holes, reports⟩ lexeme := by
  by_cases hcomma : lexeme.kind = .comma
  · have hrecovery : KindSet.valueRecovery.contains lexeme.kind = true := by rw [hcomma]; rfl
    have hcut : setting.isCutIn lexeme = false := isCutIn_of_valueRecovery hrecovery
    rw [hcomma] at hrecovery
    simp [take, part, emptyPart, value, hrecovery, hcut, hcomma, giveUp, skip, endPart, Hole.fill,
      Report.noPart]
  · have hrecovery := KindSet.not_valueRecovery hcomma hbrace hbracket
    exact (Turn.item hrecovery).take_eq

/-- A comma in the place of a part is one after a part, apart from the report. -/
theorem take_extraComma {container : Container} {comma : Option Token} {holes : List Hole}
    {reports : List Diagnostic} (hcomma : lexeme.kind = .comma) :
    take setting ⟨.part container comma, holes, reports⟩ lexeme =
      take setting
        ⟨.separator container, holes, Report.add (Report.noPart container lexeme) reports⟩
        lexeme := by
  have hrecovery : KindSet.valueRecovery.contains .comma = true := rfl
  simp [take, part, emptyPart, separator, endPart, hrecovery, hcomma]

/-- A closing bracket ends a container after a part as it does before one. -/
theorem take_closing {container : Container} {holes : List Hole} {reports : List Diagnostic}
    (hclosing : lexeme.kind = .braceClose ∨ lexeme.kind = .bracketClose) :
    take setting ⟨.separator container, holes, reports⟩ lexeme =
      take setting ⟨.part container none, holes, reports⟩ lexeme := by
  have hrecovery : KindSet.valueRecovery.contains lexeme.kind = true := by
    rcases hclosing with hkind | hkind <;> rw [hkind] <;> rfl
  have hcomma : lexeme.kind ≠ .comma := by
    rcases hclosing with hkind | hkind <;> rw [hkind] <;> decide
  simp [take, part, emptyPart, separator, endPart, hrecovery, hcomma]

theorem take_opening {holes : List Hole} {reports : List Diagnostic}
    (hkind : lexeme.kind = .braceOpen ∨ lexeme.kind = .bracketOpen)
    (hopen : setting.isCutIn lexeme = false) :
    take setting ⟨.value, holes, reports⟩ lexeme =
      openContainer setting lexeme holes reports := by
  rcases hkind with hkind | hkind <;>
    simp [take, value, hopen, hkind, KindSet.contains, KindSet.valueRecovery]

/-- A token that begins no value is taken in the place of one. -/
theorem take_noValue {holes : List Hole} {reports : List Diagnostic}
    (hopen : setting.isCutIn lexeme = false)
    (hrecovery : KindSet.valueRecovery.contains lexeme.kind = false)
    (hfirst : KindSet.valueFirst.contains lexeme.kind = false) :
    take setting ⟨.value, holes, reports⟩ lexeme =
      deliver none holes (Report.add (Report.noValue lexeme) reports) := by
  simp only [take, value, hopen, hrecovery, Bool.false_eq_true, if_false]
  unfold Lexeme.scalar?
  cases hkind : lexeme.kind <;> rw [hkind] at hfirst <;> first | rfl | contradiction

/-- The body may be cut off in a token that comes next. -/
def mayBeCut (reader : Reader) : Bool :=
  match reader.focus with
  | .value | .part _ _ | .colon _ _ _ | .parameterName _ | .parameterClose _ _ | .finished _ => true
  | _ => false

/-- The body may be cut off if no token comes next. -/
def mayEndCut (reader : Reader) : Bool :=
  match reader.focus with
  | .value => !reader.holes.isEmpty
  | .part _ _ | .colon _ _ _ | .parameterName _ | .parameterClose _ _ => true
  | _ => false

theorem take_cut {reader : Reader} (hmay : reader.mayBeCut = true)
    (hcut : setting.isCutIn lexeme = true) :
    reader.take setting lexeme = ⟨.stopped reader.cutRoot true, [], reader.reports⟩ := by
  obtain ⟨focus, holes, reports⟩ := reader
  cases focus with
  | value => simp [take, value, hcut, cutRoot]
  | part container comma => exact part_of_isCutIn hcut container comma holes reports
  | colon opener members key => simp [take, colon, hcut, cutRoot]
  | parameterName marker => simp [take, parameterName, hcut, cutRoot]
  | parameterClose marker name =>
      simp [take, parameterClose, Setting.isCutInMarker, hcut, cutRoot]
  | finished root => simp [take, hcut, cutRoot]
  | _ => contradiction

theorem finish_cut {reader : Reader} {isGroup : Bool} (hmay : reader.mayEndCut = true)
    (hfragments : setting.allowsFragments = true) :
    reader.finish setting isGroup = ⟨reader.cutRoot, reader.reports, true⟩ := by
  obtain ⟨focus, holes, reports⟩ := reader
  cases focus with
  | value =>
      cases holes with
      | nil => contradiction
      | cons hole rest => simp [finish, endBefore, hfragments, cutRoot]
  | part container comma => simp [finish, endIn, hfragments, cutRoot]
  | colon opener members key => simp [finish, endAfterName, endIn, hfragments, cutRoot]
  | parameterName marker => simp [finish, endBefore, hfragments, cutRoot]
  | parameterClose marker name => simp [finish, endBefore, hfragments, cutRoot]
  | _ => contradiction

/-! ### The end of a body that is complete -/

theorem finish_deliver_none {isGroup : Bool} (holes : List Hole) (reports : List Diagnostic) :
    (deliver none holes reports).finish setting isGroup = endWithout setting holes reports := by
  cases holes <;> rfl

/-- Of the containers that the end of the body leaves open only the innermost is reported. -/
theorem finish_unclosed {isGroup : Bool} (hstrict : setting.allowsFragments = false)
    (container : Container) (holes : List Hole) (reports : List Diagnostic) :
    (deliver (some container.value) holes
      (Report.add (Report.unclosed container setting.size) reports)).finish setting isGroup =
      endIn setting container holes reports := by
  cases holes with
  | nil => simp [deliver, finish, endIn, hstrict, Container.enclose]
  | cons hole rest =>
      have hoffset : (Report.unclosed (hole.fill (some container.value)) setting.size).offset =
          (Report.unclosed container setting.size).offset := rfl
      simp [deliver, finish, endIn, hstrict, Container.enclose, Report.add_add_of_offset hoffset]

end Reader

namespace Descent

/-- Where the reader stands, the parse agrees with it about the rest of the body, and the nodes
and tokens together have numbers of 32 bits. -/
structure Agrees (input : Input) (outcome : Reader.Outcome) (reader : Reader) (work : Work)
    (tail : List Lexeme) : Prop where
  outcome_eq : (reader.run input.setting tail).finish input.setting input.options.isGroup = outcome
  goes : reader.isStopped = false
  mem : ∀ lexeme ∈ tail, lexeme ∈ lex input.source
  room : work.nodes.length + tail.length < UInt32.size

theorem step_trivia {input : Input} {reader : Reader} {lexeme : Lexeme}
    (hgoes : reader.isStopped = false) (htrivia : lexeme.kind.isTrivia = true) :
    reader.step input.setting lexeme =
      ⟨reader.focus, reader.holes, reportTrivia input lexeme.toToken reader.reports⟩ := by
  rw [Reader.step, if_pos htrivia, Reader.ignore, hgoes, Bool.not_false, Bool.and_true,
    reportTrivia]
  change (if (lexeme.kind = .unterminatedComment && !input.options.allowsFragments) = true then _
    else _) = _
  split <;> rfl

namespace Agrees

variable {input : Input} {outcome : Reader.Outcome} {first last : Reader} {work : Work}
  {tail : List Lexeme} {lexeme : Lexeme}

theorem mem_head (hagrees : Agrees input outcome first work (lexeme :: tail)) :
    lexeme ∈ lex input.source := hagrees.mem lexeme List.mem_cons_self

theorem rework {other : Work} (hagrees : Agrees input outcome first work tail)
    (hroom : other.nodes.length + tail.length < UInt32.size) :
    Agrees input outcome first other tail :=
  ⟨hagrees.outcome_eq, hagrees.goes, hagrees.mem, hroom⟩

/-- There is room for a node of the next token. -/
theorem room_next (hagrees : Agrees input outcome first work (lexeme :: tail)) :
    work.nodes.length + 1 + tail.length < UInt32.size := by
  have hroom := hagrees.room
  rw [List.length_cons] at hroom
  omega

/-- The reader takes the next token. -/
theorem take (hagrees : Agrees input outcome first work (lexeme :: tail))
    (htrivia : lexeme.kind.isTrivia = false) (htake : first.take input.setting lexeme = last)
    (hgoes : last.isStopped = false) : Agrees input outcome last work tail where
  outcome_eq := by
    rw [← hagrees.outcome_eq, Reader.run_cons, Reader.step, htrivia, ← htake]
    rfl
  goes := hgoes
  mem := fun other hmem => hagrees.mem other (List.mem_cons_of_mem _ hmem)
  room := by
    have hroom := hagrees.room
    rw [List.length_cons] at hroom
    omega

/-- The reader looks at the next token in another way. -/
theorem look (hagrees : Agrees input outcome first work (lexeme :: tail))
    (htrivia : lexeme.kind.isTrivia = false)
    (hsame : first.take input.setting lexeme = last.take input.setting lexeme)
    (hgoes : last.isStopped = false) : Agrees input outcome last work (lexeme :: tail) where
  outcome_eq := by
    rw [← hagrees.outcome_eq, Reader.run_cons, Reader.run_cons, Reader.step, Reader.step, htrivia]
    simp only [Bool.false_eq_true, if_false, hsame]
  goes := hgoes
  mem := hagrees.mem
  room := hagrees.room

theorem turn (hagrees : Agrees input outcome first work (lexeme :: tail))
    (htrivia : lexeme.kind.isTrivia = false) (hturn : Reader.Turn input.setting lexeme first last) :
    Agrees input outcome last work (lexeme :: tail) :=
  hagrees.look htrivia hturn.take_eq hturn.isStopped

/-- The reader looks at the end of the body in another way. -/
theorem atEnd (hagrees : Agrees input outcome first work [])
    (hsame : first.finish input.setting input.options.isGroup =
      last.finish input.setting input.options.isGroup)
    (hgoes : last.isStopped = false) : Agrees input outcome last work [] :=
  ⟨hsame ▸ hagrees.outcome_eq, hgoes, hagrees.mem, hagrees.room⟩

/-- The reader takes the next trivia. -/
theorem skip {focus : Focus} {holes : List Hole} {reports : List Diagnostic}
    (hagrees : Agrees input outcome ⟨focus, holes, reports⟩ work tail) :
    Agrees input outcome ⟨focus, holes, reportsAhead input tail reports⟩ work (ahead tail) := by
  induction tail generalizing reports with
  | nil => exact hagrees
  | cons lexeme rest ih =>
      cases htrivia : lexeme.kind.isTrivia with
      | false =>
          rw [ahead_cons htrivia, reportsAhead_cons htrivia]
          exact hagrees
      | true =>
          rw [ahead_trivia htrivia, reportsAhead_trivia htrivia]
          have hroom := hagrees.room
          rw [List.length_cons] at hroom
          refine ih ⟨?_, hagrees.goes, ?_, by omega⟩
          · rw [← hagrees.outcome_eq, Reader.run_cons, step_trivia hagrees.goes htrivia]
          · exact fun other hmem => hagrees.mem other (List.mem_cons_of_mem _ hmem)

end Agrees

variable {input : Input} {outcome : Reader.Outcome} {focus : Focus} {holes : List Hole}
  {reports : List Diagnostic} {work : Work}
  {tail next : List Lexeme} {fuel : Nat} {β : Type} {post : β → State → Prop}

/-! ### Looking ahead -/

theorem runs_current {f : Kind → Run β}
    (hagrees : Agrees input outcome ⟨focus, holes, reports⟩ work tail) (hfuel : 1 < fuel)
    (hend : ∀ reports, ahead tail = [] →
      Agrees input outcome ⟨focus, holes, reports⟩ work [] →
      Runs (f .endOfInput) (live [] reports (fuel - 1) work) post)
    (htoken : ∀ reports lexeme rest, ahead tail = lexeme :: rest →
      Agrees input outcome ⟨focus, holes, reports⟩ work (lexeme :: rest) →
      Runs (f lexeme.kind) (live (lexeme :: rest) reports (fuel - 1) work) post) :
    Runs (current input >>= f) (live tail reports fuel work) post := by
  refine .step (current_live hfuel) ?_
  have hahead := hagrees.skip
  cases hnext : ahead tail with
  | nil =>
      rw [hnext] at hahead
      exact hend _ hnext hahead
  | cons lexeme rest =>
      rw [hnext] at hahead
      exact htoken _ lexeme rest hnext hahead

theorem runs_eat {kind : Kind} {f : Option Token → Run β} (hkind : kind ≠ .endOfInput)
    (hagrees : Agrees input outcome ⟨focus, holes, reports⟩ work tail) (hfuel : 1 < fuel)
    (hend : ∀ reports, ahead tail = [] →
      Agrees input outcome ⟨focus, holes, reports⟩ work [] →
      Runs (f none) (live [] reports (fuel - 1) work) post)
    (hother : ∀ reports lexeme rest, ahead tail = lexeme :: rest → lexeme.kind ≠ kind →
      Agrees input outcome ⟨focus, holes, reports⟩ work (lexeme :: rest) →
      Runs (f none) (live (lexeme :: rest) reports (fuel - 1) work) post)
    (hfound : ∀ reports lexeme rest, ahead tail = lexeme :: rest → lexeme.kind = kind →
      Agrees input outcome ⟨focus, holes, reports⟩ work (lexeme :: rest) →
      Runs (f (some lexeme.toToken)) (live rest reports fullFuel work) post) :
    Runs (eat input kind >>= f) (live tail reports fuel work) post := by
  rw [eat, bind_assoc]
  refine runs_current hagrees hfuel ?_ ?_
  · intro reports hnext hahead
    rw [if_neg hkind.symm]
    exact hend reports hnext hahead
  · intro reports lexeme rest hnext hahead
    split
    next hsame =>
      rw [bind_assoc]
      refine .step (bump_token (isTrivia_of_ahead hnext)) ?_
      exact hfound reports lexeme rest hnext hsame hahead
    next hother' => exact hother reports lexeme rest hnext hother' hahead

/-- At most trivia have been skipped. -/
structure Near (tail next : List Lexeme) : Prop where
  ahead_eq : ahead next = ahead tail
  length_le : next.length ≤ tail.length

/-- Something has been taken, and since then the tokens have been looked at at most so many
times. -/
structure Taken (looks : Nat) (tail next : List Lexeme) (left : Nat) : Prop where
  shorter : next.length < tail.length
  fuel : fullFuel ≤ left + looks

/-- Something has been taken, or at most trivia have been skipped. -/
def Moved (looks : Nat) (tail : List Lexeme) (fuel : Nat) (next : List Lexeme) (left : Nat) :
    Prop :=
  Near tail next ∧ fuel ≤ left + looks ∨ Taken looks tail next left

theorem Near.moved (hnear : Near tail next) : Moved 0 tail fuel next fuel :=
  Or.inl ⟨hnear, le_rfl⟩

theorem Near.trans {last : List Lexeme} (hfirst : Near tail next) (hsecond : Near next last) :
    Near tail last :=
  ⟨hsecond.ahead_eq.trans hfirst.ahead_eq, hsecond.length_le.trans hfirst.length_le⟩

/-- There are no trivia to be skipped before a token. -/
theorem Near.eq_cons {lexeme : Lexeme} (htrivia : lexeme.kind.isTrivia = false)
    (hnear : Near (lexeme :: tail) next) : next = lexeme :: tail := by
  have hahead := hnear.ahead_eq
  rw [ahead_cons htrivia] at hahead
  have hlength := hnear.length_le
  rw [← hahead] at hlength ⊢
  exact ((List.dropWhile_suffix _).eq_of_length_le hlength).symm

theorem near_ahead (tail : List Lexeme) : Near tail (ahead tail) :=
  ⟨ahead_ahead tail, length_ahead_le tail⟩

theorem moved_ahead (hnext : ahead tail = next) (looks : Nat) (hfuel : looks ≤ fuel) :
    Moved looks tail fuel next (fuel - looks) := by
  subst hnext
  exact Or.inl ⟨near_ahead tail, by omega⟩

section

variable {first second middle left : Nat} {last rest : List Lexeme} {lexeme : Lexeme}

theorem Moved.length_le (hmoved : Moved first tail fuel next left) :
    next.length ≤ tail.length := by
  rcases hmoved with ⟨hnear, _⟩ | htaken
  · exact hnear.length_le
  · exact htaken.shorter.le

theorem Moved.lt_left {bound : Nat} (hmoved : Moved first tail fuel next left)
    (hfuel : first + bound < fuel) (hfull : first + bound < fullFuel) : bound < left := by
  rcases hmoved with ⟨_, hleft⟩ | htaken
  · omega
  · have hleft := htaken.fuel
    omega

theorem taken_next (hnext : ahead next = lexeme :: rest) (hlength : next.length ≤ tail.length) :
    Taken 0 tail rest fullFuel := by
  have hahead := length_ahead_le next
  rw [hnext] at hahead
  exact ⟨Nat.lt_of_succ_le (hahead.trans hlength), le_rfl⟩

theorem Taken.trans (htaken : Taken first tail next middle)
    (hmoved : Moved second next middle last left) : Taken (first + second) tail last left := by
  have hlength := hmoved.length_le
  have hshorter := htaken.shorter
  have hfuel := htaken.fuel
  refine ⟨by omega, ?_⟩
  rcases hmoved with ⟨_, hleft⟩ | hmore
  · omega
  · have hleft := hmore.fuel
    omega

theorem Moved.trans (hfirst : Moved first tail fuel next middle)
    (hsecond : Moved second next middle last left) :
    Moved (first + second) tail fuel last left := by
  rcases hfirst with ⟨hnear, hfuel⟩ | htaken
  · have hlength := hnear.length_le
    rcases hsecond with ⟨hnearer, hleft⟩ | hmore
    · exact Or.inl ⟨hnear.trans hnearer, by omega⟩
    · have hshorter := hmore.shorter
      have hleft := hmore.fuel
      exact Or.inr ⟨by omega, by omega⟩
  · exact Or.inr (htaken.trans hsecond)

theorem Taken.moved (htaken : Taken first tail next left) (hle : first ≤ second) :
    Moved second tail fuel next left := by
  have hfuel := htaken.fuel
  exact Or.inr ⟨htaken.shorter, by omega⟩

/-- Where something is missing that was there, a token has been taken. -/
theorem Moved.taken (hmoved : Moved first (lexeme :: rest) fuel next left)
    (htrivia : lexeme.kind.isTrivia = false) (hshort : next.length < (lexeme :: rest).length) :
    Taken first (lexeme :: rest) next left := by
  rcases hmoved with ⟨⟨hsame, _⟩, _⟩ | htaken
  · have hahead := length_ahead_le next
    rw [hsame, ahead_cons htrivia] at hahead
    omega
  · exact htaken

theorem Moved.weaken (hmoved : Moved first tail fuel next left) (hle : first ≤ second) :
    Moved second tail fuel next left := by
  rcases hmoved with ⟨hnear, hfuel⟩ | htaken
  · exact Or.inl ⟨hnear, by omega⟩
  · exact htaken.moved hle

end

/-! ### Where the body is cut off -/

/-- The body is cut off, and this is its root. -/
structure CutAt (outcome : Reader.Outcome) (root : Option Value) (work : Work) (last : State) :
    Prop where
  isCut : last.isCut = true
  work_eq : last.work = work
  outcome_eq : outcome = ⟨root, last.reports, true⟩

theorem CutAt.shouldStop {root : Option Value} {last : State}
    (hcut : CutAt outcome root work last) : shouldStop last = .ok (true, last) := by
  change Except.ok (last.isCut || last.isAbandoned, last) = _
  rw [hcut.isCut, Bool.true_or]

/-- The next token is not one in which the body is cut off, nor is it missing. -/
def IsUncut (input : Input) (tail : List Lexeme) : Prop :=
  match ahead tail with
  | [] => input.options.allowsFragments = false
  | lexeme :: _ => input.setting.isCutIn lexeme = false

theorem IsUncut.atEnd (huncut : IsUncut input tail) (hnext : ahead tail = []) :
    input.options.allowsFragments = false := by
  rwa [IsUncut, hnext] at huncut

theorem IsUncut.token {lexeme : Lexeme} {rest : List Lexeme} (huncut : IsUncut input tail)
    (hnext : ahead tail = lexeme :: rest) : input.setting.isCutIn lexeme = false := by
  rwa [IsUncut, hnext] at huncut

theorem isUncut_of_strict (hstrict : input.options.allowsFragments = false)
    (tail : List Lexeme) : IsUncut input tail := by
  unfold IsUncut
  split
  · exact hstrict
  · rw [Setting.isCutIn, show input.setting.allowsFragments = false from hstrict]
    rfl

theorem isIncomplete_of_mem {lexeme : Lexeme} {state : State}
    (hfragments : input.options.allowsFragments = true) (hmem : lexeme ∈ lex input.source) :
    isIncomplete input lexeme.toToken state = .ok (input.setting.isCutIn lexeme, state) := by
  have hsetting : input.setting.allowsFragments = true := hfragments
  rw [isIncomplete, Setting.isCutIn, hsetting, Bool.true_and]
  split
  next hstop =>
    have hsize : lexeme.span.stop = input.setting.size := hstop
    rw [run_bind (text_of_mem hmem), decide_eq_true hsize, Bool.true_and]
    rfl
  next hstop =>
    have hsize : ¬lexeme.span.stop = input.setting.size := hstop
    rw [decide_eq_false hsize, Bool.false_and]
    rfl

theorem Agrees.stopped {lexeme : Lexeme} {reader : Reader} {root : Option Value} {isCut : Bool}
    (hagrees : Agrees input outcome reader work (lexeme :: tail))
    (htrivia : lexeme.kind.isTrivia = false)
    (htake : reader.take input.setting lexeme = ⟨.stopped root isCut, [], reports⟩) :
    outcome = ⟨root, reports, isCut⟩ := by
  rw [← hagrees.outcome_eq, Reader.run_cons, Reader.step_of_not_isTrivia htrivia, htake,
    Reader.run_stopped]
  rfl

theorem runs_atCut {f : Bool → Run β}
    (hagrees : Agrees input outcome ⟨focus, holes, reports⟩ work tail)
    (hmay : Reader.mayBeCut ⟨focus, holes, reports⟩ = true)
    (hend : Reader.mayEndCut ⟨focus, holes, reports⟩ = true ∨ ahead tail ≠ [])
    (hcut : ∀ last, CutAt outcome (Reader.cutRoot ⟨focus, holes, reports⟩) work last →
      Runs (f true) last post)
    (hgo : ∀ reports next, Near tail next → IsUncut input next →
      Agrees input outcome ⟨focus, holes, reports⟩ work next →
      Runs (f false) (live next reports fuel work) post) :
    Runs (atCut input >>= f) (live tail reports fuel work) post := by
  rw [atCut, bind_assoc]
  refine .step rfl ?_
  cases hfragments : input.options.allowsFragments with
  | false =>
      exact hgo reports tail ⟨rfl, le_rfl⟩ (isUncut_of_strict hfragments tail) hagrees
  | true =>
      have hahead := hagrees.skip
      change Runs ((current? input >>= _) >>= f) _ _
      rw [bind_assoc]
      refine .step current?_live ?_
      cases hnext : ahead tail with
      | nil =>
          rw [hnext] at hahead
          have hends : Reader.mayEndCut ⟨focus, holes, _⟩ = true :=
            hend.resolve_right fun hne => hne hnext
          refine .step rfl (hcut _ ⟨rfl, rfl, ?_⟩)
          rw [← hahead.outcome_eq]
          exact Reader.finish_cut hends hfragments
      | cons lexeme rest =>
          rw [hnext] at hahead
          change Runs ((isIncomplete input lexeme.toToken >>= noteCut) >>= f) _ _
          rw [bind_assoc]
          refine .step (isIncomplete_of_mem hfragments hahead.mem_head) ?_
          have htrivia := isTrivia_of_ahead hnext
          cases hopen : input.setting.isCutIn lexeme with
          | true =>
              refine .step rfl (hcut _ ⟨rfl, rfl, ?_⟩)
              exact hahead.stopped htrivia (Reader.take_cut hmay hopen)
          | false =>
              have huncut : IsUncut input (lexeme :: rest) := by
                rw [IsUncut, ahead_cons htrivia]
                exact hopen
              exact .step rfl (hgo _ _ (hnext ▸ near_ahead tail) huncut hahead)

theorem isCutInMarker_eq (input : Input) (lexeme : Lexeme) :
    input.setting.isCutInMarker lexeme =
      (input.setting.isCutIn lexeme || input.options.allowsFragments &&
        (decide (lexeme.kind = .braceOpen) && decide (lexeme.span.stop = input.size))) := by
  rw [Setting.isCutInMarker, Bool.and_assoc]
  rfl

/-- The brace that may be the beginning of a closing marker is no reason to report anything. -/
theorem runs_atCutInMarker {f : Bool → Run β} {marker : Token} {name : String}
    {holes : List Hole} {reports : List Diagnostic}
    (hagrees : Agrees input outcome ⟨.parameterClose marker name, holes, reports⟩ work tail)
    (hcut : ∀ last, CutAt outcome (Hole.cutOff holes) work last → Runs (f true) last post)
    (hgo : ∀ reports next, Near tail next →
      (ahead next = [] → input.options.allowsFragments = false) →
      (∀ lexeme rest, ahead next = lexeme :: rest →
        input.setting.isCutInMarker lexeme = false) →
      Agrees input outcome ⟨.parameterClose marker name, holes, reports⟩ work next →
      Runs (f false) (live next reports fuel work) post) :
    Runs (atCutInMarker input >>= f) (live tail reports fuel work) post := by
  rw [atCutInMarker, bind_assoc]
  refine runs_atCut hagrees rfl (Or.inl rfl) ?_ ?_
  · intro last hlast
    exact .step rfl (hcut last hlast)
  · intro reports next hnear huncut hnext
    cases hfragments : input.options.allowsFragments with
    | false =>
        refine .step rfl (hgo reports next hnear (fun _ => hfragments) ?_ hnext)
        intro lexeme rest hlexemes
        rw [isCutInMarker_eq, huncut.token hlexemes, hfragments]
        rfl
    | true =>
        change Runs ((current? input >>= _) >>= f) _ _
        rw [bind_assoc]
        refine .step current?_live ?_
        have hahead := hnext.skip
        cases hlexemes : ahead next with
        | nil => exact absurd (huncut.atEnd hlexemes) (by simp [hfragments])
        | cons lexeme rest =>
            rw [hlexemes] at hahead
            have htrivia := isTrivia_of_ahead hlexemes
            have hmarker := isCutInMarker_eq input lexeme
            rw [huncut.token hlexemes, hfragments, Bool.false_or, Bool.true_and] at hmarker
            change Runs (noteCut (decide (lexeme.kind = .braceOpen) &&
              decide (lexeme.span.stop = input.size)) >>= f) _ _
            rw [← hmarker]
            cases hopen : input.setting.isCutInMarker lexeme with
            | true =>
                refine .step rfl (hcut _ ⟨rfl, rfl, hahead.stopped htrivia ?_⟩)
                simp [Reader.take, Reader.parameterClose, hopen, live]
            | false =>
                have hnearer : Near tail (lexeme :: rest) :=
                  hnear.trans (hlexemes ▸ near_ahead next)
                refine .step rfl (hgo _ _ hnearer ?_ ?_ hahead)
                · rw [ahead_cons htrivia]
                  exact fun hnil => absurd hnil (List.cons_ne_nil _ _)
                · intro other more hother
                  rw [ahead_cons htrivia] at hother
                  cases hother
                  exact hopen

end Descent
end QueryBody
