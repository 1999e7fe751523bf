import QueryBody.Proofs.DescentAgreement
import Mathlib.Tactic

/-!
# Recovery in the descent

After a mistake the descent skips to where the reader goes on, and takes the comma after
a part if there is one.
-/

namespace QueryBody
namespace Descent

variable {input : Input} {outcome : Reader.Outcome} {work : Work} {holes : List Hole}
  {reports : List Diagnostic} {tail : List Lexeme} {fuel : Nat}

/-- The next token is one of a set, or there is none. -/
def IsSync (recovery : KindSet) (tail : List Lexeme) : Prop :=
  ∀ lexeme rest, tail = lexeme :: rest →
    lexeme.kind.isTrivia = false ∧ recovery.contains lexeme.kind = true

theorem isSync_nil (recovery : KindSet) : IsSync recovery [] := by
  intro lexeme rest hnil
  contradiction

theorem IsSync.contains_of_ahead {recovery : KindSet} {lexeme : Lexeme} {rest : List Lexeme}
    (hsync : IsSync recovery tail) (hnext : ahead tail = lexeme :: rest) :
    recovery.contains lexeme.kind = true := by
  cases tail with
  | nil => contradiction
  | cons first more =>
      obtain ⟨htrivia, hcontains⟩ := hsync first more rfl
      rw [ahead_cons htrivia] at hnext
      cases hnext
      exact hcontains

/-- A reader that skips to a token of a set, with the brackets that are open. -/
structure Skips (input : Input) (recovery : KindSet) (focusAt : Nat → Focus)
    (holes : List Hole) : Prop where
  goes (depth : Nat) (reports : List Diagnostic) :
    Reader.isStopped ⟨focusAt depth, holes, reports⟩ = false
  pass (depth : Nat) (lexeme : Lexeme) (reports : List Diagnostic)
    (hgoes : ¬(depth = 0 ∧ recovery.contains lexeme.kind = true)) :
    Reader.take input.setting ⟨focusAt depth, holes, reports⟩ lexeme =
      ⟨focusAt (Reader.pass lexeme depth), holes, reports⟩
  finish (depth : Nat) (reports : List Diagnostic) :
    Reader.finish input.setting input.options.isGroup ⟨focusAt depth, holes, reports⟩ =
      Reader.finish input.setting input.options.isGroup ⟨focusAt 0, holes, reports⟩

theorem skips_part (container : Container) (next : Resumption) (holes : List Hole) :
    Skips input .valueRecovery (.skip · container next) holes where
  goes _ _ := rfl
  pass depth lexeme reports hgoes := by simp [Reader.take, Reader.skip, hgoes]
  finish _ _ := rfl

theorem skips_parameter (holes : List Hole) :
    Skips input .parameterRecovery .skipParameter holes where
  goes _ _ := rfl
  pass depth lexeme reports hgoes := by simp [Reader.take, Reader.skipParameter, hgoes]
  finish _ _ := rfl

theorem nestingAfter_eq {lexeme : Lexeme} {nesting : Nat} {state : State}
    (hsmall : nesting + 1 < UInt32.size) :
    nestingAfter lexeme.kind nesting state = .ok (Reader.pass lexeme nesting, state) := by
  unfold nestingAfter Reader.pass
  cases lexeme.kind <;> first | rfl | exact word_of_lt hsmall

inductive Skipped (input : Input) (outcome : Reader.Outcome) (recovery : KindSet)
    (reader : List Diagnostic → Reader) (work : Work) (tail : List Lexeme) (fuel : Nat) :
    State → Prop
  | intro {next : List Lexeme} {reports : List Diagnostic} {left : Nat}
      (hagrees : Agrees input outcome (reader reports) work next)
      (hsync : IsSync recovery next) (hmoved : Moved 1 tail fuel next left) :
      Skipped input outcome recovery reader work tail fuel (live next reports left work)

theorem runs_skipFrom {recovery : KindSet} {focusAt : Nat → Focus}
    (hskips : Skips input recovery focusAt holes) {steps nesting : Nat}
    (hsteps : tail.length < steps) (hnesting : nesting + tail.length < UInt32.size)
    (hfuel : 1 < fuel)
    (hagrees : Agrees input outcome ⟨focusAt nesting, holes, reports⟩ work tail) :
    Runs (skipFrom input recovery steps nesting) (live tail reports fuel work) fun _ last =>
      Skipped input outcome recovery (⟨focusAt 0, holes, ·⟩) work tail fuel last := by
  -- Every round but the last one takes a token, so the steps last as long as the tokens.
  induction steps generalizing tail nesting fuel reports with
  | zero => omega
  | succ steps ih =>
      rw [skipFrom]
      refine runs_current hagrees hfuel ?_ ?_
      · intro reports hnext hahead
        exact .done ⟨hahead.atEnd (hskips.finish _ _) (hskips.goes _ _), isSync_nil recovery,
          moved_ahead hnext 1 (by omega)⟩
      · intro reports lexeme rest hnext hahead
        have htrivia := isTrivia_of_ahead hnext
        have hmoved : Moved 1 tail fuel (lexeme :: rest) (fuel - 1) :=
          moved_ahead hnext 1 (by omega)
        have htaken := taken_next hnext (le_refl tail.length)
        have hlength := htaken.shorter
        have hinside := kind_ne_endOfInput hahead.mem_head
        split
        next hstops =>
          obtain ⟨rfl, hcontains⟩ : nesting = 0 ∧ recovery.contains lexeme.kind = true := by
            simpa [hinside] using hstops
          refine .done ⟨hahead, ?_, hmoved⟩
          intro other more hother
          cases hother
          exact ⟨htrivia, hcontains⟩
        next hgoes =>
          have hpass : ¬(nesting = 0 ∧ recovery.contains lexeme.kind = true) := by
            simpa [hinside] using hgoes
          refine .step (nestingAfter_eq (by omega)) (.step (bump_token htrivia) ?_)
          have hrest := hahead.take htrivia (hskips.pass nesting lexeme reports hpass)
            (hskips.goes _ _)
          have hdepth : Reader.pass lexeme nesting ≤ nesting + 1 := by
            unfold Reader.pass
            split <;> omega
          have hfull : 1 < fullFuel := by decide
          obtain ⟨result, last, hrun, hlast⟩ := ih (by omega) (by omega) hfull hrest
          obtain ⟨hagrees, hsync, hrest⟩ := hlast
          exact ⟨result, _, hrun, hagrees, hsync, Or.inr (htaken.trans hrest)⟩

/-- A skip ends where the reader goes on. -/
theorem runs_skipUntil {recovery : KindSet} {focusAt : Nat → Focus}
    (hskips : Skips input recovery focusAt holes) (hfuel : 1 < fuel)
    (hagrees : Agrees input outcome ⟨focusAt 0, holes, reports⟩ work tail) :
    Runs (skipUntil input recovery) (live tail reports fuel work) fun _ last =>
      Skipped input outcome recovery (⟨focusAt 0, holes, ·⟩) work tail fuel last := by
  have hroom := hagrees.room
  refine .step rfl (runs_skipFrom hskips ?_ (by omega) hfuel hagrees)
  simp [live]

/-- What the reader expects after a skip. -/
def focusAfter (container : Container) : Resumption → Focus
  | .separator => .separator container
  | .part => .part container none

theorem Agrees.resume {container : Container} {next : Resumption}
    (hagrees : Agrees input outcome ⟨.skip 0 container next, holes, reports⟩ work tail)
    (hsync : IsSync .valueRecovery tail) :
    Agrees input outcome ⟨focusAfter container next, holes, reports⟩ work tail := by
  cases tail with
  | nil => cases next <;> exact hagrees.atEnd rfl rfl
  | cons lexeme rest =>
      obtain ⟨htrivia, hrecovery⟩ := hsync lexeme rest rfl
      cases next with
      | separator => exact hagrees.turn htrivia (.resume hrecovery)
      | part => exact hagrees.turn htrivia (.resumePart hrecovery)

/-- After a broken part the descent goes on where the reader does. -/
theorem runs_skipPart {container : Container} {next : Resumption} (hfuel : 1 < fuel)
    (hagrees : Agrees input outcome ⟨.skip 0 container next, holes, reports⟩ work tail) :
    Runs (skipUntil input .valueRecovery) (live tail reports fuel work) fun _ last =>
      Skipped input outcome .valueRecovery (⟨focusAfter container next, holes, ·⟩) work tail fuel
        last := by
  obtain ⟨result, last, hrun, hlast⟩ :=
    runs_skipUntil (skips_part container next holes) hfuel hagrees
  obtain ⟨hsame, hsync, hmoved⟩ := hlast
  exact ⟨result, _, hrun, hsame.resume hsync, hsync, hmoved⟩

theorem Form.Holds.begins_eq {form : Form} {container : Container}
    (hholds : form.Holds container) (kind : Kind) :
    form.begins kind = Reader.beginsPart container kind := by
  cases container <;> (obtain ⟨rfl, _⟩ := hholds; rfl)

theorem Form.Holds.closer_eq {form : Form} {container : Container} (hholds : form.Holds container) :
    form.closer = container.closer := by
  cases container <;> (obtain ⟨rfl, _⟩ := hholds; rfl)

/-- What the comma after a part comes to, or the lack of one. -/
inductive Separated (input : Input) (outcome : Reader.Outcome) (container : Container)
    (holes : List Hole) (work : Work) (tail : List Lexeme) (fuel : Nat) :
    Option Token → State → Prop
  | intro {comma : Option Token} {next : List Lexeme} {reports : List Diagnostic} {left : Nat}
      (hagrees : Agrees input outcome ⟨.part container comma, holes, reports⟩ work next)
      (hmoved : Moved 3 tail fuel next left)
      (hcomma : ∀ lexeme rest, ahead tail = lexeme :: rest → lexeme.kind = .comma →
        next.length < tail.length) :
      Separated input outcome container holes work tail fuel comma (live next reports left work)

theorem runs_separator {form : Form} {container : Container} (hholds : form.Holds container)
    (hfuel : 3 < fuel)
    (hagrees : Agrees input outcome ⟨.separator container, holes, reports⟩ work tail) :
    Runs (separator input form) (live tail reports fuel work)
      (Separated input outcome container holes work tail fuel) := by
  refine runs_current hagrees (by omega) ?_ ?_
  · intro reports hnext hahead
    refine .done ⟨hahead.atEnd rfl rfl, (moved_ahead hnext 1 (by omega)).weaken (by omega), ?_⟩
    intro lexeme rest hlexemes
    rw [hnext] at hlexemes
    contradiction
  · intro reports lexeme rest hnext hahead
    have htrivia := isTrivia_of_ahead hnext
    have htaken := taken_next hnext (le_refl tail.length)
    have hstays : Moved 3 tail fuel (lexeme :: rest) (fuel - 1) :=
      (moved_ahead hnext 1 (by omega)).weaken (by omega)
    have hnone {kind : Kind} (hkind : lexeme.kind = kind) (hother : kind ≠ .comma)
        (next : List Lexeme) : ∀ other more, ahead tail = other :: more → other.kind = .comma →
          next.length < tail.length := by
      intro other more hlexemes hcomma
      rw [hnext] at hlexemes
      cases hlexemes
      exact absurd (hkind.symm.trans hcomma) hother
    split
    next hkind =>
      refine .step (bump_token htrivia) (.done ⟨hahead.take htrivia ?_ rfl, ?_, ?_⟩)
      · exact Reader.take_separator_comma hkind _ _ _
      · exact htaken.moved (by omega)
      · exact fun _ _ _ _ => htaken.shorter
    next hkind =>
      refine .done ⟨hahead.look htrivia (Reader.take_closing (Or.inl hkind)) rfl, hstays, ?_⟩
      exact hnone hkind (by decide) _
    next hkind =>
      refine .done ⟨hahead.look htrivia (Reader.take_closing (Or.inr hkind)) rfl, hstays, ?_⟩
      exact hnone hkind (by decide) _
    next hkind => exact absurd hkind (kind_ne_endOfInput hahead.mem_head)
    next hcomma hbrace hbracket hend =>
      have hrecovery := KindSet.not_valueRecovery hcomma hbrace hbracket
      refine .step (errorFound_token _ htrivia hahead.mem_head (by omega)) ?_
      have hreported : Moved 2 tail fuel (lexeme :: rest) (fuel - 1 - 1) :=
        moved_ahead hnext 2 (by omega)
      split
      next hbegins =>
        rw [hholds.begins_eq] at hbegins
        exact .done ⟨hahead.turn htrivia (.missingComma hrecovery hbegins),
          hreported.weaken (by omega), hnone rfl hcomma _⟩
      next hbegins =>
        rw [hholds.begins_eq, Bool.not_eq_true] at hbegins
        have hskips := hahead.turn htrivia (.noPart hrecovery hbegins)
        refine .bind (runs_skipPart (by omega) hskips) ?_
        rintro _ _ ⟨hagrees, hsync, hskipped⟩
        exact .done ⟨hagrees, hreported.trans hskipped, hnone rfl hcomma _⟩

end Descent
end QueryBody
