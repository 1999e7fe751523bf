import QueryBody.Parser.Descent
import QueryBody.Proofs.Moves
import QueryBody.Proofs.TokenText
import QueryBody.Proofs.Arena
import Mathlib.Data.List.DropRight
import Mathlib.Tactic

/-!
# Steps of the descent

What the small procedures of the descent make of a state, as long as nothing is missing
that they check.
-/

namespace QueryBody
namespace Descent

/-- A run ends without a fault, and something holds of its result and its last state. -/
def Runs {α : Type} (x : Run α) (state : State) (post : α → State → Prop) : Prop :=
  ∃ result last, x state = .ok (result, last) ∧ post result last

section

variable {α β : Type} {x : Run α} {f : α → Run β} {state last : State} {result : α}
  {post : β → State → Prop}

theorem run_bind (hrun : x state = .ok (result, last)) (f : α → Run β) :
    (x >>= f) state = f result last := by
  change (x state >>= fun (a, s) => f a s) = _
  rw [hrun]
  rfl

theorem run_get (f : State → Run β) : (get >>= f) state = f state state := rfl

theorem Runs.done {result : β} (hpost : post result state) : Runs (pure result) state post :=
  ⟨result, state, rfl, hpost⟩

theorem Runs.step (hrun : x state = .ok (result, last)) (hnext : Runs (f result) last post) :
    Runs (x >>= f) state post := by
  obtain ⟨value, final, hfinal, hpost⟩ := hnext
  exact ⟨value, final, (run_bind hrun f).trans hfinal, hpost⟩

theorem Runs.mono {x : Run β} {weaker : β → State → Prop} (hruns : Runs x state post)
    (hweaker : ∀ result last, post result last → weaker result last) : Runs x state weaker := by
  obtain ⟨result, last, hrun, hpost⟩ := hruns
  exact ⟨result, last, hrun, hweaker result last hpost⟩

theorem Runs.bind {mid : α → State → Prop} (hfirst : Runs x state mid)
    (hnext : ∀ result last, mid result last → Runs (f result) last post) :
    Runs (x >>= f) state post := by
  obtain ⟨result, last, hrun, hmid⟩ := hfirst
  exact .step hrun (hnext result last hmid)

end

/-! ### Trivia -/

/-- The tokens from the next one on that is no trivia. -/
def ahead (tail : List Lexeme) : List Lexeme := tail.dropWhile (·.kind.isTrivia)

/-- A parse that goes on, with its last tokens still to be taken. -/
def live (tail : List Lexeme) (reports : List Diagnostic) (fuel : Nat) (work : Work) : State :=
  ⟨tail.map Lexeme.toToken, reports, fuel, work, false, false⟩

def kindAt (tail : List Lexeme) : Kind := kindOf (tail.map Lexeme.toToken)

section

variable (input : Input)

/-- The reports once the next trivia are skipped. -/
def reportsAhead (tail : List Lexeme) (reports : List Diagnostic) : List Diagnostic :=
  (pastTrivia input (tail.map Lexeme.toToken) reports).2

theorem pastTrivia_eq (tail : List Lexeme) (reports : List Diagnostic) :
    pastTrivia input (tail.map Lexeme.toToken) reports =
      ((ahead tail).map Lexeme.toToken, reportsAhead input tail reports) := by
  refine Prod.ext ?_ rfl
  induction tail generalizing reports with
  | nil => rfl
  | cons lexeme rest ih =>
      rw [List.map_cons, pastTrivia, ahead, List.dropWhile_cons]
      split
      · exact ih _
      · rfl

theorem length_ahead_le (tail : List Lexeme) : (ahead tail).length ≤ tail.length :=
  (List.dropWhile_suffix _).length_le

variable {input : Input} {tail : List Lexeme} {lexeme : Lexeme} {reports : List Diagnostic}
  {fuel : Nat} {work : Work}

theorem ahead_cons (htrivia : lexeme.kind.isTrivia = false) (tail : List Lexeme) :
    ahead (lexeme :: tail) = lexeme :: tail := by
  rw [ahead, List.dropWhile_cons_of_neg (by simp [htrivia])]

theorem reportsAhead_cons (htrivia : lexeme.kind.isTrivia = false) :
    reportsAhead input (lexeme :: tail) reports = reports := by
  rw [reportsAhead, List.map_cons, pastTrivia, if_neg (by simp [htrivia])]

theorem ahead_trivia (htrivia : lexeme.kind.isTrivia = true) (tail : List Lexeme) :
    ahead (lexeme :: tail) = ahead tail :=
  List.dropWhile_cons_of_pos htrivia

theorem reportsAhead_trivia (htrivia : lexeme.kind.isTrivia = true) :
    reportsAhead input (lexeme :: tail) reports =
      reportsAhead input tail (reportTrivia input lexeme.toToken reports) := by
  rw [reportsAhead, List.map_cons, pastTrivia, if_pos htrivia, reportsAhead]

@[simp] theorem ahead_ahead (tail : List Lexeme) : ahead (ahead tail) = ahead tail :=
  List.dropWhile_idempotent _ tail

theorem isTrivia_of_ahead {rest : List Lexeme} (hahead : ahead tail = lexeme :: rest) :
    lexeme.kind.isTrivia = false := by
  have hnot := List.head?_dropWhile_not (·.kind.isTrivia) tail
  rw [← ahead, hahead] at hnot
  simpa using hnot

theorem skipTrivia_live :
    skipTrivia input (live tail reports fuel work) =
      .ok ((), live (ahead tail) (reportsAhead input tail reports) fuel work) := by
  change Except.ok _ = _
  simp only [live, pastTrivia_eq]

/-! ### Looking at a token and taking it -/

theorem current_live (hfuel : 1 < fuel) :
    current input (live tail reports fuel work) =
      .ok (kindAt (ahead tail),
        live (ahead tail) (reportsAhead input tail reports) (fuel - 1) work) := by
  rw [current, run_bind skipTrivia_live]
  change (if fuel ≤ 1 then throw Fault.stuck else _ : Run Kind) _ = _
  rw [if_neg (by omega)]
  rfl

theorem current?_live :
    current? input (live tail reports fuel work) =
      .ok ((ahead tail).head?.map Lexeme.toToken,
        live (ahead tail) (reportsAhead input tail reports) fuel work) := by
  rw [current?, run_bind skipTrivia_live, ← List.head?_map]
  rfl

theorem current_token (htrivia : lexeme.kind.isTrivia = false) (hfuel : 1 < fuel) :
    current input (live (lexeme :: tail) reports fuel work) =
      .ok (lexeme.kind, live (lexeme :: tail) reports (fuel - 1) work) := by
  rw [current_live hfuel, ahead_cons htrivia, reportsAhead_cons htrivia]
  rfl

theorem current_end (hfuel : 1 < fuel) :
    current input (live [] reports fuel work) =
      .ok (.endOfInput, live [] reports (fuel - 1) work) := by
  rw [current_live hfuel]
  rfl

theorem current?_token (htrivia : lexeme.kind.isTrivia = false) :
    current? input (live (lexeme :: tail) reports fuel work) =
      .ok (some lexeme.toToken, live (lexeme :: tail) reports fuel work) := by
  rw [current?_live, ahead_cons htrivia, reportsAhead_cons htrivia]
  rfl

theorem current?_end :
    current? input (live [] reports fuel work) = .ok (none, live [] reports fuel work) := by
  rw [current?_live]
  rfl

theorem bump_token (htrivia : lexeme.kind.isTrivia = false) :
    bump input (live (lexeme :: tail) reports fuel work) =
      .ok (lexeme.toToken, live tail reports fullFuel work) := by
  rw [bump, run_bind skipTrivia_live, ahead_cons htrivia, reportsAhead_cons htrivia]
  rfl

/-- There is nothing to skip once the rest of the body is ignored. -/
theorem skipUntil_of_nil {state : State} (recovery : KindSet) (hrest : state.rest = [])
    (hfuel : 1 < state.fuel) :
    skipUntil input recovery state = .ok ((), { state with fuel := state.fuel - 1 }) := by
  obtain ⟨rest, reports, fuel, work, isCut, isAbandoned⟩ := state
  subst hrest
  have hskip : skipTrivia input ⟨[], reports, fuel, work, isCut, isAbandoned⟩ =
      .ok ((), ⟨[], reports, fuel, work, isCut, isAbandoned⟩) := rfl
  have hcurrent : current input ⟨[], reports, fuel, work, isCut, isAbandoned⟩ =
      .ok (.endOfInput, ⟨[], reports, fuel - 1, work, isCut, isAbandoned⟩) := by
    rw [current, run_bind hskip, run_get, if_neg (Nat.not_le.mpr hfuel)]
    rfl
  rw [skipUntil, run_get, skipFrom, run_bind hcurrent]
  rfl

theorem assertCurrent_token (htrivia : lexeme.kind.isTrivia = false) (hfuel : 1 < fuel) :
    assertCurrent input lexeme.kind (live (lexeme :: tail) reports fuel work) =
      .ok ((), live (lexeme :: tail) reports (fuel - 1) work) := by
  rw [assertCurrent, run_bind (current_token htrivia hfuel), if_pos rfl]
  rfl

theorem shouldStop_live :
    shouldStop (live tail reports fuel work) = .ok (false, live tail reports fuel work) := rfl

/-! ### Texts -/

variable {state : State}

theorem slice_of_slice? {span : Span} {whole part : List Char}
    (hslice : Utf8.slice? span.start span.stop whole = some part) :
    slice span whole state = .ok (part, state) := by
  rw [slice, hslice]
  rfl

theorem text_of_mem (hmem : lexeme ∈ lex input.source) :
    text input lexeme.toToken state = .ok (lexeme.text, state) :=
  slice_of_slice? (isSliceOf_of_mem_lex hmem).slice

theorem unquoted_of_mem (hmem : lexeme ∈ lex input.source)
    (hkind : lexeme.kind = .string ∨ lexeme.kind = .invalidString) :
    unquoted lexeme.text state = .ok (lexeme.content, state) :=
  slice_of_slice? ((isSliceOf_of_mem_lex hmem).content hkind)

theorem stringValue_of_mem (hmem : lexeme ∈ lex input.source) (hkind : lexeme.kind = .string) :
    stringValue input lexeme.toToken state = .ok (lexeme.string, state) := by
  rw [stringValue, run_bind (text_of_mem hmem), run_bind (unquoted_of_mem hmem (Or.inl hkind)),
    Lexeme.string]
  cases unescape lexeme.content <;> rfl

theorem currentText_token (htrivia : lexeme.kind.isTrivia = false)
    (hmem : lexeme ∈ lex input.source) :
    currentText input (live (lexeme :: tail) reports fuel work) =
      .ok (lexeme.text, live (lexeme :: tail) reports fuel work) := by
  rw [currentText, run_bind (current?_token htrivia)]
  exact text_of_mem hmem

/-! ### Reports -/

theorem report_live {diagnostic : Diagnostic} :
    report diagnostic (live tail reports fuel work) =
      .ok ((), live tail (Report.add diagnostic reports) fuel work) := rfl

theorem describeCurrent_token (htrivia : lexeme.kind.isTrivia = false)
    (hmem : lexeme ∈ lex input.source) (hfuel : 1 < fuel) :
    describeCurrent input (live (lexeme :: tail) reports fuel work) =
      .ok (Report.found lexeme, live (lexeme :: tail) reports (fuel - 1) work) := by
  rw [describeCurrent, run_bind (current_token htrivia hfuel), Report.found]
  cases lexeme.kind with
  | identifier => exact run_bind (currentText_token htrivia hmem) _
  | garbage => exact run_bind (currentText_token htrivia hmem) _
  | _ => rfl

theorem errorFound_token (problem : Problem) (htrivia : lexeme.kind.isTrivia = false)
    (hmem : lexeme ∈ lex input.source) (hfuel : 1 < fuel) :
    errorFound input problem (live (lexeme :: tail) reports fuel work) =
      .ok ((), live (lexeme :: tail) (Report.add (Report.instead problem lexeme) reports)
        (fuel - 1) work) := by
  rw [errorFound, run_bind (describeCurrent_token htrivia hmem hfuel), errorMessage,
    run_bind (current?_token htrivia)]
  rfl

theorem errorFound_end (problem : Problem) (hfuel : 1 < fuel) :
    errorFound input problem (live [] reports fuel work) =
      .ok ((), live [] (Report.add (Report.missing problem input.size) reports)
        (fuel - 1) work) := by
  rw [errorFound, describeCurrent, run_bind (run_bind (current_end hfuel) _)]
  rfl

theorem error_end (problem : Problem) :
    error input problem (live [] reports fuel work) =
      .ok ((), live [] (Report.add (.atEnd problem input.size) reports) fuel work) := by
  rw [error, run_bind current?_end]
  rfl

theorem errorAndBump_token (problem : Problem) (detail : Option String)
    (htrivia : lexeme.kind.isTrivia = false) :
    errorAndBump input problem detail (live (lexeme :: tail) reports fuel work) =
      .ok ((), live tail
        (Report.add (diagnosticAt input problem (some lexeme.toToken) detail) reports)
        fullFuel work) := by
  rw [errorAndBump, run_bind (current?_token htrivia), reportAt, run_bind report_live,
    if_pos (Option.isSome_some), run_bind (bump_token htrivia)]
  rfl

/-- A token that begins no value is reported and taken. -/
theorem errorBadValue_token (htrivia : lexeme.kind.isTrivia = false)
    (hmem : lexeme ∈ lex input.source) (hfuel : 2 < fuel) :
    errorBadValue input (live (lexeme :: tail) reports fuel work) =
      .ok ((), live tail (Report.add (Report.noValue lexeme) reports) fullFuel work) := by
  rw [errorBadValue, run_bind (current_token htrivia (by omega)),
    run_bind (currentText_token htrivia hmem), Report.noValue]
  cases hkind : lexeme.kind with
  | unterminatedString => exact errorAndBump_token .unterminatedString none htrivia
  | invalidString =>
      dsimp only
      rw [run_bind (unquoted_of_mem hmem (Or.inr hkind)), Report.escapeDetail?]
      cases unescape lexeme.content <;> exact errorAndBump_token .invalidEscape _ htrivia
  | malformedNumber => exact errorAndBump_token .malformedNumber _ htrivia
  | partialMarker => exact errorAndBump_token .malformedMarker _ htrivia
  | garbage => exact errorAndBump_token .unrecognizedCharacter _ htrivia
  | identifier => exact errorAndBump_token .unexpectedToken _ htrivia
  | _ =>
      dsimp only
      rw [run_bind (describeCurrent_token htrivia hmem (by omega))]
      exact errorAndBump_token .expectedValue _ htrivia

theorem Form.opener_eq (form : Form) : form.opener = .braceOpen ∨ form.opener = .bracketOpen := by
  cases form
  · exact Or.inr rfl
  · exact Or.inl rfl

/-- The bracket of a container tells its kind. -/
def Form.Holds (form : Form) : Container → Prop
  | .array opener _ => form = .array ∧ opener.kind = .bracketOpen
  | .object opener _ => form = .object ∧ opener.kind = .braceOpen

variable {form : Form} {container : Container}

theorem errorUnclosed_token (hholds : form.Holds container)
    (htrivia : lexeme.kind.isTrivia = false) :
    errorUnclosed input container.opener (live (lexeme :: tail) reports fuel work) =
      .ok ((), live (lexeme :: tail) (Report.add (Report.mismatched container lexeme) reports)
        fuel work) := by
  rw [errorUnclosed, run_bind (current?_token htrivia)]
  cases container with
  | array opener items =>
      simp only [Container.opener, hholds.2]
      rfl
  | object opener members =>
      simp only [Container.opener, hholds.2]
      rfl

theorem errorUnclosed_end (hholds : form.Holds container) :
    errorUnclosed input container.opener (live [] reports fuel work) =
      .ok ((), live [] (Report.add (Report.unclosed container input.size) reports) fuel work) := by
  rw [errorUnclosed, run_bind current?_end]
  cases container with
  | array opener items =>
      simp only [Container.opener, hholds.2]
      rfl
  | object opener members =>
      simp only [Container.opener, hholds.2]
      rfl

theorem errorTrailingComma_live (comma : Option Token) :
    errorTrailingComma comma (live tail reports fuel work) =
      .ok ((), live tail (Reader.reportComma comma reports) fuel work) := by
  cases comma <;> rfl

/-! ### Nodes -/

theorem word_of_lt {number : Nat} (hsmall : number < UInt32.size) :
    word number state = .ok (number, state) := by
  rw [word, if_pos hsmall]
  rfl

theorem alloc_live (content : Content) (token : Token) (parent : Option Nat)
    (hroom : work.nodes.length < UInt32.size) :
    alloc content token parent (live tail reports fuel work) =
      .ok (work.nodes.length, live tail reports fuel
        { work with nodes := work.nodes ++ [⟨content, token, parent⟩] }) := by
  rw [alloc, run_get]
  exact run_bind (word_of_lt hroom) _

theorem node_of_getElem? {id : Nat} {found : Node} (hget : state.work.nodes[id]? = some found) :
    node id state = .ok (found, state) := by
  rw [node, run_get, hget]
  rfl

def State.withNodes (state : State) (nodes : List Node) : State :=
  { state with work := { state.work with nodes } }

theorem pushElement_of_revised {array element : Nat} {items : List Nat} {nodes : List Node}
    (hrevised : Revised array (.array items) (.array (items ++ [element])) state.work.nodes
      nodes) :
    pushElement array element state = .ok ((), state.withNodes nodes) := by
  obtain ⟨found, hget, hcontent⟩ := hrevised.getElem?
  rw [pushElement, run_bind (node_of_getElem? hget), hcontent, State.withNodes, ← hrevised.modify]
  rfl

theorem insertProperty_of_revised {object : Nat} {key : String} {entry : Entry}
    {entries : List (String × Entry)} {nodes : List Node}
    (hrevised : Revised object (.object entries) (.object (Slots.insert key entry entries))
      state.work.nodes nodes) :
    insertProperty object key entry state = .ok ((), state.withNodes nodes) := by
  obtain ⟨found, hget, hcontent⟩ := hrevised.getElem?
  rw [insertProperty, run_bind (node_of_getElem? hget), hcontent, State.withNodes,
    ← hrevised.modify]
  rfl

theorem isEmptyContainer_of_container {holes : List Hole}
    (hnodes : state.work.nodes = nodesWith container.value holes) :
    isEmptyContainer (place holes) state = .ok (container.isEmpty, state) := by
  obtain ⟨found, hget, hempty⟩ := exists_node_of_container container holes
  rw [← hnodes] at hget
  rw [isEmptyContainer, run_bind (node_of_getElem? hget), hempty]
  rfl

theorem rollback_eq (mark : Nat) :
    rollback mark state = .ok ((), state.withNodes (state.work.nodes.take mark)) := rfl

/-! ### Nesting -/

/-- A container that exceeds the nesting limit is not entered: the rest of the body is ignored. -/
theorem enterRecursion_exceeded {limit : Nat}
    (htrivia : lexeme.kind.isTrivia = false)
    (hexceeded : input.setting.exceeded? work.depth = some limit) :
    enterRecursion input (live (lexeme :: tail) reports fuel work) =
      .ok (false,
        ⟨[], Report.add (Report.tooDeep limit lexeme) reports, fuel, work, false, true⟩) := by
  rw [enterRecursion, run_get]
  simp only [live, hexceeded]
  rw [errorMessage, bind_assoc]
  exact run_bind (current?_token htrivia) _

theorem enterRecursion_room (hroom : input.setting.exceeded? work.depth = none)
    (hdepth : work.depth + 1 < UInt32.size) :
    enterRecursion input (live tail reports fuel work) =
      .ok (true, live tail reports fullFuel { work with depth := work.depth + 1 }) := by
  rw [enterRecursion, run_get]
  simp only [live, hroom]
  exact run_bind (word_of_lt hdepth) _

end
end Descent
end QueryBody
