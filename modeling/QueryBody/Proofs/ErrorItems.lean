import QueryBody.Proofs.CutQueries
import QueryBody.Proofs.LaterReports
import QueryBody.Proofs.NumberText
import QueryBody.Proofs.Positions
import QueryBody.Proofs.TokenText
import Mathlib.Tactic

/-!
# Error items

A rejected query is answered with one item for each diagnostic, in their order.  An item shows
where its diagnostic stands: as diagnostics stand at ever larger offsets on character
boundaries, their positions come one after the other.  Every diagnostic has a wording of its
problem, so none looks like the item for a query without diagnostics.
-/

namespace QueryBody

/-! ### Wording -/

/-- The message is a wording of the problem. -/
def Diagnostic.IsWorded (diagnostic : Diagnostic) : Prop :=
  ∃ detail?, diagnostic.message = diagnostic.problem.message detail?

namespace Report

variable {setting : Setting} {lexeme : Lexeme} {diagnostic : Diagnostic}

theorem isWorded_noValue (lexeme : Lexeme) : (noValue lexeme).IsWorded := by
  unfold noValue
  dsimp only
  split
  case h_1 => exact ⟨none, rfl⟩
  case h_2 =>
    split
    · exact ⟨some _, rfl⟩
    · exact ⟨none, rfl⟩
  all_goals exact ⟨some _, rfl⟩

theorem Reported.isWorded (hreported : Reported setting lexeme diagnostic) :
    diagnostic.IsWorded := by
  cases hreported with
  | noted hnoted =>
      cases hnoted with
      | instead hproblem => exact ⟨some _, rfl⟩
      | noValue hcut => exact isWorded_noValue lexeme
      | mismatched container => exact ⟨some _, rfl⟩
  | tooDeep hexceeded => exact ⟨some _, rfl⟩
  | trailingComma => exact ⟨none, rfl⟩
  | openComment hstrict => exact ⟨none, rfl⟩

theorem AtEnd.isWorded {size : Nat} (hend : AtEnd size diagnostic) : diagnostic.IsWorded := by
  cases hend with
  | missing hproblem => exact ⟨some _, rfl⟩
  | unexpectedEnd => exact ⟨none, rfl⟩
  | unclosed container => exact ⟨some _, rfl⟩

end Report

theorem Problem.message_ne (problem : Problem) (detail? : Option String) :
    problem.message detail? ≠ "Syntax Error" := by
  intro hsame
  have hhead := congrArg (fun text : String => text.toList.head?) hsame
  cases detail? with
  | none => cases problem <;> simp [message, plainMessage] at hhead
  | some detail =>
      cases problem <;> simp [message, detailedMessage, introduction, plainMessage] at hhead

/-! ### Titles -/

theorem Position.ne_blank_of_mem_text {position : Position} :
    ∀ c ∈ position.text.toList, decide (c ≠ ' ') = true := by
  have hdigits (n : Nat) : ' ' ∉ Nat.toDigits 10 n :=
    fun hmem => absurd (isDigit_of_mem_toDigits ' ' hmem) (by decide)
  have hblank : ' ' ∉ position.text.toList := by simp [text, hdigits]
  exact fun c hmem => decide_eq_true fun hsame => hblank (hsame ▸ hmem)

theorem Position.message_eq_of_title {first second : Position} {message other : String}
    (htitle : first.text ++ " " ++ message = second.text ++ " " ++ other) : message = other := by
  have hrest := congrArg (fun title : String => title.toList.dropWhile (· ≠ ' ')) htitle
  simp only [String.toList_append, List.append_assoc,
    List.dropWhile_append_of_pos ne_blank_of_mem_text] at hrest
  exact String.toList_injective (List.cons_inj_right ' ' |>.mp hrest)

/-- No diagnostic has the item of a query that is wrong for no reason given. -/
theorem Diagnostic.IsWorded.titled_ne {diagnostic : Diagnostic} (hworded : diagnostic.IsWorded)
    (position : Position) :
    ErrorItem.titled (position.text ++ " " ++ diagnostic.message) ≠ .syntaxError := by
  obtain ⟨detail?, hmessage⟩ := hworded
  intro hsame
  have htext : "0:0:0 Syntax Error" = (Position.after []).text ++ " " ++ "Syntax Error" := by
    decide
  have htitle := (congrArg ErrorItem.title hsame).trans htext
  exact diagnostic.problem.message_ne detail?
    (hmessage.symm.trans (Position.message_eq_of_title htitle))

namespace Diagnostic

def before (source : String) (diagnostic : Diagnostic) : List Char :=
  Utf8.upTo diagnostic.offset source.toList

def position (source : String) (diagnostic : Diagnostic) : Position :=
  .after (diagnostic.before source)

variable {source : String} {diagnostic : Diagnostic}

/-- A diagnostic stands at a token or at the end, so a beginning of the text ends there. -/
theorem IsPlaced.exists_before
    (hplaced : diagnostic.IsPlaced (lex source) (Utf8.size source.toList)) :
    ∃ before rest, source.toList = before ++ rest ∧ diagnostic.offset = Utf8.size before := by
  rcases hplaced.span with ⟨lexeme, hmem, -, hspan⟩ | ⟨-, hspan⟩
  · obtain ⟨before, after, hsource, hstart⟩ := exists_append_of_mem_lex hmem
    exact ⟨before, lexeme.text ++ after, hsource, by rw [offset, hspan, hstart]⟩
  · exact ⟨source.toList, [], (List.append_nil _).symm, by rw [offset, hspan]; rfl⟩

theorem IsPlaced.size_before
    (hplaced : diagnostic.IsPlaced (lex source) (Utf8.size source.toList)) :
    Utf8.size (diagnostic.before source) = diagnostic.offset := by
  obtain ⟨before, rest, hsource, hoffset⟩ := hplaced.exists_before
  rw [Diagnostic.before, hsource, hoffset, Utf8.upTo_append]

theorem IsPlaced.ofDiagnostic_eq
    (hplaced : diagnostic.IsPlaced (lex source) (Utf8.size source.toList)) :
    ErrorItem.ofDiagnostic source diagnostic =
      .titled ((diagnostic.position source).text ++ " " ++ diagnostic.message) := by
  have hposition : diagnostic.position source =
      Position.ofOffset source diagnostic.offset := (Position.ofOffset_eq _ _).symm
  rcases hplaced.span with ⟨lexeme, -, htoken, hspan⟩ | ⟨htoken, hspan⟩
  · rw [ErrorItem.ofDiagnostic, htoken, hposition, offset, hspan]
  · rw [ErrorItem.ofDiagnostic, htoken, hposition, offset, hspan]
    rfl

end Diagnostic

/-! ### Rejected queries -/

/-- The items show the diagnostics of a body in order, at ever later positions. -/
structure QueryErrors.Shows (source : String) (diagnostics : List Diagnostic)
    (errors : QueryErrors) : Prop where
  items_eq : errors.items = diagnostics.map fun diagnostic =>
    .titled ((diagnostic.position source).text ++ " " ++ diagnostic.message)
  boundary : ∀ diagnostic ∈ diagnostics,
    Utf8.size (diagnostic.before source) = diagnostic.offset
  ordered : (diagnostics.map (Diagnostic.position source)).Pairwise Position.Before
  nonempty : errors.items ≠ []
  explained : ErrorItem.syntaxError ∉ errors.items

theorem inOrder_diagnostics (options : Options) (source : String) :
    Report.InOrder (lex source) (Utf8.size source.toList) (Utf8.size source.toList)
      (options.parse source).diagnostics.toList.reverse := by
  rw [Options.parse, Body.ofOutcome, List.reverse_reverse]
  exact Reader.inOrder_conclusion (options.setting source) source options.isGroup rfl

theorem isWorded_of_mem {options : Options} {source : String} :
    ∀ diagnostic ∈ (options.parse source).diagnostics.toList, diagnostic.IsWorded :=
  forall_mem_diagnostics (fun _ _ _ hreported => hreported.isWorded)
    fun _ hatEnd => hatEnd.isWorded

theorem QueryErrors.shows_ofItems {source : String} {diagnostics : List Diagnostic}
    (horder : Report.InOrder (lex source) (Utf8.size source.toList) (Utf8.size source.toList)
      diagnostics.reverse)
    (hworded : ∀ diagnostic ∈ diagnostics, diagnostic.IsWorded) (hne : diagnostics ≠ []) :
    (ofItems (diagnostics.map (ErrorItem.ofDiagnostic source))).Shows source diagnostics := by
  have hplaced : ∀ diagnostic ∈ diagnostics,
      diagnostic.IsPlaced (lex source) (Utf8.size source.toList) :=
    fun diagnostic hmem => horder.placed diagnostic (List.mem_reverse.mpr hmem)
  have hitems : (ofItems (diagnostics.map (ErrorItem.ofDiagnostic source))).items =
      diagnostics.map fun diagnostic =>
        .titled ((diagnostic.position source).text ++ " " ++ diagnostic.message) := by
    rw [ofItems, if_neg (by simpa using hne)]
    exact List.map_congr_left fun diagnostic hmem => (hplaced diagnostic hmem).ofDiagnostic_eq
  refine ⟨hitems, fun diagnostic hmem => (hplaced diagnostic hmem).size_before, ?_, ?_, ?_⟩
  · refine List.pairwise_map.mpr ((List.pairwise_reverse.mp horder.ordered).imp_of_mem ?_)
    intro first second hfirst hsecond hlt
    rw [← (hplaced first hfirst).size_before, ← (hplaced second hsecond).size_before] at hlt
    exact Position.before_of_size_lt (Utf8.upTo_append_eq _ _) (Utf8.upTo_append_eq _ _) hlt
  · rw [hitems]
    simpa using hne
  · rw [hitems]
    intro hmem
    obtain ⟨diagnostic, hdiagnostic, hsame⟩ := List.mem_map.mp hmem
    exact (hworded diagnostic hdiagnostic).titled_ne _ hsame

/-- A query is accepted exactly if its body has no diagnostics.  Otherwise the answer has one item
for each of them, with its position and message, and the positions are in the order of the
text. -/
theorem checkQuery_items (source : String) :
    (∀ body, checkQuery source = .ok body ↔
      Options.group.parse source = body ∧ body.diagnostics.toList = []) ∧
    ∀ errors, checkQuery source = .error errors →
      errors.Shows source (Options.group.parse source).diagnostics.toList := by
  refine ⟨fun body => checkQuery_eq_ok_iff, ?_⟩
  intro errors herrors
  have hne : (Options.group.parse source).diagnostics.toList ≠ [] := by
    intro hsilent
    rw [checkQuery_eq_ok_iff.mpr ⟨rfl, hsilent⟩] at herrors
    contradiction
  have herror : (Options.group.parse source).hasError = true := by
    simpa [Body.hasError, Diagnostics.isEmpty] using hne
  rw [checkQuery, if_pos herror] at herrors
  exact Except.error.inj herrors ▸
    QueryErrors.shows_ofItems (inOrder_diagnostics Options.group source) isWorded_of_mem hne

/-- The columns count the accented letter once. -/
example : (match checkQuery "[1,\n \"\u00e9\" 2,]" with
    | .ok _ => []
    | .error errors => errors.items.map ErrorItem.title) =
    ["1:5:9 missing `,`, found number", "1:6:10 trailing comma"] := by decide +kernel

end QueryBody
