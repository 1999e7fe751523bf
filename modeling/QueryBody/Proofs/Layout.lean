import QueryBody.Proofs.Expectation
import QueryBody.Proofs.Origins
import QueryBody.Proofs.Relocation
import QueryBody.Proofs.ReportOrder
import Mathlib.Tactic

/-!
# White space and comments

Two bodies whose tokens of the grammar have the same kinds and texts are read alike,
wherever white space and comments put these tokens.  Both are readings of the same
tokens with their numbers for places.
-/

namespace QueryBody

/-- Tokens in the order of their places, before the end of a body. -/
structure Layout where
  lexemes : List Lexeme
  size : Nat
  ordered : lexemes.Pairwise fun earlier later => earlier.span.start < later.span.start
  before : ∀ lexeme ∈ lexemes, lexeme.span.start < size

namespace Layout

variable (layout : Layout)

/-- The place of the token with a number.  The number after the last one is that of the end of
the body. -/
def spanAt (index : Nat) : Span :=
  match layout.lexemes[index]? with
  | some lexeme => lexeme.span
  | none => .point (layout.size + (index - layout.lexemes.length))

theorem spanAt_of_lt {index : Nat} (hindex : index < layout.lexemes.length) :
    layout.spanAt index = layout.lexemes[index].span := by
  simp [spanAt, hindex]

theorem spanAt_of_le {index : Nat} (hindex : layout.lexemes.length ≤ index) :
    layout.spanAt index = .point (layout.size + (index - layout.lexemes.length)) := by
  simp [spanAt, hindex]

theorem strictMono_spanAt : StrictMono fun index => (layout.spanAt index).start := by
  refine strictMono_nat_of_lt_succ fun index => ?_
  by_cases hnext : index + 1 < layout.lexemes.length
  · have hindex : index < layout.lexemes.length := by omega
    rw [layout.spanAt_of_lt hnext, layout.spanAt_of_lt hindex]
    exact List.pairwise_iff_getElem.mp layout.ordered _ _ hindex hnext (by omega)
  · rw [layout.spanAt_of_le (not_lt.mp hnext)]
    by_cases hindex : index < layout.lexemes.length
    · rw [layout.spanAt_of_lt hindex]
      have hbefore := layout.before _ (List.getElem_mem hindex)
      simp only [Span.point]
      omega
    · rw [layout.spanAt_of_le (not_lt.mp hindex)]
      simp only [Span.point]
      omega

/-- Puts tokens that have numbers for places where the tokens of the layout stand. -/
def relocation : Relocation where
  span span := layout.spanAt span.start
  start_eq_iff _ _ := layout.strictMono_spanAt.injective.eq_iff

/-- The tokens of a body that the grammar sees. -/
def ofSource (source : String) : Layout where
  lexemes := significant (lex source)
  size := Utf8.size source.toList
  ordered := (tiles_lex source).pairwise.sublist List.filter_sublist
  before lexeme hmem := by
    obtain ⟨_, hstop, hsize⟩ := (tiles_lex source).mem (List.mem_of_mem_filter hmem)
    exact hstop.trans_le hsize

end Layout

/-- The tokens of these kinds and texts, with their numbers for places. -/
def numbered (pieces : List (Kind × List Char)) : List Lexeme :=
  pieces.mapIdx fun index piece => ⟨⟨piece.1, ⟨index, index + 1⟩⟩, piece.2⟩

theorem Layout.map_relocate_numbered (layout : Layout) :
    (numbered (layout.lexemes.map Lexeme.piece)).map (Lexeme.relocate layout.relocation) =
      layout.lexemes := by
  apply List.ext_getElem
  · simp [numbered]
  · intro index _ hindex
    simp [numbered, Lexeme.relocate, Token.relocate, relocation, layout.spanAt_of_lt hindex,
      Lexeme.piece]

/-- Tokens are read as they are with numbers for places, but for the places. -/
theorem Layout.run_lexemes (layout : Layout) {setting : Setting}
    (hstrict : setting.allowsFragments = false)
    (hgrammar : ∀ lexeme ∈ layout.lexemes, lexeme.kind.isTrivia = false) :
    Reader.start.run setting layout.lexemes =
      (Reader.start.run setting (numbered (layout.lexemes.map Lexeme.piece))).relocate
        layout.relocation := by
  have hplaces := layout.map_relocate_numbered
  have hnumbers : ∀ lexeme ∈ numbered (layout.lexemes.map Lexeme.piece),
      lexeme.kind.isTrivia = false := by
    intro lexeme hmem
    have hplaced := List.mem_map_of_mem (f := Lexeme.relocate layout.relocation) hmem
    rw [hplaces] at hplaced
    have hkind : (lexeme.relocate layout.relocation).kind.isTrivia = false := hgrammar _ hplaced
    exact hkind
  rw [Reader.relocate_run layout.relocation hstrict hnumbers, hplaces]
  rfl

/-- What is made of these tokens, with their numbers for places. -/
def Options.reading (options : Options) (pieces : List (Kind × List Char)) : Reader.Outcome :=
  let setting : Setting := ⟨options.allowsFragments, options.nestingLimit, pieces.length⟩
  (Reader.start.run setting (numbered pieces)).finish setting options.isGroup

/-- A body is read as its tokens with numbers for places, but for the places. -/
theorem parse_eq_relocate {options : Options} (hstrict : options.allowsFragments = false)
    {source : String} (hclosed : ∀ lexeme ∈ lex source, lexeme.kind ≠ .unterminatedComment) :
    options.parse source =
      .ofOutcome ((options.reading ((significant (lex source)).map Lexeme.piece)).relocate
        (Layout.ofSource source).relocation) := by
  let layout := Layout.ofSource source
  let pieces := layout.lexemes.map Lexeme.piece
  let setting := options.setting source
  let numbers : Setting := ⟨options.allowsFragments, options.nestingLimit, pieces.length⟩
  have hgrammar : ∀ lexeme ∈ layout.lexemes, lexeme.kind.isTrivia = false :=
    fun _ hmem => isTrivia_of_mem_significant hmem
  have hend : layout.relocation.span (.point numbers.size) = .point setting.size := by
    have hlength : numbers.size = layout.lexemes.length := List.length_map _
    change layout.spanAt numbers.size = .point layout.size
    rw [hlength, layout.spanAt_of_le le_rfl, Nat.sub_self, Nat.add_zero]
  have hsame : Reader.start.run setting (significant (lex source)) =
      Reader.start.run numbers (significant (lex source)) := by
    have hkinds : ∀ lexeme ∈ significant (lex source), lexeme.kind ≠ .unterminatedComment :=
      fun lexeme hmem => hclosed lexeme (List.mem_of_mem_filter hmem)
    have hsetting : setting.allowsFragments = false := hstrict
    have hnumbers : numbers.allowsFragments = false := hstrict
    exact Reader.run_congr_of_strict hsetting hnumbers rfl hkinds _
  have hrun : Reader.start.run setting (lex source) =
      (Reader.start.run numbers (numbered pieces)).relocate layout.relocation := by
    rw [Reader.run_significant (Or.inr hclosed), hsame]
    exact layout.run_lexemes hstrict hgrammar
  change Body.ofOutcome ((Reader.start.run setting (lex source)).finish setting options.isGroup) = _
  rw [hrun]
  exact congrArg Body.ofOutcome
    (Reader.relocate_finish layout.relocation hstrict hend options.isGroup _).symm

/-! ### Twins -/

/-- The tokens have the same number in two lists. -/
def Token.Twin (first second : List Lexeme) (token other : Token) : Prop :=
  ∃ index : Nat, (first.map Lexeme.toToken)[index]? = some token ∧
    (second.map Lexeme.toToken)[index]? = some other

/-- The diagnostics say the same about the tokens with the same number, or about the ends of
both bodies. -/
structure Diagnostic.Twin (first second : List Lexeme) (diagnostic other : Diagnostic) : Prop where
  problem : diagnostic.problem = other.problem
  message : diagnostic.message = other.message
  token : Option.Rel (Token.Twin first second) diagnostic.token other.token
  related : diagnostic.related.map Related.message = other.related.map Related.message
  fix : diagnostic.fix = other.fix

/-- The places have the same number, the same container and the same content, and begin with
tokens with the same number. -/
structure Place.Twin (first second : List Lexeme) (place other : Place) : Prop where
  id : place.id = other.id
  parent : place.parent = other.parent
  content : place.content = other.content
  token : place.token.Twin first second other.token

theorem eq_of_start_eq {source : String} {lexeme other : Lexeme} (hmem : lexeme ∈ lex source)
    (hother : other ∈ lex source) (hstart : lexeme.span.start = other.span.start) :
    lexeme = other := by
  have hnodup : ((lex source).map fun lexeme => lexeme.span.start).Nodup :=
    List.pairwise_map.mpr ((tiles_lex source).pairwise.imp ne_of_lt)
  exact List.inj_on_of_nodup_map hnodup hmem hother hstart

theorem Layout.getElem?_relocate {source : String} {token : Token}
    (hmem : token.relocate (ofSource source).relocation ∈ (lex source).map Lexeme.toToken) :
    ((significant (lex source)).map Lexeme.toToken)[token.span.start]? =
      some (token.relocate (ofSource source).relocation) := by
  let layout := ofSource source
  obtain ⟨lexeme, hlexeme, htoken⟩ := List.mem_map.mp hmem
  have hspan : lexeme.span = layout.spanAt token.span.start := congrArg Token.span htoken
  by_cases hindex : token.span.start < layout.lexemes.length
  · have hnumber : layout.lexemes[token.span.start] ∈ lex source :=
      List.mem_of_mem_filter (List.getElem_mem hindex)
    have hsame : lexeme = layout.lexemes[token.span.start] :=
      eq_of_start_eq hlexeme hnumber (by rw [hspan, layout.spanAt_of_lt hindex])
    have hget : (significant (lex source))[token.span.start]? = some lexeme := by
      rw [hsame]
      exact List.getElem?_eq_getElem hindex
    rw [List.getElem?_map, hget, Option.map_some, htoken]
  · -- behind the tokens of the grammar there is nothing but the end of the body
    obtain ⟨_, hstop, hsize⟩ := (tiles_lex source).mem hlexeme
    rw [hspan, layout.spanAt_of_le (not_lt.mp hindex)] at hstop
    simp [Span.point] at hstop

theorem Token.twin_relocate {first second : String} {token : Token}
    (hfirst : token.relocate (Layout.ofSource first).relocation ∈
      (lex first).map Lexeme.toToken)
    (hsecond : token.relocate (Layout.ofSource second).relocation ∈
      (lex second).map Lexeme.toToken) :
    (token.relocate (Layout.ofSource first).relocation).Twin (significant (lex first))
      (significant (lex second)) (token.relocate (Layout.ofSource second).relocation) :=
  ⟨_, Layout.getElem?_relocate hfirst, Layout.getElem?_relocate hsecond⟩

theorem token_mem_of_mem_diagnostics {options : Options} {source : String}
    {diagnostic : Diagnostic} (hmem : diagnostic ∈ (options.parse source).diagnostics.toList)
    {token : Token} (htoken : diagnostic.token = some token) :
    token ∈ (lex source).map Lexeme.toToken := by
  have horder := Reader.inOrder_conclusion (options.setting source) source options.isGroup rfl
  rcases (horder.placed diagnostic (List.mem_reverse.mp hmem)).span with
    ⟨lexeme, hlexeme, hsome, _⟩ | ⟨hnone, _⟩
  · rw [htoken, Option.some_inj] at hsome
    exact hsome ▸ List.mem_map_of_mem hlexeme
  · rw [htoken] at hnone
    contradiction

theorem Diagnostic.twin_relocate {options : Options} {first second : String}
    {diagnostic : Diagnostic}
    (hfirst : diagnostic.relocate (Layout.ofSource first).relocation ∈
      (options.parse first).diagnostics.toList)
    (hsecond : diagnostic.relocate (Layout.ofSource second).relocation ∈
      (options.parse second).diagnostics.toList) :
    (diagnostic.relocate (Layout.ofSource first).relocation).Twin (significant (lex first))
      (significant (lex second))
      (diagnostic.relocate (Layout.ofSource second).relocation) where
  problem := rfl
  message := rfl
  related := by simp [relocate, Related.relocate, Function.comp_def]
  fix := rfl
  token := by
    cases htoken : diagnostic.token with
    | none =>
        simp only [relocate, htoken]
        exact .none
    | some token =>
        have hmoved : ∀ relocation : Relocation, (diagnostic.relocate relocation).token =
            some (token.relocate relocation) := fun relocation => by simp [relocate, htoken]
        have hone := token_mem_of_mem_diagnostics hfirst (hmoved _)
        have hother := token_mem_of_mem_diagnostics hsecond (hmoved _)
        rw [hmoved, hmoved]
        exact .some (Token.twin_relocate hone hother)

theorem Place.twin_relocate {options : Options} {first second : String} {place : Place}
    (hfirst : place.relocate (Layout.ofSource first).relocation ∈
      (options.parse first).tree.places)
    (hsecond : place.relocate (Layout.ofSource second).relocation ∈
      (options.parse second).tree.places) :
    (place.relocate (Layout.ofSource first).relocation).Twin (significant (lex first))
      (significant (lex second)) (place.relocate (Layout.ofSource second).relocation) where
  id := rfl
  parent := rfl
  content := by rw [content_relocate, content_relocate]
  token := by
    have hone := (tokens_parse options first).subset (List.mem_map_of_mem hfirst)
    have hother := (tokens_parse options second).subset (List.mem_map_of_mem hsecond)
    simp only [token, relocate, Value.token_relocate] at hone hother ⊢
    exact Token.twin_relocate hone hother

/-- White space and comments do not matter where a body must be complete.  Bodies whose other
tokens have the same kinds and texts have the same diagnostics and the same places, up to where
their tokens stand. -/
theorem twins_parse {options : Options} (hstrict : options.allowsFragments = false)
    {first second : String}
    (hfirst : ∀ lexeme ∈ lex first, lexeme.kind ≠ .unterminatedComment)
    (hsecond : ∀ lexeme ∈ lex second, lexeme.kind ≠ .unterminatedComment)
    (hpieces : (significant (lex first)).map Lexeme.piece =
      (significant (lex second)).map Lexeme.piece) :
    List.Forall₂ (Diagnostic.Twin (significant (lex first)) (significant (lex second)))
        (options.parse first).diagnostics.toList (options.parse second).diagnostics.toList ∧
      List.Forall₂ (Place.Twin (significant (lex first)) (significant (lex second)))
        (options.parse first).tree.places (options.parse second).tree.places := by
  let outcome := options.reading ((significant (lex first)).map Lexeme.piece)
  let here := (Layout.ofSource first).relocation
  let there := (Layout.ofSource second).relocation
  have hone : options.parse first = .ofOutcome (outcome.relocate here) :=
    parse_eq_relocate hstrict hfirst
  have hother : options.parse second = .ofOutcome (outcome.relocate there) := by
    rw [parse_eq_relocate hstrict hsecond, ← hpieces]
  have hdiagnostics : ∀ relocation : Relocation,
      (Body.ofOutcome (outcome.relocate relocation)).diagnostics.toList =
        outcome.reports.reverse.map (Diagnostic.relocate relocation) :=
    fun relocation => List.map_reverse.symm
  have hplaces : ∀ relocation : Relocation,
      (Body.ofOutcome (outcome.relocate relocation)).tree.places =
        (⟨outcome.root⟩ : Tree).places.map (Place.relocate relocation) :=
    fun relocation => Tree.places_relocate relocation outcome.root
  constructor
  · have hones := congrArg (fun body : Body => body.diagnostics.toList) hone
    have hothers := congrArg (fun body : Body => body.diagnostics.toList) hother
    simp only [hdiagnostics] at hones hothers
    rw [hones, hothers, List.forall₂_map_left_iff, List.forall₂_map_right_iff, List.forall₂_same]
    intro diagnostic hmem
    exact Diagnostic.twin_relocate (hones ▸ List.mem_map_of_mem hmem)
      (hothers ▸ List.mem_map_of_mem hmem)
  · have hones := congrArg (fun body : Body => body.tree.places) hone
    have hothers := congrArg (fun body : Body => body.tree.places) hother
    simp only [hplaces] at hones hothers
    rw [hones, hothers, List.forall₂_map_left_iff, List.forall₂_map_right_iff, List.forall₂_same]
    intro place hmem
    exact Place.twin_relocate (hones ▸ List.mem_map_of_mem hmem)
      (hothers ▸ List.mem_map_of_mem hmem)

/-- The comment neither separates the items nor hides the comma after them. -/
theorem twins_parse_of_comment :
    (Options.group.parse "[1 /* , */ 2,\n,]").diagnostics.problems =
        [.missingComma, .expectedValue] ∧
      List.Forall₂ (Diagnostic.Twin (significant (lex "[1 /* , */ 2,\n,]"))
          (significant (lex "[1 2,,]")))
        (Options.group.parse "[1 /* , */ 2,\n,]").diagnostics.toList
        (Options.group.parse "[1 2,,]").diagnostics.toList := by
  have hproblems : (Options.group.parse "[1 /* , */ 2,\n,]").diagnostics.problems =
      [.missingComma, .expectedValue] := by
    decide +kernel
  have hfirst : (lex "[1 /* , */ 2,\n,]").all fun lexeme => lexeme.kind ≠ .unterminatedComment := by
    decide +kernel
  have hsecond : (lex "[1 2,,]").all fun lexeme => lexeme.kind ≠ .unterminatedComment := by
    decide +kernel
  have hpieces : (significant (lex "[1 /* , */ 2,\n,]")).map Lexeme.piece =
      (significant (lex "[1 2,,]")).map Lexeme.piece := by
    decide +kernel
  have hstrict : Options.group.allowsFragments = false := rfl
  have htwins := twins_parse hstrict
    (fun lexeme hmem => of_decide_eq_true (List.all_eq_true.mp hfirst lexeme hmem))
    (fun lexeme hmem => of_decide_eq_true (List.all_eq_true.mp hsecond lexeme hmem)) hpieces
  exact ⟨hproblems, htwins.1⟩

end QueryBody
