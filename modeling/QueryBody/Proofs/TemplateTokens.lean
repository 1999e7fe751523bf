import QueryBody.Proofs.Continuation
import QueryBody.Proofs.NumberToken
import QueryBody.Proofs.Sentence
import Mathlib.Tactic

/-!
# Text that is written token by token

A text is known by the tokens that it is cut into wherever a value may end after it.
Tokens, blanks, rows of parts and containers are put together, as long as no token runs
into what is written behind it.
-/

namespace QueryBody
namespace Lexer

theorem begun?_of_isBlank {c : Char} (hblank : isBlank c = true) (text : List Char) :
    begun? c text = some ⟨.whitespace, (run isBlank text).1, (run isBlank text).2⟩ := by
  simp only [isBlank, Bool.or_eq_true, decide_eq_true_eq] at hblank
  rcases hblank with (rfl | rfl) | rfl <;> rfl

/-- A blank joins the blanks that follow it, if there are any. -/
theorem cut_blank {c : Char} (hblank : isBlank c = true) (text : List Char) :
    ∃ blanks pieces, cut (c :: text) = (.whitespace, c :: blanks) :: pieces ∧
      (blanks = [] ∧ cut text = pieces ∨ cut text = (.whitespace, blanks) :: pieces) := by
  refine ⟨_, _, cut_of_begun? (begun?_of_isBlank hblank text), ?_⟩
  cases text with
  | nil => exact Or.inl ⟨rfl, rfl⟩
  | cons d text =>
      cases hnext : isBlank d with
      | false => exact Or.inl (by simp [run, hnext])
      | true =>
          have hjoined := cut_of_begun? (begun?_of_isBlank hnext text)
          exact Or.inr (by simpa [run, hnext] using hjoined)

/-- Whether or not a blank joins others, no token of the grammar is affected. -/
theorem significant_cut_blank {c : Char} (hblank : isBlank c = true) (offset : Nat)
    (text : List Char) : significant (place offset (cut (c :: text))) =
      significant (place (offset + c.utf8Size) (cut text)) := by
  obtain ⟨blanks, pieces, hcut, htext⟩ := cut_blank hblank text
  rw [hcut, place, significant_cons_of_isTrivia rfl, Utf8.size_cons, ← Nat.add_assoc]
  rcases htext with ⟨rfl, htext⟩ | htext
  · rw [htext]
    rfl
  · rw [htext, place, significant_cons_of_isTrivia rfl]

theorem mem_cut_of_blank {c : Char} (hblank : isBlank c = true) {text : List Char}
    {piece : Kind × List Char} (hmem : piece ∈ cut (c :: text)) (hkind : piece.1 ≠ .whitespace) :
    piece ∈ cut text := by
  obtain ⟨blanks, pieces, hcut, htext⟩ := cut_blank hblank text
  rw [hcut] at hmem
  have hrest : piece ∈ pieces := by
    rcases List.mem_cons.mp hmem with rfl | hrest
    · exact absurd rfl hkind
    · exact hrest
  rcases htext with ⟨_, htext⟩ | htext
  · exact htext ▸ hrest
  · exact htext ▸ List.mem_cons_of_mem _ hrest

/-- From an offset on, the text has these tokens that the grammar sees and no comment without
an end, wherever a value may end after it. -/
structure Lexes (offset : Nat) (text : List Char) (lexemes : List Lexeme) : Prop where
  tokens : ∀ later, Separates later → significant (place offset (cut (text ++ later))) =
    lexemes ++ significant (place (offset + Utf8.size text) (cut later))
  closed : ∀ later, Separates later → ∀ piece ∈ cut (text ++ later),
    piece.1 = .unterminatedComment → piece ∈ cut later

namespace Lexes

variable {offset : Nat} {front back : List Char} {first second : List Lexeme}

theorem nil (offset : Nat) : Lexes offset [] [] :=
  ⟨fun _ _ => rfl, fun _ _ _ hmem _ => hmem⟩

theorem append (hfront : Lexes offset front first)
    (hback : Lexes (offset + Utf8.size front) back second) (hseparates : Separates back) :
    Lexes offset (front ++ back) (first ++ second) := by
  constructor
  · intro later hlater
    rw [List.append_assoc, hfront.tokens _ (hseparates.append hlater), hback.tokens later hlater,
      List.append_assoc, Utf8.size_append, Nat.add_assoc]
  · intro later hlater piece hmem hopen
    rw [List.append_assoc] at hmem
    exact hback.closed later hlater piece
      (hfront.closed _ (hseparates.append hlater) piece hmem hopen) hopen

theorem token {c : Char} {body : List Char} {kind : Kind}
    (hwhole : begun? c body = some ⟨kind, body, []⟩) (hopen : kind ≠ .unterminatedComment)
    (hends : ∀ later, Separates later → Replaces (endsBefore kind) (back ++ later) [])
    (hback : Lexes (offset + Utf8.size (c :: body)) back second) :
    Lexes offset (c :: body ++ back)
      (significant [.placed (checked kind (c :: body)) offset (c :: body)] ++ second) := by
  have hcut : ∀ later, Separates later →
      cut (c :: body ++ back ++ later) = (kind, c :: body) :: cut (back ++ later) := by
    intro later hlater
    rw [List.append_assoc, cut_token hwhole (hends later hlater)]
  constructor
  · intro later hlater
    rw [hcut later hlater, place, ← List.singleton_append, significant_append,
      hback.tokens later hlater, List.append_assoc, Utf8.size_append, Nat.add_assoc]
  · intro later hlater piece hmem hkind
    rw [hcut later hlater] at hmem
    rcases List.mem_cons.mp hmem with rfl | hrest
    · exact absurd hkind hopen
    · exact hback.closed later hlater piece hrest hkind

theorem blank {c : Char} (hblank : isBlank c = true)
    (hback : Lexes (offset + c.utf8Size) back second) : Lexes offset (c :: back) second := by
  constructor
  · intro later hlater
    rw [List.cons_append, significant_cut_blank hblank, hback.tokens later hlater, Utf8.size_cons,
      Nat.add_assoc]
  · intro later hlater piece hmem hkind
    have hrest := mem_cut_of_blank hblank hmem (by rw [hkind]; decide)
    exact hback.closed later hlater piece hrest hkind

end Lexes

/-! ### Names -/

theorem begun?_of_isName {name : List Char} (hname : IsName name) :
    ∃ c body, name = c :: body ∧ begun? c body = some ⟨.identifier, body, []⟩ := by
  obtain ⟨c, body, rfl, hstart, hparts, hkind⟩ := hname
  have hrun : run isWordPart (body ++ []) = (body, []) := run_of_forall hparts (by simp)
  rw [List.append_nil] at hrun
  exact ⟨c, body, rfl, by rw [begun?_of_isWordStart hstart, hrun, hkind]⟩

end Lexer

open Lexer

/-- Wherever the text stands and a value may end after it, its tokens have a property. -/
def Yields (reading : List Lexeme → Prop) (text : List Char) : Prop :=
  ∀ offset, ∃ lexemes, Lexes offset text lexemes ∧ reading lexemes

namespace Yields

variable {front back : List Char} {first second whole : List Lexeme → Prop}

theorem nil : Yields (· = []) [] :=
  fun offset => ⟨[], .nil offset, rfl⟩

theorem mono (hyields : Yields first front) (hmono : ∀ lexemes, first lexemes → whole lexemes) :
    Yields whole front := by
  intro offset
  obtain ⟨lexemes, hlexes, hreading⟩ := hyields offset
  exact ⟨lexemes, hlexes, hmono _ hreading⟩

theorem append (hfront : Yields first front) (hback : Yields second back)
    (hseparates : Separates back)
    (hjoin : ∀ left right, first left → second right → whole (left ++ right)) :
    Yields whole (front ++ back) := by
  intro offset
  obtain ⟨left, hleft, hfirst⟩ := hfront offset
  obtain ⟨right, hright, hsecond⟩ := hback (offset + Utf8.size front)
  exact ⟨left ++ right, hleft.append hright hseparates, hjoin _ _ hfirst hsecond⟩

theorem token {c : Char} {body : List Char} {kind : Kind}
    (hwhole : begun? c body = some ⟨kind, body, []⟩)
    (hchecked : checked kind (c :: body) = kind) (hsignificant : kind.isTrivia = false)
    (hends : ∀ later, Separates later → Replaces (endsBefore kind) (back ++ later) [])
    (hback : Yields second back)
    (hjoin : ∀ lexeme rest, lexeme.kind = kind → lexeme.text = c :: body → second rest →
      whole (lexeme :: rest)) : Yields whole (c :: body ++ back) := by
  intro offset
  obtain ⟨rest, hrest, hsecond⟩ := hback (offset + Utf8.size (c :: body))
  have hopen : kind ≠ .unterminatedComment := by
    rintro rfl
    contradiction
  let lexeme : Lexeme := .placed (checked kind (c :: body)) offset (c :: body)
  have hkind : lexeme.kind = kind := hchecked
  have htrivia : lexeme.kind.isTrivia = false := by rw [hkind, hsignificant]
  have htoken := hrest.token hwhole hopen hends
  rw [significant_cons_of_not_isTrivia htrivia] at htoken
  exact ⟨_, htoken, hjoin lexeme rest hkind rfl hsecond⟩

theorem delimiter {c : Char} {kind : Kind} (hwhole : begun? c [] = some ⟨kind, [], []⟩)
    (hchecked : checked kind [c] = kind) (hsignificant : kind.isTrivia = false)
    (hends : ∀ later, Replaces (endsBefore kind) (back ++ later) [])
    (hback : Yields second back)
    (hjoin : ∀ lexeme rest, lexeme.kind = kind → second rest → whole (lexeme :: rest)) :
    Yields whole (c :: back) :=
  token hwhole hchecked hsignificant (fun later _ => hends later) hback
    (fun lexeme rest hkind _ hrest => hjoin lexeme rest hkind hrest)

theorem last {c : Char} {body : List Char} {kind : Kind}
    (hwhole : begun? c body = some ⟨kind, body, []⟩)
    (hchecked : checked kind (c :: body) = kind) (hsound : kind.isLexicalError = false)
    (hsignificant : kind.isTrivia = false)
    (hreading : ∀ lexeme : Lexeme, lexeme.kind = kind → lexeme.text = c :: body →
      whole [lexeme]) : Yields whole (c :: body) := by
  rw [← List.append_nil (c :: body)]
  refine token hwhole hchecked hsignificant ?_ nil ?_
  · intro later hlater
    exact hlater.replaces hsound hsignificant []
  · intro lexeme rest hkind htext hrest
    subst hrest
    exact hreading lexeme hkind htext

theorem blank {c : Char} (hblank : isBlank c = true) (hback : Yields whole back) :
    Yields whole (c :: back) := by
  intro offset
  obtain ⟨lexemes, hlexes, hreading⟩ := hback (offset + c.utf8Size)
  exact ⟨lexemes, hlexes.blank hblank, hreading⟩

theorem newline (hback : Yields whole back) : Yields whole ('\n' :: back) := by
  intro offset
  obtain ⟨lexemes, hlexes, hreading⟩ := hback (offset + Utf8.size ['\n'])
  have hwhole : begun? '\n' [] = some ⟨.newline, [], []⟩ := rfl
  refine ⟨lexemes, hlexes.token hwhole (by decide) ?_, hreading⟩
  intro later _
  exact .of_always (fun _ => rfl) _

/-- Blanks may also stand behind a text. -/
theorem trailing {blanks : List Char} (hfront : Yields whole front)
    (hblanks : Yields (· = []) blanks) (hseparates : Separates blanks) :
    Yields whole (front ++ blanks) := by
  refine hfront.append hblanks hseparates ?_
  rintro left right hleft rfl
  rwa [List.append_nil]

theorem lex {source : String} (hyields : Yields whole source.toList) :
    whole (significant (QueryBody.lex source)) ∧
      ∀ lexeme ∈ QueryBody.lex source, lexeme.kind ≠ .unterminatedComment := by
  obtain ⟨lexemes, hlexes, hreading⟩ := hyields 0
  have htokens := hlexes.tokens [] .nil
  have hclosed := hlexes.closed [] .nil
  rw [List.append_nil] at htokens hclosed
  constructor
  · rwa [QueryBody.lex, htokens, cut, place, significant_nil, List.append_nil]
  · intro lexeme hmem hkind
    obtain ⟨kind, hpiece, hchecked⟩ := mem_place hmem
    rw [hkind] at hchecked
    have hopen := hclosed _ hpiece (eq_of_checked hchecked.symm (by decide) (by decide))
    rw [cut] at hopen
    contradiction

end Yields

/-! ### Scalars -/

/-- The tokens spell a scalar. -/
def IsScalar (content : Scalar) (lexemes : List Lexeme) : Prop :=
  ∃ token, Spells (.scalar token content) lexemes

theorem yields_scalar {c : Char} {body : List Char} {kind : Kind} {content : Scalar}
    (hwhole : begun? c body = some ⟨kind, body, []⟩)
    (hchecked : checked kind (c :: body) = kind) (hsound : kind.isLexicalError = false)
    (hsignificant : kind.isTrivia = false)
    (hcontent : ∀ lexeme : Lexeme, lexeme.kind = kind → lexeme.text = c :: body →
      lexeme.scalar? = some content) : Yields (IsScalar content) (c :: body) := by
  refine Yields.last hwhole hchecked hsound hsignificant ?_
  intro lexeme hkind htext
  exact ⟨lexeme.toToken, .scalar (hcontent lexeme hkind htext)⟩

theorem yields_number {text : List Char} (hshape : Shape.of text = .complete) :
    Yields (IsScalar (.number (Numeral.read text))) text := by
  obtain ⟨c, body, rfl, hwhole⟩ := begun?_of_shape hshape
  have hchecked : checked .number (c :: body) = .number := by rw [checked, if_pos hshape]
  refine yields_scalar hwhole hchecked rfl rfl ?_
  intro lexeme hkind htext
  rw [Lexeme.scalar?, hkind, htext]

theorem yields_string {body : List Char} {text : String}
    (hwhole : begun? '"' body = some ⟨.string, body, []⟩)
    (hchecked : checked .string ('"' :: body) = .string)
    (hstring : ∀ lexeme : Lexeme, lexeme.text = '"' :: body → lexeme.string = text) :
    Yields (IsScalar (.string text)) ('"' :: body) := by
  refine yields_scalar hwhole hchecked rfl rfl ?_
  intro lexeme hkind htext
  rw [Lexeme.scalar?, hkind, hstring lexeme htext]

theorem yields_word {c : Char} {body : List Char} {kind : Kind} {content : Scalar}
    (hwhole : begun? c body = some ⟨kind, body, []⟩)
    (hword : kind = .trueWord ∧ content = .bool true ∨ kind = .falseWord ∧ content = .bool false ∨
      kind = .nullWord ∧ content = .null) : Yields (IsScalar content) (c :: body) := by
  rcases hword with ⟨rfl, rfl⟩ | ⟨rfl, rfl⟩ | ⟨rfl, rfl⟩
  all_goals
    refine yields_scalar hwhole rfl rfl rfl ?_
    intro lexeme hkind _
    rw [Lexeme.scalar?, hkind]

/-! ### Closing tokens -/

/-- The tokens are inner tokens and a closing token after them. -/
def Ends (closes : Kind) (reading : List Lexeme → Prop) (lexemes : List Lexeme) : Prop :=
  ∃ inner closing, lexemes = inner ++ [closing] ∧ closing.kind = closes ∧ reading inner

theorem yields_ends {closes : Kind} {reading : List Lexeme → Prop} {inner tail : List Char}
    (hinner : Yields reading inner)
    (htail : Yields (fun lexemes => ∃ closing : Lexeme, lexemes = [closing] ∧
      closing.kind = closes) tail)
    (hseparates : Separates tail) : Yields (Ends closes reading) (inner ++ tail) := by
  refine hinner.append htail hseparates ?_
  rintro left right hleft ⟨closing, rfl, hclosing⟩
  exact ⟨left, closing, rfl, hclosing, hleft⟩

theorem yields_single {c : Char} {body : List Char} {kind : Kind}
    (hwhole : begun? c body = some ⟨kind, body, []⟩)
    (hchecked : checked kind (c :: body) = kind) (hsound : kind.isLexicalError = false)
    (hsignificant : kind.isTrivia = false) :
    Yields (fun lexemes => ∃ closing : Lexeme, lexemes = [closing] ∧ closing.kind = kind)
      (c :: body) := by
  refine Yields.last hwhole hchecked hsound hsignificant ?_
  intro closing hkind _
  exact ⟨closing, rfl, hkind⟩

/-! ### Rows -/

theorem Row.cons {α : Type} {spelling : α → List Lexeme} {parts : List α} {lexemes : List Lexeme}
    (hrow : Row spelling parts lexemes) (hne : parts ≠ []) (part : α) {comma : Lexeme}
    (hcomma : comma.kind = .comma) :
    Row spelling (part :: parts) (spelling part ++ comma :: lexemes) := by
  induction hrow with
  | nil => contradiction
  | first second => exact .next (.first part) (List.cons_ne_nil _ _) hcomma second
  | next hparts hparts_ne hlast last ih =>
      have hnext := Row.next (ih hparts_ne) (List.cons_ne_nil _ _) hlast last
      rwa [List.append_assoc, List.cons_append, List.cons_append] at hnext

/-- Parts with commas between them. -/
theorem yields_row {α β : Type} {spelling : α → List Lexeme} {meets : β → α → Prop}
    {items : List β} {texts : List (List Char)}
    (hparts : List.Forall₂ (fun item text =>
      Yields (fun lexemes => ∃ part, spelling part = lexemes ∧ meets item part) text) items texts) :
    Yields (fun lexemes => ∃ parts, Row spelling parts lexemes ∧ List.Forall₂ meets items parts)
      ([','].intercalate texts) := by
  induction hparts with
  | nil =>
      refine Yields.nil.mono ?_
      rintro lexemes rfl
      exact ⟨[], .nil, .nil⟩
  | cons hfirst hrest ih =>
      rename_i item text items texts
      cases hrest with
      | nil =>
          rw [List.intercalate_singleton]
          refine hfirst.mono ?_
          rintro lexemes ⟨part, rfl, hmeets⟩
          exact ⟨[part], .first part, .cons hmeets .nil⟩
      | cons hsecond hrest =>
          rename_i second next items texts
          have hcomma : Yields (fun lexemes => ∃ comma parts inner, lexemes = comma :: inner ∧
              comma.kind = .comma ∧ Row spelling parts inner ∧
              List.Forall₂ meets (second :: items) parts)
              (',' :: [','].intercalate (next :: texts)) := by
            refine Yields.delimiter rfl rfl rfl ?_ ih ?_
            · intro later
              exact .of_always (fun _ => rfl) _
            · rintro comma inner hkind ⟨parts, hrow, hmeets⟩
              exact ⟨comma, parts, inner, rfl, hkind, hrow, hmeets⟩
          rw [List.intercalate_cons_cons, List.append_assoc]
          refine hfirst.append hcomma (.cons (by decide) _) ?_
          rintro left right ⟨part, rfl, hpart⟩ ⟨comma, parts, inner, rfl, hkind, hrow, hmeets⟩
          have hne : parts ≠ [] := by
            rintro rfl
            contradiction
          exact ⟨part :: parts, hrow.cons hne part hkind, .cons hpart hmeets⟩

theorem exists_of_forall₂ {α β : Type} {meets : α → β → Prop} {items : List α} {parts : List β}
    (hall : List.Forall₂ meets items parts) {part : β} (hmem : part ∈ parts) :
    ∃ item ∈ items, meets item part := by
  induction hall with
  | nil => contradiction
  | cons hfirst _ ih =>
      rcases List.mem_cons.mp hmem with rfl | hrest
      · exact ⟨_, List.mem_cons_self, hfirst⟩
      · obtain ⟨item, hitem, hmeets⟩ := ih hrest
        exact ⟨item, List.mem_cons_of_mem _ hitem, hmeets⟩

/-! ### Containers -/

variable {β : Type} {items : List β} {inner : List Char}

theorem yields_array {meets : β → Writing → Prop}
    (hspells : ∀ item part, meets item part → Spells part.value part.lexemes)
    (hinner : Yields (fun lexemes => ∃ parts, Row Writing.lexemes parts lexemes ∧
      List.Forall₂ meets items parts) inner) :
    Yields (fun lexemes => ∃ opener parts,
      Spells (.array opener (parts.map Writing.value)) lexemes ∧ List.Forall₂ meets items parts)
      ('[' :: inner ++ [']']) := by
  have hclosing : Yields (fun lexemes => ∃ closing : Lexeme, lexemes = [closing] ∧
      closing.kind = .bracketClose) [']'] := yields_single rfl rfl rfl rfl
  have hended := yields_ends hinner hclosing (.cons (by decide) [])
  refine Yields.delimiter rfl rfl rfl ?_ hended ?_
  · intro later
    exact .of_always (fun _ => rfl) _
  · rintro opening rest hopening ⟨tokens, closing, rfl, hclosing, parts, hparts, hmeets⟩
    refine ⟨opening.toToken, parts, .array hopening hclosing hparts ?_, hmeets⟩
    intro part hmem
    obtain ⟨item, _, hitem⟩ := exists_of_forall₂ hmeets hmem
    exact hspells item part hitem

/-- The tokens of a property spell a name, a colon and a value. -/
structure Property.IsSpelled (part : Property) : Prop where
  name : part.name.kind = .string
  colon : part.colon.kind = .colon
  value : Spells part.writing.value part.writing.lexemes

theorem yields_colon {reading : List Lexeme → Prop} {text : List Char}
    (hvalue : Yields reading text) :
    Yields (fun lexemes => ∃ colon rest, lexemes = colon :: rest ∧ colon.kind = .colon ∧
      reading rest) (':' :: text) := by
  refine Yields.delimiter rfl rfl rfl ?_ hvalue ?_
  · intro later
    exact .of_always (fun _ => rfl) _
  · intro colon rest hkind hrest
    exact ⟨colon, rest, rfl, hkind, hrest⟩

/-- A brace opens an object, unless another one follows it. -/
theorem yields_object {meets : β → Property → Prop}
    (hspells : ∀ item part, meets item part → part.IsSpelled)
    (hsingle : ∀ c, inner.head? = some c → c ≠ '{')
    (hinner : Yields (fun lexemes => ∃ parts, Row Property.lexemes parts lexemes ∧
      List.Forall₂ meets items parts) inner) :
    Yields (fun lexemes => ∃ opener parts,
      Spells (.object opener (parts.map Property.member)) lexemes ∧
        List.Forall₂ meets items parts) ('{' :: inner ++ ['}']) := by
  have hclosing : Yields (fun lexemes => ∃ closing : Lexeme, lexemes = [closing] ∧
      closing.kind = .braceClose) ['}'] := yields_single rfl rfl rfl rfl
  have hended := yields_ends hinner hclosing (.cons (by decide) [])
  refine Yields.delimiter rfl rfl rfl ?_ hended ?_
  · intro later
    cases inner with
    | nil => exact .of_ends (c := '}') rfl _ _
    | cons c inner => exact .of_ends (by simp [endsBefore, hsingle c rfl]) _ _
  · rintro opening rest hopening ⟨tokens, closing, rfl, hclosing, parts, hparts, hmeets⟩
    have hspelled : ∀ part ∈ parts, part.IsSpelled := by
      intro part hmem
      obtain ⟨item, _, hitem⟩ := exists_of_forall₂ hmeets hmem
      exact hspells item part hitem
    refine ⟨opening.toToken, parts, .object hopening hclosing hparts ?_ ?_, hmeets⟩
    · intro part hmem
      exact ⟨(hspelled part hmem).name, (hspelled part hmem).colon⟩
    · intro part hmem
      exact (hspelled part hmem).value

end QueryBody
