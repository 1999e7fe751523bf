import QueryBody.Parser.Reader
import Mathlib.Tactic

/-!
# Sentences

The grammar of values over tokens, without any parser: a value is a scalar token, a
parameter between its markers, or a container whose parts are separated by commas.
White space and comments have been left out.
-/

namespace QueryBody

/-- The tokens of a body that the grammar sees. -/
def significant (lexemes : List Lexeme) : List Lexeme :=
  lexemes.filter fun lexeme => !lexeme.kind.isTrivia

@[simp] theorem significant_nil : significant [] = [] := rfl

theorem significant_cons_of_isTrivia {lexeme : Lexeme} (htrivia : lexeme.kind.isTrivia = true)
    (rest : List Lexeme) : significant (lexeme :: rest) = significant rest := by
  simp [significant, htrivia]

theorem significant_cons_of_not_isTrivia {lexeme : Lexeme}
    (hsignificant : lexeme.kind.isTrivia = false) (rest : List Lexeme) :
    significant (lexeme :: rest) = lexeme :: significant rest := by
  simp [significant, hsignificant]

@[simp] theorem significant_append (front back : List Lexeme) :
    significant (front ++ back) = significant front ++ significant back :=
  List.filter_append front back

theorem isTrivia_of_mem_significant {lexemes : List Lexeme} {lexeme : Lexeme}
    (hmem : lexeme ∈ significant lexemes) : lexeme.kind.isTrivia = false := by
  simpa using List.of_mem_filter hmem

/-- The kind and the text of a token, without its place. -/
def Lexeme.piece (lexeme : Lexeme) : Kind × List Char := (lexeme.kind, lexeme.text)

/-- Parts with a comma between any two of them. -/
inductive Row {α : Type} (spelling : α → List Lexeme) : List α → List Lexeme → Prop
  | nil : Row spelling [] []
  | first (part : α) : Row spelling [part] (spelling part)
  | next {parts : List α} {lexemes : List Lexeme} {comma : Lexeme}
      (hparts : Row spelling parts lexemes) (hne : parts ≠ [])
      (hcomma : comma.kind = .comma) (part : α) :
      Row spelling (parts ++ [part]) (lexemes ++ comma :: spelling part)

theorem Row.mem_lexemes {α : Type} {spelling : α → List Lexeme}
    {parts : List α} {inner : List Lexeme} (hrow : Row spelling parts inner) {part : α}
    (hpart : part ∈ parts) {lexeme : Lexeme} (hlexeme : lexeme ∈ spelling part) :
    lexeme ∈ inner := by
  induction hrow with
  | nil => contradiction
  | first only =>
      rw [List.mem_singleton] at hpart
      exact hpart ▸ hlexeme
  | next hparts hne hcomma last ih =>
      rcases List.mem_append.mp hpart with hfront | hlast
      · exact List.mem_append_left _ (ih hfront)
      · rw [List.mem_singleton] at hlast
        subst hlast
        exact List.mem_append_right _ (List.mem_cons_of_mem _ hlexeme)

/-- A value and the tokens that write it. -/
structure Writing where
  value : Value
  lexemes : List Lexeme

/-- The tokens that write a property of an object. -/
structure Property where
  name : Lexeme
  colon : Lexeme
  writing : Writing

namespace Property

def lexemes (property : Property) : List Lexeme :=
  property.name :: property.colon :: property.writing.lexemes

def member (property : Property) : Member := .pair property.name.key property.writing.value

end Property

/-- The tokens write the value. -/
inductive Spells : Value → List Lexeme → Prop
  | scalar {lexeme : Lexeme} {content : Scalar} (hcontent : lexeme.scalar? = some content) :
      Spells (.scalar lexeme.toToken content) [lexeme]
  | parameter {opening name closing : Lexeme} (hopening : opening.kind = .parameterOpen)
      (hname : name.kind = .identifier) (hclosing : closing.kind = .parameterClose) :
      Spells (.scalar opening.toToken (.parameter name.word)) [opening, name, closing]
  | array {opening closing : Lexeme} {parts : List Writing} {inner : List Lexeme}
      (hopening : opening.kind = .bracketOpen) (hclosing : closing.kind = .bracketClose)
      (hrow : Row Writing.lexemes parts inner)
      (hparts : ∀ part ∈ parts, Spells part.value part.lexemes) :
      Spells (.array opening.toToken (parts.map Writing.value)) (opening :: inner ++ [closing])
  | object {opening closing : Lexeme} {parts : List Property} {inner : List Lexeme}
      (hopening : opening.kind = .braceOpen) (hclosing : closing.kind = .braceClose)
      (hrow : Row Property.lexemes parts inner)
      (hnames : ∀ part ∈ parts, part.name.kind = .string ∧ part.colon.kind = .colon)
      (hparts : ∀ part ∈ parts, Spells part.writing.value part.writing.lexemes) :
      Spells (.object opening.toToken (parts.map Property.member)) (opening :: inner ++ [closing])

/-- A nesting limit, if there is one, admits so many open containers. -/
def Allows (limit : Option Nat) (depth : Nat) : Prop := ∀ most, limit = some most → depth ≤ most

theorem Allows.mono {limit : Option Nat} {less more : Nat} (hallows : Allows limit more)
    (hle : less ≤ more) : Allows limit less := by
  intro most hmost
  exact hle.trans (hallows most hmost)

theorem Setting.exceeded?_eq_none_iff (setting : Setting) (depth : Nat) :
    setting.exceeded? depth = none ↔ Allows setting.nestingLimit (depth + 1) := by
  unfold Setting.exceeded? Allows
  cases setting.nestingLimit with
  | none => simp
  | some most =>
      rw [Option.filter_eq_none_iff]
      constructor
      · intro hnot most' hmost
        have hlt : ¬most' ≤ depth := by simpa using hnot most' hmost
        omega
      · intro hallows most' hmost
        have hle := hallows most' hmost
        simp only [decide_eq_true_eq]
        omega

namespace Value

mutual

/-- How many objects and arrays lie inside each other. -/
def nesting : Value → Nat
  | scalar _ _ => 0
  | array _ items => itemsNesting items + 1
  | object _ members => membersNesting members + 1

def itemsNesting : List Value → Nat
  | [] => 0
  | item :: rest => max (nesting item) (itemsNesting rest)

def membersNesting : List Member → Nat
  | [] => 0
  | .bare _ :: rest => membersNesting rest
  | .pair _ value :: rest => max (nesting value) (membersNesting rest)

end

theorem nesting_le_itemsNesting {item : Value} {items : List Value} (hmem : item ∈ items) :
    item.nesting ≤ itemsNesting items := by
  induction items with
  | nil => contradiction
  | cons first rest ih =>
      rw [itemsNesting]
      rcases List.mem_cons.mp hmem with rfl | hrest
      · exact le_max_left _ _
      · exact (ih hrest).trans (le_max_right _ _)

theorem nesting_le_membersNesting {key : Key} {value : Value} {members : List Member}
    (hmem : .pair key value ∈ members) : value.nesting ≤ membersNesting members := by
  induction members with
  | nil => contradiction
  | cons first rest ih =>
      rcases List.mem_cons.mp hmem with rfl | hrest
      · exact le_max_left _ _
      · cases first with
        | bare _ => exact ih hrest
        | pair _ _ => exact (ih hrest).trans (le_max_right _ _)

theorem itemsNesting_le {items : List Value} {bound : Nat}
    (hbound : ∀ item ∈ items, item.nesting ≤ bound) : itemsNesting items ≤ bound := by
  induction items with
  | nil => exact Nat.zero_le bound
  | cons first rest ih =>
      exact max_le (hbound first List.mem_cons_self)
        (ih fun item hitem => hbound item (List.mem_cons_of_mem first hitem))

theorem membersNesting_le {members : List Member} {bound : Nat}
    (hbound : ∀ key value, .pair key value ∈ members → value.nesting ≤ bound) :
    membersNesting members ≤ bound := by
  induction members with
  | nil => exact Nat.zero_le bound
  | cons first rest ih =>
      have hrest : membersNesting rest ≤ bound :=
        ih fun key value hmem => hbound key value (List.mem_cons_of_mem first hmem)
      cases first with
      | bare _ => exact hrest
      | pair key value => exact max_le (hbound key value List.mem_cons_self) hrest

end Value
end QueryBody
