import QueryBody.Token.Basic
import QueryBody.Text.Escape
import QueryBody.Number.Shape

/-!
# Cutting a body into tokens

At every place the longest token that begins there is taken; a run of characters
at which none begins is one piece of garbage.  Nothing is lost: the texts of the
tokens are the body.
-/

namespace QueryBody
namespace Lexer

/-- A token at the beginning of a text, and the text after it. -/
structure Match where
  kind : Kind
  text : List Char
  rest : List Char

/-- The match that takes one character more before it. -/
def Match.after (c : Char) (m : Match) : Match := ⟨m.kind, c :: m.text, m.rest⟩

/-- Splits off the beginning of a text that agrees with a pattern. -/
def commonStart : List Char → List Char → List Char × List Char
  | p :: pattern, c :: text =>
      if p = c then (c :: (commonStart pattern text).1, (commonStart pattern text).2)
      else ([], c :: text)
  | _, text => ([], text)

/-- Splits off the longest beginning of a text whose characters have a property. -/
def run (p : Char → Bool) (text : List Char) : List Char × List Char :=
  (text.takeWhile p, text.dropWhile p)

/-- The part of a marker after its sign. -/
def markerName : List Char := ['t', 'o', 'J', 's', 'o', 'n', '}']

/-- A marker after its two braces and its sign. -/
def signedMarker (whole : Kind) (text : List Char) : Match :=
  let (found, rest) := commonStart (markerName ++ ['}']) text
  ⟨if found.length = markerName.length + 1 then whole else .partialMarker, found, rest⟩

/-- A marker after its two braces. -/
def marker : List Char → Match
  | '#' :: text => (signedMarker .parameterOpen text).after '#'
  | '/' :: text => (signedMarker .parameterClose text).after '/'
  | text => ⟨.partialMarker, (commonStart markerName text).1, (commonStart markerName text).2⟩

/-- An opening brace, or a marker if another one follows. -/
def brace : List Char → Match
  | '{' :: text => (marker text).after '{'
  | text => ⟨.braceOpen, [], text⟩

/-- A string after its opening quote.  A backslash takes the next character with it, unless that
is a line break or there is none: there the string ends without being closed. -/
def quoted : List Char → Match
  | [] => ⟨.unterminatedString, [], []⟩
  | '"' :: text => ⟨.string, ['"'], text⟩
  | ['\\'] => ⟨.unterminatedString, ['\\'], []⟩
  | '\\' :: '\n' :: text => ⟨.unterminatedString, ['\\'], '\n' :: text⟩
  | '\\' :: c :: text => ((quoted text).after c).after '\\'
  | c :: text => (quoted text).after c

/-- The point of a number and the digits after it. -/
def fraction : List Char → List Char × List Char
  | '.' :: text => ('.' :: (run Char.isDigit text).1, (run Char.isDigit text).2)
  | text => ([], text)

def sign : List Char → List Char × List Char
  | '+' :: text => (['+'], text)
  | '-' :: text => (['-'], text)
  | text => ([], text)

/-- The mark of an exponent, its sign and its digits. -/
def exponent : List Char → List Char × List Char
  | [] => ([], [])
  | e :: text =>
      if e = 'e' ∨ e = 'E' then
        (e :: (sign text).1 ++ (run Char.isDigit (sign text).2).1,
          (run Char.isDigit (sign text).2).2)
      else ([], e :: text)

def digits (text : List Char) : Match :=
  let (whole, rest) := run Char.isDigit text
  let (tail, rest) := fraction rest
  let (power, rest) := exponent rest
  ⟨.number, whole ++ tail ++ power, rest⟩

/-- A number after its sign; the sign may stand alone. -/
def negative : List Char → Match
  | c :: text => if c.isDigit then digits (c :: text) else ⟨.number, [], c :: text⟩
  | [] => ⟨.number, [], []⟩

def isBlank (c : Char) : Bool := c = ' ' || c = '\t' || c = '\r'

/-- What a word begins with. -/
def isWordStart (c : Char) : Bool := c.isAlpha || c = '_' || c = '$' || c = '@'

/-- What a word goes on with. -/
def isWordPart (c : Char) : Bool := isWordStart c || c.isDigit || c = '.' || c = '-'

def valueWords : List (List Char × Kind) :=
  [(['t', 'r', 'u', 'e'], .trueWord), (['f', 'a', 'l', 's', 'e'], .falseWord),
    (['n', 'u', 'l', 'l'], .nullWord)]

def wordKind (word : List Char) : Kind :=
  match valueWords.find? (·.1 = word) with
  | some (_, kind) => kind
  | none => .identifier

/-- A word that is a value, or a beginning of one. -/
def beginsValueWord (word : List Char) : Bool :=
  !word.isEmpty && valueWords.any (word.isPrefixOf ·.1)

/-- A block comment after its opening. -/
def blockComment : List Char → Match
  | [] => ⟨.unterminatedComment, [], []⟩
  | '*' :: '/' :: text => ⟨.blockComment, ['*', '/'], text⟩
  | c :: text => (blockComment text).after c

/-- A comment after its slash. -/
def comment? : List Char → Option Match
  | '/' :: text => some ⟨.lineComment, '/' :: (run (· ≠ '\n') text).1, (run (· ≠ '\n') text).2⟩
  | '*' :: text => some ((blockComment text).after '*')
  | _ => none

/-- The longest token that begins with a character, without that character. -/
def begun? (c : Char) (text : List Char) : Option Match :=
  match c with
  | '{' => some (brace text)
  | '}' => some ⟨.braceClose, [], text⟩
  | '[' => some ⟨.bracketOpen, [], text⟩
  | ']' => some ⟨.bracketClose, [], text⟩
  | ':' => some ⟨.colon, [], text⟩
  | ',' => some ⟨.comma, [], text⟩
  | '"' => some (quoted text)
  | '-' => some (negative text)
  | '\n' => some ⟨.newline, [], text⟩
  | '/' => comment? text
  | c =>
      if c.isDigit then some (digits text)
      else if isBlank c then some ⟨.whitespace, (run isBlank text).1, (run isBlank text).2⟩
      else if isWordStart c then
        some ⟨wordKind (c :: (run isWordPart text).1), (run isWordPart text).1,
          (run isWordPart text).2⟩
      else none

/-- The characters up to the next token. -/
def garbage : List Char → Match
  | [] => ⟨.garbage, [], []⟩
  | c :: text =>
      if (begun? c text).isSome then ⟨.garbage, [], c :: text⟩ else (garbage text).after c

/-- What follows the first character of a token, with the token's kind. -/
def next (c : Char) (text : List Char) : Match := (begun? c text).getD (garbage text)

/-! ### Nothing is lost -/

/-- A match splits a text in two. -/
def Match.Splits (m : Match) (text : List Char) : Prop := m.text ++ m.rest = text

theorem Match.Splits.after {m : Match} {text : List Char} (c : Char) (split : m.Splits text) :
    (m.after c).Splits (c :: text) := by
  simpa [Match.Splits, Match.after] using split

theorem commonStart_append (pattern text : List Char) :
    (commonStart pattern text).1 ++ (commonStart pattern text).2 = text := by
  induction pattern generalizing text with
  | nil => simp [commonStart]
  | cons p pattern ih =>
      cases text with
      | nil => simp [commonStart]
      | cons c text =>
          by_cases same : p = c
          · simp [commonStart, same, ih]
          · simp [commonStart, same]

theorem run_append (p : Char → Bool) (text : List Char) :
    (run p text).1 ++ (run p text).2 = text := by
  simp [run]

theorem signedMarker_splits (whole : Kind) (text : List Char) :
    (signedMarker whole text).Splits text :=
  commonStart_append _ text

theorem marker_splits (text : List Char) : (marker text).Splits text := by
  unfold marker
  split
  · exact (signedMarker_splits _ _).after '#'
  · exact (signedMarker_splits _ _).after '/'
  · exact commonStart_append _ _

theorem brace_splits (text : List Char) : (brace text).Splits text := by
  unfold brace
  split
  · exact (marker_splits _).after '{'
  · rfl

theorem quoted_splits (text : List Char) : (quoted text).Splits text := by
  fun_induction quoted text with
  | case1 => rfl
  | case2 text => rfl
  | case3 => rfl
  | case4 text => rfl
  | case5 c text _ ih => exact (ih.after c).after '\\'
  | case6 c text _ _ _ _ ih => exact ih.after c

theorem fraction_append (text : List Char) : (fraction text).1 ++ (fraction text).2 = text := by
  unfold fraction
  split
  · simp [run_append]
  · rfl

theorem sign_append (text : List Char) : (sign text).1 ++ (sign text).2 = text := by
  unfold sign
  split <;> rfl

theorem exponent_append (text : List Char) : (exponent text).1 ++ (exponent text).2 = text := by
  unfold exponent
  split
  · rfl
  · split
    · simp [run_append, sign_append]
    · rfl

theorem digits_splits (text : List Char) : (digits text).Splits text := by
  simp only [digits, Match.Splits, List.append_assoc]
  rw [exponent_append, fraction_append, run_append]

theorem negative_splits (text : List Char) : (negative text).Splits text := by
  unfold negative
  split
  · split
    · exact digits_splits _
    · rfl
  · rfl

theorem blockComment_splits (text : List Char) : (blockComment text).Splits text := by
  fun_induction blockComment text with
  | case1 => rfl
  | case2 text => rfl
  | case3 c text _ ih => exact ih.after c

theorem comment?_splits {text : List Char} {m : Match} (found : comment? text = some m) :
    m.Splits text := by
  unfold comment? at found
  split at found
  · obtain rfl := Option.some.inj found
    simpa [Match.Splits] using run_append _ _
  · obtain rfl := Option.some.inj found
    exact (blockComment_splits _).after '*'
  · contradiction

theorem begun?_splits {c : Char} {text : List Char} {m : Match} (found : begun? c text = some m) :
    m.Splits text := by
  unfold begun? at found
  split at found
  case h_1 => exact Option.some.inj found ▸ brace_splits text
  case h_7 => exact Option.some.inj found ▸ quoted_splits text
  case h_8 => exact Option.some.inj found ▸ negative_splits text
  case h_10 => exact comment?_splits found
  case h_11 =>
    split at found
    · exact Option.some.inj found ▸ digits_splits text
    · split at found
      · exact Option.some.inj found ▸ run_append _ text
      · split at found
        · exact Option.some.inj found ▸ run_append _ text
        · contradiction
  all_goals exact Option.some.inj found ▸ rfl

theorem garbage_splits (text : List Char) : (garbage text).Splits text := by
  induction text with
  | nil => rfl
  | cons c text ih =>
      unfold garbage
      split
      · rfl
      · exact ih.after c

theorem next_splits (c : Char) (text : List Char) : (next c text).Splits text := by
  unfold next
  cases found : begun? c text with
  | none => exact garbage_splits text
  | some m => exact begun?_splits found

theorem length_rest_le (c : Char) (text : List Char) :
    (next c text).rest.length ≤ text.length := by
  have whole := congrArg List.length (next_splits c text)
  simp only [List.length_append] at whole
  omega

/-! ### The tokens of a text -/

/-- The pieces of a text with their kinds, before their contents are checked. -/
def cut : List Char → List (Kind × List Char)
  | [] => []
  | c :: text => ((next c text).kind, c :: (next c text).text) :: cut (next c text).rest
termination_by text => text.length
decreasing_by exact Nat.lt_succ_of_le (length_rest_le c text)

/-- Strings that cannot be decoded and numbers outside the grammar get kinds of their own. -/
def checked (kind : Kind) (text : List Char) : Kind :=
  match kind with
  | .string => if (unescape text.tail.dropLast).toBool then .string else .invalidString
  | .number => if Shape.of text = .complete then .number else .malformedNumber
  | kind => kind

/-- Puts pieces one after the other, from an offset on. -/
def place (offset : Nat) : List (Kind × List Char) → List Lexeme
  | [] => []
  | (kind, text) :: rest =>
      .placed (checked kind text) offset text :: place (offset + Utf8.size text) rest

/-- The texts of the pieces are the text. -/
theorem flatMap_cut (text : List Char) : (cut text).flatMap Prod.snd = text := by
  fun_induction cut text with
  | case1 => rfl
  | case2 c text ih => simpa [ih, Match.Splits] using next_splits c text

theorem flatMap_place (offset : Nat) (pieces : List (Kind × List Char)) :
    (place offset pieces).flatMap Lexeme.text = pieces.flatMap Prod.snd := by
  induction pieces generalizing offset with
  | nil => rfl
  | cons piece rest ih => simp [place, Lexeme.placed, ih]

end Lexer

/-- The tokens of a body, in order and without gaps. -/
def lex (source : String) : List Lexeme := Lexer.place 0 (Lexer.cut source.toList)

/-- The texts of the tokens are the body. -/
theorem flatMap_lex (source : String) : (lex source).flatMap Lexeme.text = source.toList := by
  rw [lex, Lexer.flatMap_place, Lexer.flatMap_cut]

end QueryBody
