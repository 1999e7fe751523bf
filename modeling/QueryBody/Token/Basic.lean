import QueryBody.Token.Kind
import QueryBody.Text.Utf8

/-!
# Tokens

A token is a kind and a place.  A lexeme is a token together with its text.
-/

namespace QueryBody

/-- A range of bytes. -/
structure Span where
  start : Nat
  stop : Nat
  deriving DecidableEq, Repr

namespace Span

/-- The empty range at an offset. -/
def point (offset : Nat) : Span := ⟨offset, offset⟩

end Span

structure Token where
  kind : Kind
  span : Span
  deriving DecidableEq, Repr

structure Lexeme extends Token where
  text : List Char
  deriving DecidableEq, Repr

namespace Lexeme

def word (lexeme : Lexeme) : String := String.ofList lexeme.text

/-- The text without its first and its last character, which in a closed string are the quotes. -/
def content (lexeme : Lexeme) : List Char := lexeme.text.tail.dropLast

/-- The lexeme of a kind and a text that begins at an offset. -/
def placed (kind : Kind) (offset : Nat) (text : List Char) : Lexeme :=
  ⟨⟨kind, offset, offset + Utf8.size text⟩, text⟩

end Lexeme
end QueryBody
