import QueryBody.Number.Reading
import QueryBody.Token.Lexer
import QueryBody.Value.Basic

/-!
# What single tokens mean

The scalar that a token is, the property name that it writes, and whether further
input could still make another token of it.
-/

namespace QueryBody
namespace Lexeme

/-- Further input could complete the token or change it. -/
def isOpen (lexeme : Lexeme) : Bool :=
  match lexeme.kind with
  | .unterminatedString | .partialMarker => true
  | .number | .malformedNumber => Shape.of lexeme.text ≠ .invalid
  | .identifier => Lexer.beginsValueWord lexeme.text
  | _ => false

def string (lexeme : Lexeme) : String :=
  match unescape lexeme.content with
  | .ok text => String.ofList text
  | .error _ => ""

def scalar? (lexeme : Lexeme) : Option Scalar :=
  match lexeme.kind with
  | .string => some (.string lexeme.string)
  | .number => some (.number (Numeral.read lexeme.text))
  | .trueWord => some (.bool true)
  | .falseWord => some (.bool false)
  | .nullWord => some .null
  | _ => none

/-- The property name that a string writes. -/
def key (lexeme : Lexeme) : Key := ⟨lexeme.toToken, lexeme.string⟩

end Lexeme
end QueryBody
