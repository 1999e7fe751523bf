/-!
# Quoted strings

The written form of a string in JSON output: a short escape where one exists,
`\u00xx` for the other characters below U+0020, and every other character as
itself.
-/

namespace QueryBody
namespace Quoted

/-- A hexadecimal digit, in lower case. -/
def hexDigit (n : Nat) : Char := Nat.digitChar (n % 16)

def escape (c : Char) : List Char :=
  match c with
  | '"' => ['\\', '"']
  | '\\' => ['\\', '\\']
  | '\x08' => ['\\', 'b']
  | '\x0c' => ['\\', 'f']
  | '\n' => ['\\', 'n']
  | '\r' => ['\\', 'r']
  | '\t' => ['\\', 't']
  | c => if c < ' ' then ['\\', 'u', '0', '0', hexDigit (c.toNat / 16), hexDigit c.toNat] else [c]

/-- A text with its quotes. -/
def encode (text : List Char) : List Char := '"' :: text.flatMap escape ++ ['"']

end Quoted

end QueryBody
