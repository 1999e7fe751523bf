/-!
# Decoding string contents

The text between the quotes of a string is read in two passes.  `pieces` replaces
every escape by what it stands for, a character or a UTF-16 code unit, and stops
at the first one that stands for nothing.  `join` then pairs the surrogates; a
surrogate without a partner becomes U+FFFD.
-/

namespace QueryBody

/-- Why the content of a string cannot be decoded. -/
inductive EscapeError
  /-- A backslash before a character that no escape has. -/
  | unknownEscape (c : Char)
  /-- The escape `\u` without four hexadecimal digits after it. -/
  | badUnicode
  /-- A raw character below U+0020. -/
  | controlCharacter (c : Char)
  deriving DecidableEq, Repr

namespace Escape

/-- The value of a hexadecimal digit, of either case. -/
def hexValue? (c : Char) : Option Nat :=
  if '0' ≤ c ∧ c ≤ '9' then some (c.toNat - '0'.toNat)
  else if 'a' ≤ c ∧ c ≤ 'f' then some (c.toNat - 'a'.toNat + 10)
  else if 'A' ≤ c ∧ c ≤ 'F' then some (c.toNat - 'A'.toNat + 10)
  else none

/-- The code unit that four hexadecimal digits write. -/
def unit? (a b c d : Char) : Option Nat := do
  let a ← hexValue? a
  let b ← hexValue? b
  let c ← hexValue? c
  let d ← hexValue? d
  return ((a * 16 + b) * 16 + c) * 16 + d

/-- The character a one-letter escape stands for. -/
def short? : Char → Option Char
  | '"' => some '"'
  | '\\' => some '\\'
  | '/' => some '/'
  | 'b' => some '\x08'
  | 'f' => some '\x0c'
  | 'n' => some '\n'
  | 'r' => some '\r'
  | 't' => some '\t'
  | _ => none

/-- What one character or escape of a content stands for. -/
inductive Piece
  | char (c : Char)
  | unit (u : Nat)
  deriving DecidableEq, Repr

/-- Reads the characters and escapes of a content from left to right. -/
def pieces : List Char → Except EscapeError (List Piece)
  | [] => .ok []
  | ['\\'] => .error (.unknownEscape '"')
  | '\\' :: 'u' :: a :: b :: c :: d :: rest =>
      match unit? a b c d with
      | some u => (pieces rest).map (.unit u :: ·)
      | none => .error .badUnicode
  | '\\' :: 'u' :: _ => .error .badUnicode
  | '\\' :: e :: rest =>
      match short? e with
      | some c => (pieces rest).map (.char c :: ·)
      | none => .error (.unknownEscape e)
  | c :: rest =>
      if c < ' ' then .error (.controlCharacter c) else (pieces rest).map (.char c :: ·)

/-- The first unit of a surrogate pair. -/
def isHigh (u : Nat) : Bool := 0xD800 ≤ u && u < 0xDC00

/-- The second unit of a surrogate pair. -/
def isLow (u : Nat) : Bool := 0xDC00 ≤ u && u < 0xE000

/-- The character that a pair of surrogates encodes. -/
def pair (high low : Nat) : Char := Char.ofNat (0x10000 + (high - 0xD800) * 0x400 + (low - 0xDC00))

/-- The character of a unit that stands alone. -/
def alone (u : Nat) : Char := if u.isValidChar then Char.ofNat u else '\uFFFD'

/-- Pairs the surrogates of a run of pieces. -/
def join : List Piece → List Char
  | [] => []
  | .char c :: rest => c :: join rest
  | .unit high :: .unit low :: rest =>
      if isHigh high && isLow low then pair high low :: join rest
      else alone high :: join (.unit low :: rest)
  | .unit u :: rest => alone u :: join rest

/-- Every surrogate of a run of pieces has its partner. -/
def isPaired : List Piece → Bool
  | [] => true
  | .char _ :: rest => isPaired rest
  | .unit high :: .unit low :: rest =>
      if isHigh high && isLow low then isPaired rest
      else high.isValidChar && isPaired (.unit low :: rest)
  | .unit u :: rest => u.isValidChar && isPaired rest

end Escape

/-- The text that the content between two quotes stands for. -/
def unescape (content : List Char) : Except EscapeError (List Char) :=
  (Escape.pieces content).map Escape.join

namespace EscapeError

/-- At least four upper-case hexadecimal digits. -/
def codePoint (c : Char) : String :=
  let digits := (Nat.toDigits 16 c.toNat).map Char.toUpper
  String.ofList (List.replicate (4 - digits.length) '0' ++ digits)

def message : EscapeError → String
  | unknownEscape c => "invalid escape sequence `\\" ++ c.toString ++ "`"
  | badUnicode => "`\\u` must be followed by four hex digits"
  | controlCharacter c => "control character U+" ++ codePoint c ++ " must be escaped"

end EscapeError
end QueryBody
