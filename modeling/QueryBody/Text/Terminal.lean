/-!
# Text on a terminal

A row of a terminal is a list of stretches, of which some are set off by a style.
Styles are switched by escape sequences, which end at the next `m`.
-/

namespace QueryBody
namespace Terminal

/-- The character that begins an escape sequence. -/
def escape : Char := '\x1b'

/-- How a character is shown: blanks for a tab, a picture for any other control character,
nothing for a zero-width joiner and U+FFFD for a change of the writing direction. -/
def visible (c : Char) : List Char :=
  if c = '\t' then [' ', ' ', ' ', ' ']
  else if c = '\n' then ['\n']
  else if c < ' ' then [Char.ofNat (0x2400 + c.toNat)]
  else if c = '\x7f' then ['\u2421']
  else if c = '\u200d' then []
  else if '\u202a' ≤ c ∧ c ≤ '\u202e' ∨ '\u2066' ≤ c ∧ c ≤ '\u2069' then ['\ufffd']
  else [c]

/-- How a text is shown; line breaks stay. -/
def picture (text : List Char) : List Char := text.flatMap visible

/-- A part of a row in one style. -/
structure Stretch where
  isSetOff : Bool
  text : List Char
  deriving DecidableEq, Repr

abbrev Row := List Stretch

def plain (text : List Char) : Stretch := ⟨false, text⟩

def setOff (text : List Char) : Stretch := ⟨true, text⟩

/-- The characters of a stretch, with the escape sequences around it if styles are shown. -/
def Stretch.chars (isStyled : Bool) (stretch : Stretch) : List Char :=
  if isStyled && stretch.isSetOff then
    escape :: '[' :: '1' :: 'm' :: stretch.text ++ [escape, '[', '0', 'm']
  else stretch.text

def rowChars (isStyled : Bool) (row : Row) : List Char := row.flatMap (Stretch.chars isStyled)

/-- What is left of a text that begins inside or outside of an escape sequence. -/
def strip (isInside : Bool) : List Char → List Char
  | [] => []
  | c :: rest =>
      if isInside then strip (c ≠ 'm') rest
      else if c = escape then strip true rest
      else c :: strip false rest

/-- A text without its escape sequences. -/
def withoutEscapes (text : List Char) : List Char := strip false text

end Terminal
end QueryBody
