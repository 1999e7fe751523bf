import QueryBody.Text.Lines
import QueryBody.Text.Terminal
import QueryBody.Token.Basic

/-!
# Excerpts of a body

An excerpt shows the lines of a body that its marks touch, each with its number,
and under the last line of every mark the mark itself with its label.  Labels are
shown as they are; everything that comes from the body has its control characters
replaced by pictures.
-/

namespace QueryBody

/-- A line of a body. -/
structure Line where
  /-- The number of the line, counted from one. -/
  number : Nat
  /-- The offset at which the line begins. -/
  start : Nat
  text : List Char
  deriving DecidableEq, Repr

namespace Line

/-- Numbers lines from `number` on.  A line does not keep the carriage return before its break,
and what follows the last break is a line only if it is not empty. -/
def numbered (number start : Nat) : List (List Char) → List Line
  | [] => []
  | [last] => if last.isEmpty && 1 < number then [] else [⟨number, start, last⟩]
  | text :: rest =>
      ⟨number, start, if text.getLast? = some '\r' then text.dropLast else text⟩ ::
        numbered (number + 1) (start + Utf8.size text + 1) rest

/-- The lines of a body; an empty body has one. -/
def ofSource (source : String) : List Line := numbered 1 0 (lines source.toList)

/-- The line of an offset, which for an offset past the end is the last one. -/
def at? (lines : List Line) (offset : Nat) : Option Line :=
  (lines.filter (·.start ≤ offset)).getLast?

/-- The text of a line before an offset and from there on. -/
def before (line : Line) (offset : Nat) : List Char := Utf8.upTo (offset - line.start) line.text
def after (line : Line) (offset : Nat) : List Char :=
  line.text.drop (line.before offset).length

/-- The column of an offset, counted from one; line breaks have a column too. -/
def column (line : Line) (offset : Nat) : Nat :=
  (line.before offset).length + (if Utf8.size line.text < offset - line.start then 2 else 1)

end Line

namespace Excerpt
open Terminal

/-- A range of a body with a label. -/
structure Mark where
  first : Line
  last : Line
  span : Span
  label : List Char

def Mark.of? (lines : List Line) (span : Span) (label : List Char) : Option Mark := do
  let first ← Line.at? lines span.start
  let last ← Line.at? lines span.stop
  return ⟨first, last, span, label⟩

/-- A mark touches a line. -/
def Mark.touches (mark : Mark) (line : Line) : Bool :=
  mark.first.number ≤ line.number && line.number ≤ mark.last.number

/-- The number of columns before the underlined part of a mark, which is in its last line. -/
def Mark.indent (mark : Mark) : Nat :=
  if mark.first.number = mark.last.number then
    (picture (mark.last.before mark.span.start)).length
  else 0

/-- The number of underlined columns, at least one. -/
def Mark.width (mark : Mark) : Nat :=
  max 1 ((picture (mark.last.before mark.span.stop)).length - mark.indent)

/-- The left margin of a row: a number, or blanks for none, and a separator. -/
def margin (width : Nat) (number : Option Nat) (separator : Char) : Stretch :=
  let digits := (number.map (Nat.toDigits 10)).getD []
  setOff (List.replicate (width - digits.length) ' ' ++ digits ++ [' ', separator, ' '])

def lineRow (width : Nat) (separator : Char) (number : Nat) (text : List Char) : Row :=
  [margin width (some number) separator, plain (picture text)]

/-- The underline of a mark and its label. -/
def markRow (width : Nat) (mark : Mark) : Row :=
  [margin width none '|', plain (List.replicate mark.indent ' '),
    setOff (List.replicate mark.width '^' ++ ' ' :: mark.label)]

/-- The marks that end in a line, from right to left. -/
def ending (marks : List Mark) (line : Line) : List Mark :=
  (marks.filter (·.last.number = line.number)).mergeSort fun a b => b.indent ≤ a.indent

/-- The rows between two lines of an excerpt: a single line is shown, more than one left out. -/
def bridge (width : Nat) (lines : List Line) (line next : Line) : List Row :=
  if next.number = line.number + 2 then
    (lines.filter (·.number = line.number + 1)).map fun between =>
      lineRow width '|' between.number between.text
  else if line.number + 2 < next.number then [[setOff ['.', '.', '.']]]
  else []

/-- The rows of the lines that are shown. -/
def lineRows (width : Nat) (lines : List Line) (marks : List Mark) : List Line → List Row
  | [] => []
  | line :: rest =>
      lineRow width '|' line.number line.text :: (ending marks line).map (markRow width) ++
        (match rest with
          | [] => []
          | next :: _ => bridge width lines line next) ++
        lineRows width lines marks rest

/-- The rows of an excerpt. -/
def rows (width : Nat) (lines : List Line) (marks : List Mark) : List Row :=
  [margin width none '|'] ::
    lineRows width lines marks (lines.filter fun line => marks.any (·.touches line))

/-- The lines once a replacement stands in place of a range. -/
def replaced (mark : Mark) (replacement : List Char) : List (List Char) :=
  QueryBody.lines
    (mark.first.before mark.span.start ++ replacement ++ mark.last.after mark.span.stop)

/-- The rows of a change.  A change inside one line shows the line before it and, unless nothing
is left, after it; any other change shows the lines after it. -/
def changeRows (width : Nat) (mark : Mark) (replacement : List Char) : List Row :=
  [margin width none '|'] ::
    match replaced mark replacement with
    | [line] =>
        lineRow width '-' mark.first.number mark.first.text ::
          (if line.all Char.isWhitespace then [] else [lineRow width '+' mark.first.number line])
    | many =>
        many.zipIdx.map fun (line, index) => lineRow width '|' (mark.first.number + index) line

end Excerpt
end QueryBody
