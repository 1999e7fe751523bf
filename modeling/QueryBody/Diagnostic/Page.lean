import QueryBody.Diagnostic.Basic
import QueryBody.Diagnostic.Excerpt

/-!
# Pages of diagnostics

A page shows the diagnostics of a body up to a limit and counts the others in a
trailer.  Each shown diagnostic has a title, a line for its file if the file is
named, and an excerpt of the body; a fix has a title and an excerpt of its own.
-/

namespace QueryBody

structure PageSettings where
  path : Option String := none
  isColored : Bool := false
  limit : Option Nat := none
  deriving DecidableEq, Repr

/-- Diagnostics as they are shown. -/
structure Page where
  /-- The name of the file. -/
  path : Option String
  text : List Char
  deriving DecidableEq, Repr

namespace Page
open Terminal

/-- The label of a diagnostic without a token. -/
def endLabel : List Char := "body ends here".toList

/-- The lines of a title, of which the later ones are aligned with the first. -/
def titleRows (level : String) (isSetOff : Bool) (text : List Char) : List Row :=
  match lines text with
  | [] => []
  | first :: others =>
      [setOff level.toList, ⟨isSetOff, ':' :: ' ' :: first⟩] ::
        others.map fun line => [plain (List.replicate (level.length + 2) ' '), ⟨isSetOff, line⟩]

/-- The range that is underlined: an empty one has the character after it, if there is one. -/
def shownSpan (size : Nat) (span : Span) : Span :=
  if span.start = span.stop then ⟨span.start, min (span.start + 1) size⟩ else span

/-- The line that names the file and the place of a mark in it. -/
def pathRow (width : Nat) (path : String) (mark : Excerpt.Mark) : Row :=
  [setOff (List.replicate width ' ' ++ ['-', '-', '>', ' ']),
    plain (path.toList ++ ':' :: Nat.toDigits 10 mark.first.number ++
      ':' :: Nat.toDigits 10 (mark.first.column mark.span.start))]

/-- The rows of a fix for what is marked.  Its description is shown as it is. -/
def fixRows (width : Nat) (mark : Excerpt.Mark) (fix : Fix) : List Row :=
  [Excerpt.margin width none '|'] ::
    titleRows "help" false fix.description.toList ++
      Excerpt.changeRows width mark fix.replacement.toList

/-- The rows of a diagnostic. -/
def rows (path : Option String) (size : Nat) (lines : List Line) (diagnostic : Diagnostic) :
    List Row :=
  let label := if diagnostic.token.isSome then diagnostic.message.toList else endLabel
  let width := (Nat.toDigits 10 lines.length).length
  let primary := (Excerpt.Mark.of? lines (shownSpan size diagnostic.span) label).toList
  let related := diagnostic.related.filterMap fun related =>
    Excerpt.Mark.of? lines (shownSpan size related.span) related.message.toList
  titleRows "error" true (picture diagnostic.message.toList) ++
    path.toList.flatMap (fun path => primary.map (pathRow width path)) ++
    Excerpt.rows width lines (primary ++ related) ++
    diagnostic.fix.toList.flatMap fun fix => primary.flatMap (fixRows width · fix)

/-- The text that counts hidden diagnostics. -/
def trailer (hidden : Nat) : List Char :=
  ("\n... and " ++ hidden.repr ++ " more error" ++ (if hidden = 1 then "" else "s") ++ "\n").toList

/-- The lines of a page as a terminal shows them. -/
def shownLines (page : Page) : List (List Char) := lines (withoutEscapes page.text)

/-- What the lines begin with that name a diagnostic, a fix, or the number of hidden ones. -/
def headingMarks : List String := ["error: ", "help: ", "... and "]

def headings (page : Page) : List String :=
  (page.shownLines.filter fun line => headingMarks.any (·.toList.isPrefixOf line)).map String.ofList

/-- The number of lines that name the file; nothing, if the file has no name. -/
def pathLines (page : Page) : Option Nat :=
  page.path.map fun path =>
    page.shownLines.countP fun line =>
      ("--> " ++ path ++ ":").toList.isPrefixOf (line.dropWhile Char.isWhitespace)

/-- The number of places at which a text contains a pattern. -/
def occurrences (pattern : List Char) : List Char → Nat
  | [] => 0
  | c :: rest => (if pattern.isPrefixOf (c :: rest) then 1 else 0) + occurrences pattern rest

/-- The number of marks at the end of the body. -/
def endMarks (page : Page) : Nat := occurrences endLabel (withoutEscapes page.text)

def isStyled (page : Page) : Bool := page.text.contains escape

def endsWithBreak (page : Page) : Bool := page.text.getLast? = some '\n'

def isEmpty (page : Page) : Bool := page.text.isEmpty

end Page

namespace PageSettings

/-- The diagnostics that are shown. -/
def shown (settings : PageSettings) (diagnostics : Diagnostics) : List Diagnostic :=
  diagnostics.toList.take (settings.limit.getD diagnostics.size)

/-- The page of the diagnostics of a body. -/
def page (settings : PageSettings) (source : String) (diagnostics : Diagnostics) : Page :=
  let shown := settings.shown diagnostics
  let hidden := diagnostics.size - shown.length
  let rows := shown.flatMap
    (Page.rows settings.path (Utf8.size source.toList) (Line.ofSource source))
  { path := settings.path
    text := ['\n'].intercalate (rows.map (Terminal.rowChars settings.isColored)) ++
      (if hidden = 0 then [] else Page.trailer hidden) }

end PageSettings
end QueryBody
