/-!
# Lines of a text

A text with `n` line breaks has `n + 1` lines; the last one may be empty.
-/

namespace QueryBody

/-- The lines of a text, without their breaks. -/
def lines : List Char → List (List Char)
  | [] => [[]]
  | '\n' :: rest => [] :: lines rest
  | c :: rest =>
      match lines rest with
      | [] => [[c]]
      | line :: others => (c :: line) :: others

end QueryBody
