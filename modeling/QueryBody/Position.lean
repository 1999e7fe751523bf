import QueryBody.Text.Utf8

/-!
# Positions in a text

A position counts from zero: the line breaks before it, the characters since the
last of them, and all characters before it.  A table of the offsets at which the
lines begin is made once for a text.  An offset past the end stands for the end,
and one inside a character for the beginning of that character.
-/

namespace QueryBody

structure Position where
  row : Nat
  column : Nat
  characters : Nat
  deriving DecidableEq, Repr

namespace Position

/-- The position after a text. -/
def after (text : List Char) : Position :=
  { row := text.count '\n'
    column := (text.reverse.takeWhile (· ≠ '\n')).length
    characters := text.length }

def text (position : Position) : String :=
  position.row.repr ++ ":" ++ position.column.repr ++ ":" ++ position.characters.repr

end Position

/-- A text with the offsets at which its lines begin. -/
structure LineIndex where
  source : List Char
  starts : List Nat

namespace LineIndex

/-- The offsets after the line breaks of a text that stands at an offset. -/
def startsAfter (offset : Nat) : List Char → List Nat
  | [] => []
  | c :: rest =>
      if c = '\n' then (offset + c.utf8Size) :: startsAfter (offset + c.utf8Size) rest
      else startsAfter (offset + c.utf8Size) rest

def of (source : String) : LineIndex := ⟨source.toList, 0 :: startsAfter 0 source.toList⟩

/-- The number of lines; the last one may be empty. -/
def lineCount (index : LineIndex) : Nat := index.starts.length

/-- The last character boundary up to an offset. -/
def snap (text : List Char) : Nat → Nat
  | 0 => 0
  | offset + 1 =>
      if (Utf8.splitAt? (offset + 1) text).isSome then offset + 1 else snap text offset

/-- The position of an offset; nothing only if the table does not belong to the text. -/
def position? (index : LineIndex) (offset : Nat) : Option Position :=
  let offset := snap index.source (min offset (Utf8.size index.source))
  match (index.starts.takeWhile (· ≤ offset)).length with
  | 0 => none
  | row + 1 => do
      let start ← index.starts[row]?
      let line ← Utf8.slice? start offset index.source
      let before ← Utf8.slice? 0 offset index.source
      return ⟨row, line.length, before.length⟩

/-! ### Offsets on character boundaries -/

theorem upTo_succ {offset : Nat} {text : List Char}
    (hinside : Utf8.size (Utf8.upTo (offset + 1) text) ≠ offset + 1) :
    Utf8.upTo (offset + 1) text = Utf8.upTo offset text := by
  induction text generalizing offset with
  | nil => rfl
  | cons c rest ih =>
      by_cases hfits : c.utf8Size ≤ offset + 1
      · simp only [Utf8.upTo, hfits, if_true, Utf8.size_cons] at hinside ⊢
        have hle := Utf8.size_upTo_le (offset + 1 - c.utf8Size) rest
        by_cases hless : c.utf8Size ≤ offset
        · have hnext : offset + 1 - c.utf8Size = offset - c.utf8Size + 1 := by omega
          rw [hnext] at hinside ⊢
          rw [if_pos hless, ih (by omega)]
        · omega
      · have hless : ¬c.utf8Size ≤ offset := by omega
        simp [Utf8.upTo, hfits, hless]

theorem snap_eq (text : List Char) (offset : Nat) :
    snap text offset = Utf8.size (Utf8.upTo offset text) := by
  induction offset with
  | zero => exact (Nat.le_zero.mp (Utf8.size_upTo_le 0 text)).symm
  | succ offset ih =>
      rw [snap]
      split
      next hboundary => exact (Utf8.isSome_splitAt?.mp hboundary).symm
      next hinside => rw [ih, upTo_succ (mt Utf8.isSome_splitAt?.mpr hinside)]

/-! ### The table -/

theorem startsAfter_append (offset : Nat) (front back : List Char) :
    startsAfter offset (front ++ back) =
      startsAfter offset front ++ startsAfter (offset + Utf8.size front) back := by
  induction front generalizing offset with
  | nil => rfl
  | cons c rest ih =>
      simp only [List.cons_append, startsAfter, ih, Utf8.size_cons, Nat.add_assoc]
      split <;> rfl

theorem length_startsAfter (offset : Nat) (text : List Char) :
    (startsAfter offset text).length = text.count '\n' := by
  induction text generalizing offset with
  | nil => rfl
  | cons c rest ih =>
      rw [startsAfter, List.count_cons]
      split
      next hbreak => simp [hbreak, ih]
      next hother => simp [hother, ih]

theorem bounds_of_mem_startsAfter {start offset : Nat} {text : List Char}
    (hmem : start ∈ startsAfter offset text) :
    offset < start ∧ start ≤ offset + Utf8.size text := by
  induction text generalizing offset with
  | nil => contradiction
  | cons c rest ih =>
      have hpos := c.utf8Size_pos
      rw [Utf8.size_cons]
      rw [startsAfter] at hmem
      split at hmem
      · rcases List.mem_cons.mp hmem with rfl | hrest
        · omega
        · have := ih hrest
          omega
      · have := ih hmem
        omega

theorem takeWhile_starts (before rest : List Char) :
    (0 :: startsAfter 0 (before ++ rest)).takeWhile (· ≤ Utf8.size before) =
      0 :: startsAfter 0 before := by
  have hfirst : ∀ start ∈ startsAfter 0 before, decide (start ≤ Utf8.size before) = true := by
    intro start hmem
    have := bounds_of_mem_startsAfter hmem
    exact decide_eq_true (by omega)
  have hsecond : (startsAfter (0 + Utf8.size before) rest).takeWhile
      (· ≤ Utf8.size before) = [] := by
    cases hstarts : startsAfter (0 + Utf8.size before) rest with
    | nil => rfl
    | cons start later =>
        have := bounds_of_mem_startsAfter (hstarts ▸ List.mem_cons_self)
        exact List.takeWhile_cons_of_neg (by simp; omega)
  rw [List.takeWhile_cons_of_pos (by simp), startsAfter_append,
    List.takeWhile_append_of_pos hfirst, hsecond, List.append_nil]

/-- The last line of a text begins where what follows its last break does. -/
theorem getElem?_starts (reversed : List Char) :
    (0 :: startsAfter 0 reversed.reverse)[reversed.count '\n']? =
      some (Utf8.size (reversed.dropWhile (· ≠ '\n'))) := by
  induction reversed with
  | nil => rfl
  | cons c rest ih =>
      rw [List.reverse_cons, startsAfter_append, Utf8.size_reverse, Nat.zero_add,
        ← List.cons_append, List.count_cons]
      by_cases hbreak : c = '\n'
      · subst hbreak
        have hlength : (0 :: startsAfter 0 rest.reverse).length = rest.count '\n' + 1 := by
          simp [length_startsAfter]
        have hcount : rest.count '\n' + 1 = (0 :: startsAfter 0 rest.reverse).length :=
          hlength.symm
        rw [startsAfter, if_pos rfl, startsAfter, if_pos (by rfl), hcount,
          List.getElem?_concat_length, List.dropWhile_cons_of_neg (by simp), Utf8.size_cons,
          Nat.add_comm]
      · simp [startsAfter, hbreak, ih]

theorem exists_last_line (before rest : List Char) :
    ∃ head line, head ++ line = before ∧ line.length = (Position.after before).column ∧
      (0 :: startsAfter 0 (before ++ rest))[before.count '\n']? = some (Utf8.size head) := by
  refine ⟨(before.reverse.dropWhile (· ≠ '\n')).reverse,
    (before.reverse.takeWhile (· ≠ '\n')).reverse, ?_, List.length_reverse, ?_⟩
  · rw [← List.reverse_append, List.takeWhile_append_dropWhile, List.reverse_reverse]
  · have hget := getElem?_starts before.reverse
    rw [List.reverse_reverse, List.count_reverse] at hget
    rw [startsAfter_append, ← List.cons_append, Utf8.size_reverse,
      List.getElem?_append_left (by simp [length_startsAfter]), hget]

/-- The position of an offset is the one after the characters that end there or before. -/
theorem position?_of (source : String) (offset : Nat) :
    (of source).position? offset =
      some (Position.after (Utf8.upTo offset source.toList)) := by
  obtain ⟨rest, htext⟩ := Utf8.upTo_append_eq offset source.toList
  generalize hbefore : Utf8.upTo offset source.toList = before at htext
  have hsnap : snap source.toList (min offset (Utf8.size source.toList)) = Utf8.size before := by
    rw [snap_eq, Utf8.upTo_min, hbefore]
  obtain ⟨head, line, hlines, hcolumn, hstart⟩ := exists_last_line before rest
  have hrows := congrArg List.length (takeWhile_starts before rest)
  rw [List.length_cons, length_startsAfter] at hrows
  have hline : Utf8.slice? (Utf8.size head) (Utf8.size before) source.toList = some line := by
    rw [← htext, ← hlines, Utf8.size_append, List.append_assoc]
    exact Utf8.slice?_append head line rest
  have hall : Utf8.slice? 0 (Utf8.size before) source.toList = some before := by
    rw [← htext, ← Nat.zero_add (Utf8.size before)]
    exact Utf8.slice?_append [] before rest
  rw [htext] at hstart hrows
  have hcharacters : before.length = (Position.after before).characters := rfl
  simp only [position?, of, hsnap, hrows, hstart, Option.bind_eq_bind, Option.bind_some, hline,
    hall, hcolumn, hcharacters]
  rfl

end LineIndex

namespace Position

def ofOffset (source : String) (offset : Nat) : Position :=
  ((LineIndex.of source).position? offset).get (by simp [LineIndex.position?_of])

def ofEnd (source : String) : Position := ofOffset source (Utf8.size source.toList)

/-- The number of lines; the last one may be empty. -/
def lineCount (source : String) : Nat := (LineIndex.of source).lineCount

end Position
end QueryBody
