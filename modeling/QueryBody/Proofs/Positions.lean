import QueryBody.Position
import Mathlib.Tactic

/-!
# Positions along a text

The position of a character boundary is the one after the characters before it.  Further on
in a text there are more characters before a position, and its row and column come later in
the order of a text.  An offset has the position of the last boundary up to it, so that the
positions of a text tell its boundaries apart and nothing else.  The byte of a line break is
in no other character, so that the bytes of a text say where its lines begin.
-/

namespace QueryBody

namespace Utf8

theorem upTo_append (before rest : List Char) :
    upTo (size before) (before ++ rest) = before := by
  induction before with
  | nil =>
      cases rest with
      | nil => rfl
      | cons c rest =>
          have hpos := c.utf8Size_pos
          exact if_neg (by rw [size_nil]; omega)
  | cons c before ih =>
      rw [List.cons_append, upTo, size_cons, if_pos (Nat.le_add_right _ _),
        Nat.add_sub_cancel_left, ih]

theorem isPrefix_upTo {before text : List Char} {offset : Nat} (hbegins : before <+: text)
    (hle : size before ≤ offset) : before <+: upTo offset text := by
  induction before generalizing offset text with
  | nil => exact List.nil_prefix
  | cons c before ih =>
      obtain ⟨rest, rfl⟩ := hbegins
      rw [size_cons] at hle
      rw [List.cons_append, upTo, if_pos (by omega)]
      exact List.cons_prefix_cons.mpr ⟨rfl, ih (List.prefix_append before rest) (by omega)⟩

theorem size_le_of_isPrefix {before text : List Char} (hbegins : before <+: text) :
    size before ≤ size text := by
  obtain ⟨rest, rfl⟩ := hbegins
  rw [size_append]
  exact Nat.le_add_right _ _

theorem upTo_size {before text : List Char} (hbegins : before <+: text) :
    upTo (size before) text = before := by
  obtain ⟨rest, rfl⟩ := hbegins
  exact upTo_append before rest

theorem eq_of_size_eq {text first second : List Char} (hfirst : first <+: text)
    (hsecond : second <+: text) (hsize : size first = size second) : first = second := by
  rw [← upTo_size hfirst, hsize, upTo_size hsecond]

/-- The beginning of a character, or the end of the text. -/
def IsBoundary (text : List Char) (offset : Nat) : Prop :=
  ∃ before, before <+: text ∧ size before = offset

/-- The last boundary up to an offset, where an offset past the end stands for the end. -/
def SnapsTo (text : List Char) (offset boundary : Nat) : Prop :=
  IsGreatest {other | IsBoundary text other ∧ other ≤ min offset (size text)} boundary

theorem snapsTo_upTo (offset : Nat) (text : List Char) :
    SnapsTo text offset (size (upTo offset text)) := by
  have hbegins : upTo offset text <+: text := upTo_append_eq offset text
  refine ⟨⟨⟨_, hbegins, rfl⟩, le_min (size_upTo_le offset text) (size_le_of_isPrefix hbegins)⟩, ?_⟩
  rintro other ⟨⟨before, hbefore, rfl⟩, hle⟩
  exact size_le_of_isPrefix (isPrefix_upTo hbefore (hle.trans (min_le_left _ _)))

theorem snapsTo_iff {text : List Char} {offset boundary : Nat} :
    SnapsTo text offset boundary ↔ boundary = size (upTo offset text) := by
  constructor
  · intro hsnaps
    exact hsnaps.unique (snapsTo_upTo offset text)
  · rintro rfl
    exact snapsTo_upTo offset text

/-! ### The bytes of line breaks -/

def bytes (text : List Char) : List UInt8 := text.flatMap String.utf8EncodeChar

theorem bytes_cons (c : Char) (rest : List Char) :
    bytes (c :: rest) = String.utf8EncodeChar c ++ bytes rest := List.flatMap_cons

def lineFeed : UInt8 := 10

theorem lineFeed_eq_ofNat_iff {n : Nat} : lineFeed = UInt8.ofNat n ↔ n % 256 = 10 := by
  rw [← UInt8.toNat_inj, UInt8.toNat_ofNat', eq_comm]
  rfl

/-- No other character has the byte of a line break. -/
theorem eq_of_lineFeed_mem {c : Char} (hmem : lineFeed ∈ String.utf8EncodeChar c) : c = '\n' := by
  have hvalue : c.val.toNat = 10 := by
    rw [String.utf8EncodeChar] at hmem
    split at hmem
    · rw [List.mem_singleton, lineFeed_eq_ofNat_iff] at hmem
      omega
    · -- every byte of a longer character is at least 128
      split_ifs at hmem <;>
        simp only [List.mem_cons, List.not_mem_nil, or_false, lineFeed_eq_ofNat_iff] at hmem <;>
        omega
  exact Char.ext (UInt32.toNat_inj.mp hvalue)

end Utf8

namespace LineIndex

theorem startsAfter_eq (offset : Nat) (text : List Char) :
    startsAfter offset text =
      (((Utf8.bytes text).zipIdx offset).filter fun entry => entry.1 = Utf8.lineFeed).map
        fun entry => entry.2 + 1 := by
  induction text generalizing offset with
  | nil => rfl
  | cons c rest ih =>
      rw [startsAfter, ih, Utf8.bytes_cons, List.zipIdx_append, List.filter_append,
        List.map_append, String.length_utf8EncodeChar]
      by_cases hbreak : c = '\n'
      · rw [hbreak]
        rfl
      · have hnone : ((String.utf8EncodeChar c).zipIdx offset).filter
            (fun entry => entry.1 = Utf8.lineFeed) = [] := by
          rw [List.filter_eq_nil_iff]
          intro entry hentry hbyte
          have hfeed : entry.1 = Utf8.lineFeed := of_decide_eq_true hbyte
          exact hbreak (Utf8.eq_of_lineFeed_mem (hfeed ▸ List.fst_mem_of_mem_zipIdx hentry))
        rw [if_neg hbreak, hnone]
        rfl

/-- The lines that begin up to a boundary are the first ones of the table. -/
theorem start_le_iff {before rest : List Char} {line start : Nat}
    (hstart : (0 :: startsAfter 0 (before ++ rest))[line]? = some start) :
    start ≤ Utf8.size before ↔ line ≤ before.count '\n' := by
  have hlength : (0 :: startsAfter 0 before).length = before.count '\n' + 1 := by
    rw [List.length_cons, length_startsAfter]
  rw [startsAfter_append, ← List.cons_append] at hstart
  by_cases hline : line ≤ before.count '\n'
  · rw [List.getElem?_append_left (by omega)] at hstart
    refine iff_of_true ?_ hline
    rcases List.mem_cons.mp (List.mem_of_getElem? hstart) with rfl | hmem
    · exact Nat.zero_le _
    · have := bounds_of_mem_startsAfter hmem
      omega
  · rw [List.getElem?_append_right (by omega)] at hstart
    have := bounds_of_mem_startsAfter (List.mem_of_getElem? hstart)
    exact iff_of_false (by omega) hline

end LineIndex

namespace Position

/-- The first position comes before the second one, as does its line or its place in the line. -/
structure Before (first second : Position) : Prop where
  characters : first.characters < second.characters
  place : first.row < second.row ∨ first.row = second.row ∧ first.column < second.column

theorem ofOffset_eq (source : String) (offset : Nat) :
    ofOffset source offset = after (Utf8.upTo offset source.toList) :=
  Option.get_of_eq_some _ (LineIndex.position?_of source offset)

theorem ofOffset_of_append {source : String} {before rest : List Char}
    (htext : source.toList = before ++ rest) :
    ofOffset source (Utf8.size before) = after before := by
  rw [ofOffset_eq, htext, Utf8.upTo_append]

theorem ofEnd_eq (source : String) : ofEnd source = after source.toList :=
  ofOffset_of_append (List.append_nil _).symm

/-- A longer text has a later position. -/
theorem before_append (text : List Char) {more : List Char} (hmore : more ≠ []) :
    (after text).Before (after (text ++ more)) := by
  have hlength : 0 < more.length := List.length_pos_iff.mpr hmore
  refine ⟨by simpa [after] using hlength, ?_⟩
  by_cases hbreak : '\n' ∈ more
  · have hcount : 0 < more.count '\n' := List.count_pos_iff.mpr hbreak
    exact Or.inl (by simpa [after] using hcount)
  · -- the last line goes on
    have hline : ∀ c ∈ more.reverse, decide (c ≠ '\n') = true := by
      intro c hmem
      exact decide_eq_true fun hsame => hbreak (hsame ▸ List.mem_reverse.mp hmem)
    refine Or.inr ⟨by simp [after, List.count_eq_zero.mpr hbreak], ?_⟩
    simp only [after, List.reverse_append]
    rw [List.takeWhile_append_of_pos hline, List.length_append, List.length_reverse]
    omega

theorem before_of_size_lt {text first second : List Char} (hfirst : first <+: text)
    (hsecond : second <+: text) (hlt : Utf8.size first < Utf8.size second) :
    (after first).Before (after second) := by
  rcases List.prefix_or_prefix_of_prefix hfirst hsecond with ⟨more, rfl⟩ | ⟨more, rfl⟩
  · refine before_append first ?_
    rintro rfl
    simp at hlt
  · rw [Utf8.size_append] at hlt
    omega

/-! ### What a position counts -/

/-- What follows the last line break of a text, or the whole text if it has none. -/
structure IsLastLine (line text : List Char) : Prop where
  noBreak : '\n' ∉ line
  isRest : line = text ∨ '\n' :: line <:+ text

/-- The position counts the characters and the line breaks of the text, and the characters of its
last line. -/
structure Counts (position : Position) (text : List Char) : Prop where
  characters : position.characters = text.length
  row : position.row = text.count '\n'
  column : ∃ line, IsLastLine line text ∧ position.column = line.length

theorem column_append_singleton (text : List Char) (c : Char) :
    (after (text ++ [c])).column = if c = '\n' then 0 else (after text).column + 1 := by
  rw [after, List.reverse_append, List.reverse_singleton, List.singleton_append,
    List.takeWhile_cons]
  by_cases hbreak : c = '\n'
  · simp [hbreak]
  · simp [hbreak, after]

/-- A break begins an empty line, and any other character goes on with the last one. -/
theorem IsLastLine.append_singleton {line text : List Char} (hline : IsLastLine line text)
    (c : Char) : IsLastLine (if c = '\n' then [] else line ++ [c]) (text ++ [c]) := by
  split
  next hbreak => exact ⟨List.not_mem_nil, Or.inr ⟨text, by rw [hbreak]⟩⟩
  next hother =>
    refine ⟨?_, ?_⟩
    · intro hmem
      rcases List.mem_append.mp hmem with hline' | hlast
      · exact hline.noBreak hline'
      · exact hother (List.mem_singleton.mp hlast).symm
    · rcases hline.isRest with rfl | ⟨earlier, rfl⟩
      · exact Or.inl rfl
      · exact Or.inr ⟨earlier, by simp⟩

theorem exists_isLastLine (text : List Char) :
    ∃ line, IsLastLine line text ∧ (after text).column = line.length := by
  induction text using List.reverseRecOn with
  | nil => exact ⟨[], ⟨List.not_mem_nil, Or.inl rfl⟩, rfl⟩
  | append_singleton text c ih =>
      obtain ⟨line, hline, hcolumn⟩ := ih
      refine ⟨_, hline.append_singleton c, ?_⟩
      rw [column_append_singleton, hcolumn]
      split
      next => rfl
      next => rw [List.length_append, List.length_singleton]

theorem counts_after (text : List Char) : (after text).Counts text :=
  ⟨rfl, rfl, exists_isLastLine text⟩

/-! ### The order of positions -/

/-- The order by rows, then by columns and then by characters. -/
instance : PartialOrder Position :=
  PartialOrder.lift
    (fun position => toLex (position.row, toLex (position.column, position.characters)))
    (by
      rintro ⟨row, column, characters⟩ ⟨row', column', characters'⟩ hsame
      simpa using hsame)

theorem Before.lt {first second : Position} (hbefore : first.Before second) : first < second := by
  refine Prod.Lex.toLex_lt_toLex.mpr (hbefore.place.imp_right ?_)
  rintro ⟨hrow, hcolumn⟩
  exact ⟨hrow, Prod.Lex.toLex_lt_toLex.mpr (Or.inl hcolumn)⟩

/-- Of two beginnings of a text, the position tells which one it is. -/
theorem size_eq_of_after_eq {text first second : List Char} (hfirst : first <+: text)
    (hsecond : second <+: text) (hsame : after first = after second) :
    Utf8.size first = Utf8.size second := by
  rcases lt_trichotomy (Utf8.size first) (Utf8.size second) with hlt | heq | hlt
  · exact absurd hsame (before_of_size_lt hfirst hsecond hlt).lt.ne
  · exact heq
  · exact absurd hsame.symm (before_of_size_lt hsecond hfirst hlt).lt.ne

theorem eq_or_before_of_le (source : String) {first second : Nat} (hle : first ≤ second) :
    ofOffset source first = ofOffset source second ∨
      (ofOffset source first).Before (ofOffset source second) := by
  have hbegins : Utf8.upTo first source.toList <+: Utf8.upTo second source.toList :=
    Utf8.isPrefix_upTo (Utf8.upTo_append_eq _ _) ((Utf8.size_upTo_le _ _).trans hle)
  rw [ofOffset_eq, ofOffset_eq]
  obtain ⟨more, hmore⟩ := hbegins
  rw [← hmore]
  by_cases hempty : more = []
  · exact Or.inl (by rw [hempty, List.append_nil])
  · exact Or.inr (before_append _ hempty)

theorem ofOffset_mono (source : String) : Monotone (ofOffset source) := by
  intro first second hle
  rcases eq_or_before_of_le source hle with hsame | hbefore
  · exact hsame.le
  · exact hbefore.lt.le

theorem characters_mono (source : String) :
    Monotone fun offset => (ofOffset source offset).characters := by
  intro first second hle
  rcases eq_or_before_of_le source hle with hsame | hbefore
  · exact (congrArg characters hsame).le
  · exact hbefore.characters.le

theorem ofOffset_eq_iff {source : String} {first second : Nat} :
    ofOffset source first = ofOffset source second ↔
      ∃ boundary, Utf8.SnapsTo source.toList first boundary ∧
        Utf8.SnapsTo source.toList second boundary := by
  simp only [Utf8.snapsTo_iff, exists_eq_left]
  rw [ofOffset_eq, ofOffset_eq]
  have hfirst : Utf8.upTo first source.toList <+: source.toList := Utf8.upTo_append_eq _ _
  have hsecond : Utf8.upTo second source.toList <+: source.toList := Utf8.upTo_append_eq _ _
  constructor
  · exact size_eq_of_after_eq hfirst hsecond
  · intro hsize
    rw [Utf8.eq_of_size_eq hfirst hsecond hsize]

/-! ### Positions and boundaries -/

/-- The position of a boundary: what is counted up to it, and the number of a line, where the lines
up to this one are those that begin up to the boundary. -/
structure IsAt (position : Position) (source : String) (boundary : Nat) : Prop where
  counts : ∃ before, before <+: source.toList ∧ Utf8.size before = boundary ∧
    position.Counts before
  row_lt : position.row < lineCount source
  begun : ∀ line start, (LineIndex.of source).starts[line]? = some start →
    (start ≤ boundary ↔ line ≤ position.row)

theorem isAt_upTo (source : String) (offset : Nat) :
    (ofOffset source offset).IsAt source (Utf8.size (Utf8.upTo offset source.toList)) := by
  obtain ⟨rest, htext⟩ := Utf8.upTo_append_eq offset source.toList
  rw [ofOffset_eq]
  generalize Utf8.upTo offset source.toList = before at htext ⊢
  refine ⟨⟨before, ⟨rest, htext⟩, rfl, counts_after before⟩, ?_, ?_⟩
  · have hcount : before.count '\n' ≤ source.toList.count '\n' :=
      (List.IsPrefix.sublist ⟨rest, htext⟩).count_le _
    rw [lineCount, LineIndex.lineCount, LineIndex.of, List.length_cons,
      LineIndex.length_startsAfter]
    exact Nat.lt_succ_of_le hcount
  · intro line start hstart
    rw [LineIndex.of, ← htext] at hstart
    exact LineIndex.start_le_iff hstart

/-- The table of a source says where its lines begin, and its positions are those of its
boundaries. -/
structure Marks (source : String) (locate : Nat → Position) : Prop where
  table : (LineIndex.of source).starts =
    0 :: ((Utf8.bytes source.toList).zipIdx.filter fun entry => entry.1 = Utf8.lineFeed).map
      fun entry => entry.2 + 1
  found : ∀ offset, (LineIndex.of source).position? offset = some (locate offset)
  isAt : ∀ offset, ∃ boundary, Utf8.SnapsTo source.toList offset boundary ∧
    (locate offset).IsAt source boundary
  monotone : Monotone locate
  characters : Monotone fun offset => (locate offset).characters
  same : ∀ first second, locate first = locate second ↔
    ∃ boundary, Utf8.SnapsTo source.toList first boundary ∧
      Utf8.SnapsTo source.toList second boundary
  ending : (ofEnd source).Counts source.toList

/-- Every offset has the position of the last boundary up to it, later offsets have no earlier
position, and only offsets with the same boundary share one. -/
theorem marks_ofOffset (source : String) : Marks source (ofOffset source) where
  table := congrArg (0 :: ·) (LineIndex.startsAfter_eq 0 source.toList)
  found offset := by rw [ofOffset_eq, LineIndex.position?_of]
  isAt offset := ⟨_, Utf8.snapsTo_upTo offset source.toList, isAt_upTo source offset⟩
  monotone := ofOffset_mono source
  characters := characters_mono source
  same _ _ := ofOffset_eq_iff
  ending := ofEnd_eq source ▸ counts_after source.toList

example : ofOffset "aé\nb" 2 = ⟨0, 1, 1⟩ ∧ ofOffset "aé\nb" 9 = ⟨1, 1, 4⟩ := by decide

end Position
end QueryBody
