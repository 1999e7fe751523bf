/-!
# Sizes and cuts in UTF-8

Offsets into a body count the bytes of its UTF-8 form, while all text here is a
list of characters.  `size` converts one to the other, and `upTo` cuts a text at
the last character boundary that an offset reaches.
-/

namespace QueryBody
namespace Utf8

def size : List Char → Nat
  | [] => 0
  | c :: rest => c.utf8Size + size rest

/-- The characters that end at or before byte `offset`. -/
def upTo (offset : Nat) : List Char → List Char
  | [] => []
  | c :: rest => if c.utf8Size ≤ offset then c :: upTo (offset - c.utf8Size) rest else []

/-- The characters between two offsets. -/
def slice (start stop : Nat) (text : List Char) : List Char :=
  (upTo stop text).drop (upTo start text).length

/-- The characters before and after an offset, if no character reaches over it. -/
def splitAt? : (offset : Nat) → List Char → Option (List Char × List Char)
  | 0, text => some ([], text)
  | _ + 1, [] => none
  | offset + 1, c :: rest =>
      if c.utf8Size ≤ offset + 1 then
        (splitAt? (offset + 1 - c.utf8Size) rest).map fun (before, after) => (c :: before, after)
      else none

/-- The characters between two offsets, if the first one is not after the second one and no
character reaches over either. -/
def slice? (start stop : Nat) (text : List Char) : Option (List Char) :=
  if start ≤ stop then do
    let (_, later) ← splitAt? start text
    let (part, _) ← splitAt? (stop - start) later
    return part
  else none

@[simp] theorem size_nil : size [] = 0 := rfl

@[simp] theorem size_cons (c : Char) (rest : List Char) :
    size (c :: rest) = c.utf8Size + size rest := rfl

@[simp] theorem size_append (left right : List Char) :
    size (left ++ right) = size left + size right := by
  induction left with
  | nil => simp
  | cons c rest ih => simp [ih, Nat.add_assoc]

@[simp] theorem size_reverse (text : List Char) : size text.reverse = size text := by
  induction text with
  | nil => rfl
  | cons c rest ih => simp [ih, Nat.add_comm]

theorem size_pos {text : List Char} (nonempty : text ≠ []) : 0 < size text := by
  cases text with
  | nil => contradiction
  | cons c rest =>
      have := c.utf8Size_pos
      simp only [size_cons]
      omega

@[simp] theorem upTo_nil (offset : Nat) : upTo offset [] = [] := rfl

/-- A cut keeps a leading part of the text. -/
theorem upTo_append_eq (offset : Nat) (text : List Char) :
    ∃ rest, upTo offset text ++ rest = text := by
  induction text generalizing offset with
  | nil => exact ⟨[], rfl⟩
  | cons c rest ih =>
      by_cases fits : c.utf8Size ≤ offset
      · obtain ⟨tail, same⟩ := ih (offset - c.utf8Size)
        exact ⟨tail, by simp [upTo, fits, same]⟩
      · exact ⟨c :: rest, by simp [upTo, fits]⟩

/-- A cut never reaches past its offset. -/
theorem size_upTo_le (offset : Nat) (text : List Char) : size (upTo offset text) ≤ offset := by
  induction text generalizing offset with
  | nil => simp
  | cons c rest ih =>
      by_cases fits : c.utf8Size ≤ offset
      · have := ih (offset - c.utf8Size)
        simp only [upTo, fits, if_true, size_cons]
        omega
      · simp [upTo, fits]

/-- A text can be split exactly where a cut reaches its offset. -/
theorem isSome_splitAt? {offset : Nat} {text : List Char} :
    (splitAt? offset text).isSome ↔ size (upTo offset text) = offset := by
  induction text generalizing offset with
  | nil => cases offset <;> simp [splitAt?]
  | cons c rest ih =>
      have hpos := c.utf8Size_pos
      cases offset with
      | zero => simp [splitAt?, upTo, Nat.pos_iff_ne_zero.mp hpos]
      | succ offset =>
          by_cases hfits : c.utf8Size ≤ offset + 1
          · simp only [splitAt?, upTo, hfits, if_true, Option.isSome_map, ih, size_cons]
            omega
          · simp [splitAt?, upTo, hfits]

theorem splitAt?_append (before after : List Char) :
    splitAt? (size before) (before ++ after) = some (before, after) := by
  induction before with
  | nil => rw [size_nil, splitAt?.eq_def]; rfl
  | cons c before ih =>
      obtain ⟨more, hsize⟩ : ∃ more, c.utf8Size = more + 1 :=
        Nat.exists_eq_succ_of_ne_zero (Nat.pos_iff_ne_zero.mp c.utf8Size_pos)
      have hoffset : size (c :: before) = more + size before + 1 := by
        rw [size_cons, hsize]
        omega
      have hrest : more + size before + 1 - c.utf8Size = size before := by omega
      rw [hoffset, List.cons_append, splitAt?, if_pos (by omega), hrest, ih]
      rfl

theorem slice?_append (before part after : List Char) :
    slice? (size before) (size before + size part) (before ++ (part ++ after)) = some part := by
  rw [slice?, if_pos (Nat.le_add_right _ _), splitAt?_append, Nat.add_sub_cancel_left]
  simp only [bind, Option.bind, splitAt?_append, pure]

theorem upTo_min (offset : Nat) (text : List Char) :
    upTo (min offset (size text)) text = upTo offset text := by
  induction text generalizing offset with
  | nil => rfl
  | cons c rest ih =>
      by_cases hfits : c.utf8Size ≤ offset
      · have hmin : min offset (size (c :: rest)) - c.utf8Size =
            min (offset - c.utf8Size) (size rest) := by
          rw [size_cons]
          omega
        have hboth : c.utf8Size ≤ min offset (size (c :: rest)) := by
          rw [size_cons]
          omega
        rw [upTo, if_pos hboth, hmin, ih, upTo, if_pos hfits]
      · have hboth : ¬c.utf8Size ≤ min offset (size (c :: rest)) := by omega
        rw [upTo, if_neg hboth, upTo, if_neg hfits]

end Utf8
end QueryBody
