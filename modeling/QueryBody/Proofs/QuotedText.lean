import QueryBody.Proofs.StringToken
import Mathlib.Tactic

/-!
# Where the scanner of strings stops

Between its quotes a string may have anything but a quote that stands alone; a backslash
takes the next character with it.  The scanner stops behind the first quote that stands
alone, or between a backslash and a line break, or at the end of the text.
-/

namespace QueryBody

/-- What may stand between two quotes: a backslash takes the next character with it, and no quote
stands alone. -/
inductive IsInner : List Char → Prop
  | nil : IsInner []
  | plain {c : Char} {rest : List Char} (hquote : c ≠ '"') (hslash : c ≠ '\\')
      (hrest : IsInner rest) : IsInner (c :: rest)
  | escaped (c : Char) {rest : List Char} (hrest : IsInner rest) : IsInner ('\\' :: c :: rest)

/-- A quote that stands alone closes the string. -/
def IsClosed (text : List Char) : Prop :=
  ∃ inner more, IsInner inner ∧ text = inner ++ '"' :: more

/-- A backslash takes a line break with it before the string is closed. -/
def EscapesLineBreak (text : List Char) : Prop :=
  ∃ inner more, IsInner inner ∧ text = inner ++ '\\' :: '\n' :: more

variable {c : Char} {inner later rest : List Char}

theorem not_escapesLineBreak_nil : ¬EscapesLineBreak [] := by
  rintro ⟨inner, more, _, htext⟩
  simp at htext

theorem escapesLineBreak_plain (hquote : c ≠ '"') (hslash : c ≠ '\\') :
    EscapesLineBreak (c :: rest) ↔ EscapesLineBreak rest := by
  constructor
  · rintro ⟨inner, more, hinner, htext⟩
    cases hinner with
    | nil => exact absurd (List.cons.inj htext).1 hslash
    | plain _ _ hrest => exact ⟨_, more, hrest, (List.cons.inj htext).2⟩
    | escaped d _ => exact absurd (List.cons.inj htext).1 hslash
  · rintro ⟨inner, more, hinner, rfl⟩
    exact ⟨c :: inner, more, .plain hquote hslash hinner, rfl⟩

theorem escapesLineBreak_escaped :
    EscapesLineBreak ('\\' :: c :: rest) ↔ c = '\n' ∨ EscapesLineBreak rest := by
  constructor
  · rintro ⟨inner, more, hinner, htext⟩
    cases hinner with
    | nil => exact Or.inl (List.cons.inj (List.cons.inj htext).2).1
    | plain _ hslash _ => exact absurd (List.cons.inj htext).1.symm hslash
    | escaped d hrest =>
        obtain ⟨_, hmore⟩ := List.cons.inj htext
        exact Or.inr ⟨_, more, hrest, (List.cons.inj hmore).2⟩
  · rintro (rfl | ⟨inner, more, hinner, rfl⟩)
    · exact ⟨[], rest, .nil, rfl⟩
    · exact ⟨'\\' :: c :: inner, more, .escaped c hinner, rfl⟩

theorem IsInner.escapesLineBreak_append (hinner : IsInner inner) :
    EscapesLineBreak (inner ++ later) ↔ EscapesLineBreak inner ∨ EscapesLineBreak later := by
  induction hinner with
  | nil => simp [not_escapesLineBreak_nil]
  | plain hquote hslash _ ih =>
      rw [List.cons_append, escapesLineBreak_plain hquote hslash,
        escapesLineBreak_plain hquote hslash, ih]
  | escaped c _ ih =>
      rw [List.cons_append, List.cons_append, escapesLineBreak_escaped, escapesLineBreak_escaped,
        ih, or_assoc]

/-- Of the line breaks that are escaped, one is the first. -/
theorem IsInner.exists_first_break (hinner : IsInner inner) (more : List Char) :
    ∃ first after, IsInner first ∧ ¬EscapesLineBreak first ∧
      inner ++ '\\' :: '\n' :: more = first ++ '\\' :: '\n' :: after := by
  induction hinner with
  | nil => exact ⟨[], more, .nil, not_escapesLineBreak_nil, rfl⟩
  | @plain c _ hquote hslash _ ih =>
      obtain ⟨first, after, hfirst, hline, htext⟩ := ih
      refine ⟨c :: first, after, .plain hquote hslash hfirst, ?_, congrArg (c :: ·) htext⟩
      rwa [escapesLineBreak_plain hquote hslash]
  | @escaped c rest _ ih =>
      by_cases hbreak : c = '\n'
      · exact ⟨[], rest ++ '\\' :: '\n' :: more, .nil, not_escapesLineBreak_nil, by rw [hbreak]; rfl⟩
      · obtain ⟨first, after, hfirst, hline, htext⟩ := ih
        refine ⟨'\\' :: c :: first, after, .escaped c hfirst, ?_,
          congrArg ('\\' :: c :: ·) htext⟩
        rw [escapesLineBreak_escaped]
        exact not_or_intro hbreak hline

namespace Lexer

theorem quoted_append (hinner : IsInner inner) (hline : ¬EscapesLineBreak inner)
    (later : List Char) :
    quoted (inner ++ later) =
      ⟨(quoted later).kind, inner ++ (quoted later).text, (quoted later).rest⟩ := by
  induction hinner with
  | nil => rfl
  | plain hquote hslash _ ih =>
      rw [escapesLineBreak_plain hquote hslash] at hline
      rw [List.cons_append, quoted_plain hquote hslash, ih hline]
      rfl
  | escaped c _ ih =>
      rw [escapesLineBreak_escaped, not_or] at hline
      rw [List.cons_append, List.cons_append, quoted_escaped hline.1, ih hline.2]
      rfl

theorem quoted_of_closed (hinner : IsInner inner) (hline : ¬EscapesLineBreak inner)
    (more : List Char) : quoted (inner ++ '"' :: more) = ⟨.string, inner ++ ['"'], more⟩ := by
  rw [quoted_append hinner hline]
  rfl

theorem quoted_of_break (hinner : IsInner inner) (hline : ¬EscapesLineBreak inner)
    (more : List Char) :
    quoted (inner ++ '\\' :: '\n' :: more) =
      ⟨.unterminatedString, inner ++ ['\\'], '\n' :: more⟩ := by
  rw [quoted_append hinner hline]
  rfl

/-- What a string comes to after the characters that the scanner passes over. -/
inductive Ending : List Char → Prop
  | nothing : Ending []
  | slash : Ending ['\\']
  | quote (more : List Char) : Ending ('"' :: more)
  | lineBreak (more : List Char) : Ending ('\\' :: '\n' :: more)

theorem exists_ending (text : List Char) :
    ∃ inner later, IsInner inner ∧ ¬EscapesLineBreak inner ∧ text = inner ++ later ∧
      Ending later := by
  fun_induction quoted text with
  | case1 => exact ⟨[], [], .nil, not_escapesLineBreak_nil, rfl, .nothing⟩
  | case2 text => exact ⟨[], '"' :: text, .nil, not_escapesLineBreak_nil, rfl, .quote text⟩
  | case3 => exact ⟨[], ['\\'], .nil, not_escapesLineBreak_nil, rfl, .slash⟩
  | case4 text =>
      exact ⟨[], '\\' :: '\n' :: text, .nil, not_escapesLineBreak_nil, rfl, .lineBreak text⟩
  | case5 c text hbreak ih =>
      obtain ⟨inner, later, hinner, hline, rfl, hending⟩ := ih
      refine ⟨'\\' :: c :: inner, later, .escaped c hinner, ?_, rfl, hending⟩
      rw [escapesLineBreak_escaped]
      exact not_or_intro hbreak hline
  | case6 c text hquote hslash hescape hbreak ih =>
      have hplain : c ≠ '\\' := by
        rintro rfl
        cases text with
        | nil => exact hslash rfl rfl
        | cons d text => exact hbreak d text rfl rfl
      obtain ⟨inner, later, hinner, hline, rfl, hending⟩ := ih
      refine ⟨c :: inner, later, .plain hquote hplain hinner, ?_, rfl, hending⟩
      rwa [escapesLineBreak_plain hquote hplain]

theorem exists_isInner_of_string {text : List Char} (hkind : (quoted text).kind = .string) :
    ∃ inner, IsInner inner ∧ (quoted text).text = inner ++ ['"'] := by
  obtain ⟨inner, later, hinner, hline, rfl, hending⟩ := exists_ending text
  rw [quoted_append hinner hline] at hkind ⊢
  cases hending with
  | quote more => exact ⟨inner, hinner, rfl⟩
  | nothing | slash | lineBreak more => contradiction

/-- A closed string is scanned up to its closing quote unless it escapes a line break. -/
theorem quoted_of_isInner_iff (hinner : IsInner inner) (more : List Char) :
    (quoted (inner ++ '"' :: more)).kind = .string ↔ ¬EscapesLineBreak inner := by
  constructor
  · rintro hkind ⟨front, back, hfront, rfl⟩
    obtain ⟨first, after, hfirst, hline, htext⟩ :=
      hfront.exists_first_break (back ++ '"' :: more)
    have hwhole : front ++ '\\' :: '\n' :: back ++ '"' :: more =
        first ++ '\\' :: '\n' :: after := by
      rw [← htext, List.append_assoc]
      rfl
    rw [hwhole, quoted_of_break hfirst hline] at hkind
    contradiction
  · intro hline
    rw [quoted_of_closed hinner hline]

/-- An unterminated string reaches to the end, and is never closed, unless it escapes a line
break. -/
theorem quoted_rest_eq_nil_iff (hkind : (quoted rest).kind = .unterminatedString) :
    (quoted rest).rest = [] ∧ ¬IsClosed rest ↔ ¬EscapesLineBreak rest := by
  have hopen (hline : ¬EscapesLineBreak rest) : ¬IsClosed rest := by
    rintro ⟨inner, more, hinner, rfl⟩
    rw [hinner.escapesLineBreak_append, not_or] at hline
    rw [(quoted_of_isInner_iff hinner more).mpr hline.1] at hkind
    contradiction
  obtain ⟨inner, later, hinner, hline, rfl, hending⟩ := exists_ending rest
  have hbreaks : EscapesLineBreak (inner ++ later) ↔
      EscapesLineBreak inner ∨ EscapesLineBreak later := hinner.escapesLineBreak_append
  cases hending with
  | nothing =>
      have hnone : ¬EscapesLineBreak (inner ++ []) := by
        rw [hbreaks]
        exact not_or_intro hline not_escapesLineBreak_nil
      have hrest : (quoted (inner ++ [])).rest = [] := by rw [quoted_append hinner hline]; rfl
      exact iff_of_true ⟨hrest, hopen hnone⟩ hnone
  | slash =>
      have hnone : ¬EscapesLineBreak (inner ++ ['\\']) := by
        rw [hbreaks]
        refine not_or_intro hline ?_
        rintro ⟨front, back, _, htext⟩
        have hlength := congrArg List.length htext
        simp only [List.length_append, List.length_cons, List.length_nil] at hlength
        omega
      have hrest : (quoted (inner ++ ['\\'])).rest = [] := by rw [quoted_append hinner hline]; rfl
      exact iff_of_true ⟨hrest, hopen hnone⟩ hnone
  | quote more =>
      rw [quoted_of_closed hinner hline] at hkind
      contradiction
  | lineBreak more =>
      refine iff_of_false ?_ (not_not_intro (hbreaks.mpr (Or.inr ⟨[], more, .nil, rfl⟩)))
      rw [quoted_of_break hinner hline]
      exact fun hreaches => List.cons_ne_nil _ _ hreaches.1

end Lexer

end QueryBody
