import QueryBody.Proofs.AppendedTokens
import QueryBody.Proofs.TokenText
import Mathlib.Tactic

/-!
# Where string tokens end

A string goes on to the first quote that no backslash takes with it, and to the end of the
body if there is none.  There is one exception: a backslash in front of a line break ends
the string, whatever comes after it.
-/

namespace QueryBody

open Lexer

variable {source : String} {front back : List Lexeme} {token : Lexeme} {rest : List Char}

theorem exists_piece_of_lex (hlex : lex source = front ++ token :: back) :
    ∃ first piece second, cut source.toList = first ++ piece :: second ∧
      front.flatMap Lexeme.text = first.flatMap Prod.snd ∧
      token = .placed (checked piece.1 piece.2) (Utf8.size (first.flatMap Prod.snd)) piece.2 ∧
      back.flatMap Lexeme.text = second.flatMap Prod.snd := by
  obtain ⟨first, second, hcut, rfl, hsecond⟩ := eq_append_of_place hlex
  cases second with
  | nil => contradiction
  | cons piece second =>
      rw [place, List.cons.injEq, Nat.zero_add] at hsecond
      obtain ⟨rfl, rfl⟩ := hsecond
      exact ⟨first, piece, second, hcut, flatMap_place _ _, rfl, flatMap_place _ _⟩

theorem scanned_of_quote (hlex : lex source = front ++ token :: back)
    (hsource : source.toList = front.flatMap Lexeme.text ++ '"' :: rest) :
    token.kind = checked (quoted rest).kind token.text ∧
      token.text = '"' :: (quoted rest).text ∧ back.flatMap Lexeme.text = (quoted rest).rest := by
  obtain ⟨first, piece, second, hcut, hfront, rfl, hback⟩ := exists_piece_of_lex hlex
  have hagain := cut_flatMap hcut
  have htext : (piece :: second).flatMap Prod.snd = '"' :: rest := by
    rw [← flatMap_cut source.toList, hcut, List.flatMap_append, hfront] at hsource
    exact List.append_cancel_left hsource
  have hbegun : begun? '"' rest = some (quoted rest) := rfl
  rw [htext, cut_of_begun? hbegun, List.cons.injEq] at hagain
  obtain ⟨rfl, rfl⟩ := hagain
  exact ⟨rfl, rfl, by rw [hback, flatMap_cut]⟩

theorem stop_eq_size_iff (hlex : lex source = front ++ token :: back) :
    token.span.stop = Utf8.size source.toList ↔ back.flatMap Lexeme.text = [] := by
  obtain ⟨first, piece, second, hcut, _, rfl, hback⟩ := exists_piece_of_lex hlex
  have hsize : Utf8.size source.toList = Utf8.size (first.flatMap Prod.snd) +
      (Utf8.size piece.2 + Utf8.size (second.flatMap Prod.snd)) := by
    rw [← flatMap_cut source.toList, hcut, List.flatMap_append, List.flatMap_cons,
      Utf8.size_append, Utf8.size_append]
  have hstop : Utf8.size (first.flatMap Prod.snd) + Utf8.size piece.2 =
      Utf8.size source.toList ↔ Utf8.size (second.flatMap Prod.snd) = 0 := by omega
  rw [hback]
  refine hstop.trans ⟨fun hzero => ?_, fun hnil => by rw [hnil, Utf8.size_nil]⟩
  by_contra hne
  exact absurd hzero (Utf8.size_pos hne).ne'

theorem exists_quote_of_unterminatedString (hlex : lex source = front ++ token :: back)
    (hkind : token.kind = .unterminatedString) :
    ∃ rest, source.toList = front.flatMap Lexeme.text ++ '"' :: rest := by
  have hmem : token ∈ lex source := by simp [hlex]
  obtain ⟨kind, hpiece, hchecked⟩ := mem_place hmem
  obtain rfl := eq_of_checked (hchecked.symm.trans hkind) (by decide) (by decide)
  obtain ⟨c, text, m, hbegun, hpair⟩ := begun?_of_mem_cut hpiece Kind.noConfusion
  obtain ⟨hm, htext⟩ := Prod.mk.inj hpair
  have hstarts := starts_of_begun? hbegun
  rw [← hm] at hstarts
  obtain rfl : c = '"' := by simpa [starts] using hstarts
  refine ⟨m.text ++ back.flatMap Lexeme.text, ?_⟩
  rw [← flatMap_lex, hlex, List.flatMap_append, List.flatMap_cons, htext, List.cons_append]

/-- An unterminated string reaches to the end of the body and is never closed, and a closed string
is one token, exactly if no backslash in it stands before a line break. -/
theorem unterminatedString_reaches_end_iff (hlex : lex source = front ++ token :: back) :
    (token.kind = .unterminatedString →
        ∃ rest, source.toList = front.flatMap Lexeme.text ++ '"' :: rest ∧
          (token.span.stop = Utf8.size source.toList ∧ ¬IsClosed rest ↔
            ¬EscapesLineBreak rest)) ∧
      ∀ inner more, IsInner inner →
        source.toList = front.flatMap Lexeme.text ++ '"' :: (inner ++ '"' :: more) →
          (token.text = '"' :: (inner ++ ['"']) ∧
              token.kind = (if (unescape inner).toBool then .string else .invalidString) ↔
            ¬EscapesLineBreak inner) := by
  constructor
  · intro hkind
    obtain ⟨rest, hsource⟩ := exists_quote_of_unterminatedString hlex hkind
    obtain ⟨hchecked, _, hback⟩ := scanned_of_quote hlex hsource
    have hscanned := eq_of_checked (hchecked.symm.trans hkind) (by decide) (by decide)
    refine ⟨rest, hsource, ?_⟩
    rw [stop_eq_size_iff hlex, hback]
    exact quoted_rest_eq_nil_iff hscanned
  · intro inner more hinner hsource
    obtain ⟨hchecked, htext, _⟩ := scanned_of_quote hlex hsource
    constructor
    · rintro ⟨_, hkind⟩
      rw [← quoted_of_isInner_iff hinner more]
      have hstring : checked (quoted (inner ++ '"' :: more)).kind token.text = .string ∨
          checked (quoted (inner ++ '"' :: more)).kind token.text = .invalidString := by
        rw [← hchecked, hkind]
        split
        · exact Or.inl rfl
        · exact Or.inr rfl
      refine string_of_checked hstring fun hinvalid => ?_
      have hmem := quoted_kind (inner ++ '"' :: more)
      rw [hinvalid] at hmem
      contradiction
    · intro hline
      rw [quoted_of_closed hinner hline] at hchecked htext
      refine ⟨htext, ?_⟩
      rw [hchecked, htext, checked, List.tail_cons, List.dropLast_concat]

theorem unterminatedString_before_line_break :
    lex "[\"a\\\nb\"]" = [.placed .bracketOpen 0 ['[']] ++
        .placed .unterminatedString 1 ['"', 'a', '\\'] :: [.placed .newline 4 ['\n'],
          .placed .identifier 5 ['b'], .placed .unterminatedString 6 ['"', ']']] ∧
      (∃ rest, "[\"a\\\nb\"]".toList = ['['] ++ '"' :: rest ∧ EscapesLineBreak rest ∧
        ¬(4 = Utf8.size "[\"a\\\nb\"]".toList ∧ ¬IsClosed rest)) ∧
      IsInner ['a', '\\', '\n', 'b'] ∧
      ¬(['"', 'a', '\\'] = '"' :: (['a', '\\', '\n', 'b'] ++ ['"']) ∧
        Kind.unterminatedString = .invalidString) := by
  have hlex : lex "[\"a\\\nb\"]" = [.placed .bracketOpen 0 ['[']] ++
      .placed .unterminatedString 1 ['"', 'a', '\\'] :: [.placed .newline 4 ['\n'],
        .placed .identifier 5 ['b'], .placed .unterminatedString 6 ['"', ']']] := by decide +kernel
  have hends := unterminatedString_reaches_end_iff hlex
  have hinner : IsInner ['a', '\\', '\n', 'b'] :=
    .plain (by decide) (by decide) (.escaped '\n' (.plain (by decide) (by decide) .nil))
  have hbreak (more : List Char) : EscapesLineBreak ('a' :: '\\' :: '\n' :: more) :=
    ⟨['a'], more, .plain (by decide) (by decide) .nil, rfl⟩
  refine ⟨hlex, ?_, hinner, ?_⟩
  · obtain ⟨rest, hsource, hiff⟩ := hends.1 rfl
    have hrest : rest = 'a' :: '\\' :: '\n' :: ['b', '"', ']'] := by
      simpa [Lexeme.placed] using hsource.symm
    have hescapes : EscapesLineBreak rest := hrest ▸ hbreak _
    exact ⟨rest, hsource, hescapes, hiff.not.mpr (not_not_intro hescapes)⟩
  · exact (hends.2 _ [']'] hinner rfl).not.mpr (not_not_intro (hbreak ['b']))

/-- A closed string need not be one token: a backslash before a line break ends it. -/
theorem unterminatedString_of_escaped_line_break :
    ¬∀ (source : String) (front back : List Lexeme) (token : Lexeme),
      lex source = front ++ token :: back → token.kind = .unterminatedString →
        token.span.stop = Utf8.size source.toList ∧
          ∀ rest, source.toList = front.flatMap Lexeme.text ++ '"' :: rest → ¬IsClosed rest := by
  intro hall
  have hlex : lex "\"a\\\nb\"" = [] ++ .placed .unterminatedString 0 ['"', 'a', '\\'] ::
      [.placed .newline 3 ['\n'], .placed .identifier 4 ['b'],
        .placed .unterminatedString 5 ['"']] := by decide +kernel
  have hstop := (hall _ _ _ _ hlex rfl).1
  contradiction

end QueryBody
