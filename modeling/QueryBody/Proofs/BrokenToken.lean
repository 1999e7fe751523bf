import QueryBody.Proofs.Continuation
import QueryBody.Proofs.SoundTokens
import Mathlib.Tactic

/-!
# Tokens that are broken off

A beginning of a token that stops before its end is one token by itself, mostly of
another kind.
-/

namespace QueryBody
namespace Lexer

/-- The kind of a part of a token, from its beginning to somewhere before its end. -/
def brokenKind (kind : Kind) (part : List Char) : Kind :=
  match kind with
  | .string => .unterminatedString
  | .trueWord | .falseWord | .nullWord | .identifier => wordKind part
  | .lineComment => if part = ['/'] then .garbage else .lineComment
  | .blockComment => if part = ['/'] then .garbage else .unterminatedComment
  | .parameterOpen | .parameterClose => if part = ['{'] then .braceOpen else .partialMarker
  | kind => kind

variable {part rest : List Char}

theorem quoted_broken {text : List Char} (hkind : (quoted text).kind = .string)
    (htext : (quoted text).text = part ++ rest) (hrest : rest ≠ []) :
    quoted part = ⟨.unterminatedString, part, []⟩ := by
  fun_induction quoted text generalizing part with
  | case1 => contradiction
  | case2 text =>
      cases part with
      | nil => rfl
      | cons d part =>
          have hnone := congrArg List.length htext
          have hsome := List.length_pos_of_ne_nil hrest
          simp only [List.length_cons, List.length_nil, List.length_append] at hnone
          omega
  | case3 => contradiction
  | case4 text => contradiction
  | case5 c text hline ih =>
      simp only [Match.after] at hkind htext
      cases part with
      | nil => rfl
      | cons d part =>
          obtain ⟨rfl, hmore⟩ := List.cons.inj htext
          cases part with
          | nil => rfl
          | cons e part =>
              obtain ⟨rfl, hrestText⟩ := List.cons.inj hmore
              rw [quoted, ih hkind hrestText]
              · rfl
              · exact hline
  | case6 c text hquote hslash hescape hbreak ih =>
      simp only [Match.after] at hkind htext
      have hplain : c ≠ '\\' := by
        rintro rfl
        cases text with
        | nil => exact hslash rfl rfl
        | cons d text => exact hbreak d text rfl rfl
      cases part with
      | nil => rfl
      | cons d part =>
          obtain ⟨rfl, hmore⟩ := List.cons.inj htext
          rw [quoted, ih hkind hmore]
          · rfl
          · exact hquote
          · exact fun hsame => absurd hsame hplain
          · exact fun _ hsame => absurd hsame hplain
          · exact fun _ _ hsame => absurd hsame hplain

theorem blockComment_broken {text : List Char} (hkind : (blockComment text).kind = .blockComment)
    (htext : (blockComment text).text = part ++ rest) (hrest : rest ≠ []) :
    blockComment part = ⟨.unterminatedComment, part, []⟩ := by
  fun_induction blockComment text generalizing part with
  | case1 => contradiction
  | case2 text =>
      have hshort : part.length ≤ 1 := by
        have hlength := congrArg List.length htext
        have hsome := List.length_pos_of_ne_nil hrest
        simp only [List.length_cons, List.length_nil, List.length_append] at hlength
        omega
      cases part with
      | nil => rfl
      | cons d part =>
          obtain ⟨rfl, _⟩ := List.cons.inj htext
          have hnil : part = [] := List.length_eq_zero_iff.mp (by simpa using hshort)
          subst hnil
          rfl
  | case3 c text hopen ih =>
      simp only [Match.after] at hkind htext
      cases part with
      | nil => rfl
      | cons d part =>
          obtain ⟨rfl, hmore⟩ := List.cons.inj htext
          rw [blockComment, ih hkind hmore]
          · rfl
          · intro more hstar hslash
            cases text with
            | nil => contradiction
            | cons e text =>
                obtain ⟨front, hfront⟩ := blockComment_cons e text
                rw [hfront, hslash] at hmore
                obtain ⟨rfl, _⟩ := List.cons.inj hmore
                exact hopen text hstar rfl

theorem commonStart_broken {pattern : List Char} (hpattern : pattern = part ++ rest) :
    commonStart pattern part = (part, []) := by
  induction part generalizing pattern with
  | nil => cases pattern <;> rfl
  | cons c part ih =>
      subst hpattern
      simp [commonStart, ih rfl]

theorem signedMarker_broken {whole : Kind} {text : List Char}
    (hkind : (signedMarker whole text).kind ≠ .partialMarker)
    (htext : (signedMarker whole text).text = part ++ rest) (hrest : rest ≠ []) :
    signedMarker whole part = ⟨.partialMarker, part, []⟩ := by
  unfold signedMarker at hkind htext
  dsimp only at hkind htext
  split at hkind
  next hlength =>
    have hpattern : (commonStart (markerName ++ ['}']) text).1 = markerName ++ ['}'] :=
      commonStart_eq_of_length hlength
    have hshort : part.length < (markerName ++ ['}']).length := by
      have hsome := List.length_pos_of_ne_nil hrest
      rw [hpattern.symm.trans htext, List.length_append]
      omega
    have hopen : part.length ≠ markerName.length + 1 := hshort.ne
    simp only [signedMarker, commonStart_broken (hpattern.symm.trans htext), hopen, if_false]
  · contradiction

theorem marker_broken {text : List Char} (hkind : (marker text).kind ≠ .partialMarker)
    (htext : (marker text).text = part ++ rest) (hrest : rest ≠ []) :
    marker part = ⟨.partialMarker, part, []⟩ := by
  unfold marker at hkind htext
  split at hkind
  next text =>
    cases part with
    | nil => rfl
    | cons d part =>
        obtain ⟨rfl, hmore⟩ := List.cons.inj htext
        exact congrArg (Match.after '#') (signedMarker_broken hkind hmore hrest)
  next text =>
    cases part with
    | nil => rfl
    | cons d part =>
        obtain ⟨rfl, hmore⟩ := List.cons.inj htext
        exact congrArg (Match.after '/') (signedMarker_broken hkind hmore hrest)
  · contradiction

theorem cut_of_whole {c : Char} {text : List Char} {kind : Kind}
    (hfound : begun? c text = some ⟨kind, text, []⟩) : cut (c :: text) = [(kind, c :: text)] := by
  rw [cut_of_begun? hfound, cut]

theorem cut_brace_broken {text : List Char} (hsound : (brace text).kind.isLexicalError = false)
    (htext : (brace text).text = part ++ rest) (hrest : rest ≠ []) :
    cut ('{' :: part) = [(brokenKind (brace text).kind ('{' :: part), '{' :: part)] := by
  by_cases hdouble : text.head? = some '{'
  · obtain ⟨text, rfl⟩ := List.head?_eq_some_iff.mp hdouble
    have hmarker : (marker text).kind ≠ .partialMarker := by
      intro hkind
      simp [brace, Match.after, hkind, Kind.isLexicalError] at hsound
    have hkinds : ∀ part, brokenKind (brace ('{' :: text)).kind part =
        if part = ['{'] then .braceOpen else .partialMarker := by
      have hmem := marker_kind text
      simp only [List.mem_cons, List.not_mem_nil, or_false, hmarker] at hmem
      intro part
      rcases hmem with hkind | hkind <;> simp [brace, Match.after, hkind, brokenKind]
    rw [hkinds]
    cases part with
    | nil => exact cut_of_whole rfl
    | cons d part =>
        obtain ⟨rfl, hmore⟩ := List.cons.inj htext
        have hpart := marker_broken hmarker hmore hrest
        have hbegun : begun? '{' ('{' :: part) = some ⟨.partialMarker, '{' :: part, []⟩ :=
          congrArg (fun m => some (Match.after '{' m)) hpart
        rw [cut_of_whole hbegun, if_neg (by simp)]
  · rw [brace_of_single hdouble] at htext
    exact absurd (List.append_eq_nil_iff.mp htext.symm).2 hrest

theorem cut_comment_broken {text : List Char} {m : Match} (hfound : comment? text = some m)
    (hsound : m.kind.isLexicalError = false) (htext : m.text = part ++ rest) (hrest : rest ≠ []) :
    cut ('/' :: part) = [(brokenKind m.kind ('/' :: part), '/' :: part)] := by
  have hslash : cut ['/'] = [(.garbage, ['/'])] := by
    have hnone : next '/' [] = ⟨.garbage, [], []⟩ := rfl
    rw [cut, hnone, cut]
  unfold comment? at hfound
  split at hfound
  next text =>
    cases hfound
    cases part with
    | nil => exact hslash
    | cons d part =>
        obtain ⟨rfl, hmore⟩ := List.cons.inj htext
        have hline : Scans (endsBefore .lineComment) (run (· ≠ '\n')) :=
          Scans.run (by simp [endsBefore])
        have hpart := hline.shrinks text part rest hmore
        have hbegun : begun? '/' ('/' :: part) = some ⟨.lineComment, '/' :: part, []⟩ := by
          simp only [begun?, comment?, hpart]
        rw [cut_of_whole hbegun]
        rfl
  next text =>
    cases hfound
    have hkind : (blockComment text).kind = .blockComment := by
      have hmem := blockComment_kind text
      simp only [List.mem_cons, List.not_mem_nil, or_false] at hmem
      rcases hmem with hkind | hkind
      · exact hkind
      · simp [Match.after, hkind, Kind.isLexicalError] at hsound
    simp only [Match.after, hkind]
    cases part with
    | nil => exact hslash
    | cons d part =>
        obtain ⟨rfl, hmore⟩ := List.cons.inj htext
        have hpart := blockComment_broken hkind hmore hrest
        have hbegun : begun? '/' ('*' :: part) = some ⟨.unterminatedComment, '*' :: part, []⟩ :=
          congrArg (fun m => some (Match.after '*' m)) hpart
        rw [cut_of_whole hbegun]
        rfl
  · contradiction

/-- A part of a sound token is one token by itself. -/
theorem cut_broken {c : Char} {text : List Char} {m : Match} (hfound : begun? c text = some m)
    (hsound : m.kind.isLexicalError = false) (htext : m.text = part ++ rest) (hrest : rest ≠ []) :
    cut (c :: part) = [(brokenKind m.kind (c :: part), c :: part)] := by
  have hbegins := begins c
  have hwhole : ∀ kind, begun? c part = some ⟨kind, part, []⟩ →
      cut (c :: part) = [(kind, c :: part)] := fun kind hbegun => cut_of_whole hbegun
  generalize begun? c = scan at hfound hbegins hwhole
  cases hbegins with
  | brace =>
      cases hfound
      exact cut_brace_broken hsound htext hrest
  | single hsingle =>
      cases hfound
      exact absurd (List.append_eq_nil_iff.mp htext.symm).2 hrest
  | quoted =>
      cases hfound
      have hkind : (quoted text).kind = .string := by
        have hmem := quoted_kind text
        simp only [List.mem_cons, List.not_mem_nil, or_false] at hmem
        rcases hmem with hkind | hkind
        · exact hkind
        · rw [hkind] at hsound
          contradiction
      have hpart := quoted_broken hkind htext hrest
      rw [hwhole _ (congrArg some hpart), hkind]
      rfl
  | negative =>
      cases hfound
      rw [negative_eq] at htext ⊢
      have hpart := scans_negative.shrinks text part rest htext
      exact hwhole .number (by simp only [negative_eq, hpart])
  | comment => exact cut_comment_broken hfound hsound htext hrest
  | digits hdigit =>
      cases hfound
      rw [digits_eq] at htext ⊢
      have hpart := scans_scanDigits.shrinks text part rest htext
      exact hwhole .number (by simp only [digits_eq, hpart])
  | blanks hblank =>
      cases hfound
      have hpart := scans_blanks.shrinks text part rest htext
      exact hwhole .whitespace (by simp only [hpart])
  | word hstart =>
      cases hfound
      have hpart := scans_word.shrinks text part rest htext
      have hkind : brokenKind (wordKind (c :: (run isWordPart text).1)) (c :: part) =
          wordKind (c :: part) := by
        have hmem := wordKind_mem (c :: (run isWordPart text).1)
        simp only [List.mem_cons, List.not_mem_nil, or_false] at hmem
        rcases hmem with hmem | hmem | hmem | hmem <;> rw [hmem] <;> rfl
      rw [hkind]
      exact hwhole (wordKind (c :: part)) (by simp only [hpart])
  | nothing => contradiction

/-! ### Kinds and texts -/

theorem brace_of_braceOpen {text : List Char} (hkind : (brace text).kind = .braceOpen) :
    (brace text).text = [] := by
  by_cases hdouble : text.head? = some '{'
  · obtain ⟨text, rfl⟩ := List.head?_eq_some_iff.mp hdouble
    have hmem := marker_kind text
    have hmarker : (marker text).kind = .braceOpen := hkind
    simp [hmarker] at hmem
  · rw [brace_of_single hdouble]

/-- Brackets, colons, commas and line breaks are one character long. -/
theorem text_eq_nil_of_single {c : Char} {text : List Char} {m : Match}
    (hfound : begun? c text = some m)
    (hkind : m.kind ∈ Kind.braceOpen :: singles.map Prod.snd) : m.text = [] := by
  have hstarts := starts_of_begun? hfound
  rcases List.mem_cons.mp hkind with hbrace | hsingle
  · rw [hbrace] at hstarts
    have hc : c = '{' := by simpa [starts] using hstarts
    subst hc
    cases hfound
    exact brace_of_braceOpen hbrace
  · simp only [singles, List.map_cons, List.map_nil, List.mem_cons, List.not_mem_nil,
      or_false] at hsingle
    rcases hsingle with hkind | hkind | hkind | hkind | hkind | hkind
    all_goals
      rw [hkind] at hstarts
      simp only [starts, singles, List.mem_cons, Prod.mk.injEq, List.not_mem_nil, reduceCtorEq,
        and_false, and_true, or_false, false_or, decide_eq_true_eq] at hstarts
      subst hstarts
      cases hfound
      rfl

/-- Words are of the kind that their text says. -/
theorem wordKind_of_begun? {c : Char} {text : List Char} {m : Match}
    (hfound : begun? c text = some m)
    (hkind : m.kind ∈ [Kind.trueWord, .falseWord, .nullWord, .identifier]) :
    wordKind (c :: m.text) = m.kind := by
  have hstart : isWordStart c = true := by
    have hstarts := starts_of_begun? hfound
    simp only [List.mem_cons, List.not_mem_nil, or_false] at hkind
    rcases hkind with hkind | hkind | hkind | hkind <;> rwa [hkind] at hstarts
  rw [begun?_of_isWordStart hstart] at hfound
  cases hfound
  rfl

theorem begun?_of_mem_cut {text : List Char} {piece : Kind × List Char} (hmem : piece ∈ cut text)
    (hfound : piece.1 ≠ .garbage) :
    ∃ c text m, begun? c text = some m ∧ piece = (m.kind, c :: m.text) := by
  fun_induction cut text with
  | case1 => contradiction
  | case2 c text ih =>
      rcases List.mem_cons.mp hmem with hpiece | hrest
      · have hcut : cut (c :: text) = piece :: cut (next c text).rest := by rw [cut, hpiece]
        obtain ⟨m, hbegun, hsame, _⟩ := begun?_of_cut hcut hfound
        exact ⟨c, text, m, hbegun, hsame⟩
      · exact ih hrest

theorem mem_valueWords_of_wordKind {word : List Char} (hkind : wordKind word ≠ .identifier) :
    word ∈ valueWords.map Prod.fst := by
  unfold wordKind at hkind
  split at hkind
  next pair kind hfind =>
    have hsame := List.find?_some hfind
    have hpair := List.mem_of_find?_eq_some hfind
    simp only [decide_eq_true_eq] at hsame
    exact hsame ▸ List.mem_map_of_mem hpair
  · contradiction

theorem eq_of_mem_valueWords {word : List Char} (hmem : word ∈ valueWords.map Prod.fst) :
    word = ['t', 'r', 'u', 'e'] ∨ word = ['f', 'a', 'l', 's', 'e'] ∨
      word = ['n', 'u', 'l', 'l'] := by
  simpa [valueWords] using hmem

/-- A word that means a value is not the beginning of another one. -/
theorem wordKind_broken {word : List Char} (hword : part ++ rest = word) (hrest : rest ≠ [])
    (hkind : wordKind word ≠ .identifier) : wordKind part = .identifier := by
  by_contra hvalue
  have hwhole := eq_of_mem_valueWords (mem_valueWords_of_wordKind hkind)
  have hbegun := eq_of_mem_valueWords (mem_valueWords_of_wordKind hvalue)
  subst hword
  rcases hbegun with rfl | rfl | rfl <;> simp [hrest] at hwhole

theorem beginsValueWord_broken {word : List Char} (hword : word = part ++ rest)
    (hpart : part ≠ []) (hkind : wordKind word ≠ .identifier) : beginsValueWord part = true := by
  obtain ⟨pair, hpair, hsame⟩ := List.mem_map.mp (mem_valueWords_of_wordKind hkind)
  have hnonempty : part.isEmpty = false := by simpa using hpart
  have hbegins : part.isPrefixOf pair.1 = true := by
    rw [List.isPrefixOf_iff_prefix, hsame, hword]
    exact List.prefix_append part rest
  rw [beginsValueWord, hnonempty, Bool.not_false, Bool.true_and, List.any_eq_true]
  exact ⟨pair, hpair, hbegins⟩

end Lexer

namespace Shape

theorem Progress.next?_ne_start {c : Char} {state : Progress} : state.next? c ≠ some .start := by
  unfold Progress.next?
  cases state <;> dsimp only <;> split_ifs <;> simp

theorem Progress.run_ne_start {c : Char} {text : List Char} {state : Progress} :
    state.run (c :: text) ≠ some .start := by
  induction text generalizing c state with
  | nil =>
      intro hrun
      rw [Progress.run, Option.bind_eq_some_iff] at hrun
      obtain ⟨next, hnext, hsame⟩ := hrun
      rw [Progress.run, Option.some.injEq] at hsame
      exact Progress.next?_ne_start (hsame ▸ hnext)
  | cons d text ih =>
      intro hrun
      rw [Progress.run, Option.bind_eq_some_iff] at hrun
      obtain ⟨next, _, hmore⟩ := hrun
      exact ih hmore

/-- A beginning of a number can be completed. -/
theorem of_broken {part rest : List Char} (hwhole : Shape.of (part ++ rest) = .complete)
    (hpart : part ≠ []) : Shape.of part ≠ .invalid := by
  obtain ⟨c, part, rfl⟩ := List.exists_cons_of_ne_nil hpart
  unfold Shape.of at hwhole ⊢
  rw [Progress.run_append] at hwhole
  cases hrun : Progress.start.run (c :: part) with
  | none =>
      rw [hrun] at hwhole
      contradiction
  | some state =>
      have hstart : state ≠ .start := by
        rintro rfl
        exact Progress.run_ne_start hrun
      cases state <;> simp_all [Progress.shape]

end Shape

/-! ### Broken tokens of a body -/

theorem exists_begun?_of_mem_lex {source : String} {lexeme : Lexeme} (hmem : lexeme ∈ lex source)
    (hsound : lexeme.kind.isLexicalError = false) :
    ∃ c text m, Lexer.begun? c text = some m ∧ lexeme.text = c :: m.text ∧
      lexeme.kind = m.kind := by
  obtain ⟨kind, hpiece, hkind⟩ := Lexer.mem_place hmem
  rw [hkind] at hsound
  have hsame := Lexer.checked_eq_of_sound hsound
  have hgarbage : kind ≠ .garbage := by
    rintro rfl
    contradiction
  obtain ⟨c, text, m, hbegun, hpair⟩ := Lexer.begun?_of_mem_cut hpiece hgarbage
  obtain ⟨hkindPair, htext⟩ := Prod.mk.inj hpair
  exact ⟨c, text, m, hbegun, htext, by rw [hkind, hsame, hkindPair]⟩

open Lexer in
/-- A body that stops in a token has the tokens before it and one for the part of it. -/
theorem lex_broken {source : String} {before after : List Lexeme} {token : Lexeme}
    {part rest : List Char} (hlex : lex source = before ++ token :: after)
    (hsound : AllSound (lex source)) (htext : token.text = part ++ rest) (hpart : part ≠ [])
    (hrest : rest ≠ []) :
    lex (String.ofList (before.flatMap Lexeme.text ++ part)) =
      before ++ [.placed (checked (brokenKind token.kind part) part)
        (Utf8.size (before.flatMap Lexeme.text)) part] := by
  have hmem : token ∈ lex source := by simp [hlex]
  obtain ⟨c, text, m, hbegun, hwhole, hkind⟩ := exists_begun?_of_mem_lex hmem (hsound token hmem)
  obtain ⟨d, part, rfl⟩ := List.exists_cons_of_ne_nil hpart
  rw [hwhole] at htext
  obtain ⟨rfl, hmore⟩ := List.cons.inj htext
  have hcut := cut_broken hbegun (hkind ▸ hsound token hmem) hmore hrest
  have hgarbage : ∀ lexeme ∈ before, lexeme.kind ≠ .garbage := by
    intro lexeme hlexeme hgarbage
    have hnot := hsound lexeme (by simp [hlex, hlexeme])
    rw [hgarbage] at hnot
    contradiction
  have hlast : ∀ last ∈ before.getLast?, last.kind.isLexicalError = false ∧
      Replaces (endsBefore last.kind) (c :: part)
        ((token :: after).flatMap Lexeme.text) := by
    intro last hlast
    refine ⟨hsound last (by simp [hlex, List.mem_of_getLast? hlast]), ?_⟩
    exact Or.inr (Or.inl (by simp [hwhole]))
  rw [lex_append hlex hgarbage hlast, hcut, hkind]
  rfl

end QueryBody
