import QueryBody.Proofs.AppendedTokens
import QueryBody.Proofs.MissingSeparators
import QueryBody.Proofs.SameTokens
import Mathlib.Tactic

/-!
# Stray words

A word after a part of a container begins no part, so it is reported as a missing comma and
skipped.  After the skip the reader waits for a part, though it has just read one: a closing
bracket ends the container all the same, but a comma is reported as well.
-/

namespace QueryBody

/-- The tokens end with a part of the container, which is still open. -/
def Container.EndsPart (container : Container) (lexemes : List Lexeme) : Prop :=
  ∃ before inside, lexemes = before ++ inside ∧ container.Holds inside ∧
    container.isEmpty = false

/-- A body with a word between two of its tokens, set off by spaces. -/
def strayed (front : List Lexeme) (word : String) (back : List Lexeme) : String :=
  String.ofList
    (front.flatMap Lexeme.text ++ ' ' :: (word.toList ++ ' ' :: back.flatMap Lexeme.text))

/-- What is reported about a stray word before this token. -/
def strayReports (container : Container) (stray follower : Lexeme) : List Diagnostic :=
  if follower.kind = .comma then
    [Report.instead .missingComma stray, Report.noPart container follower]
  else [Report.instead .missingComma stray]

/-! ### The tokens -/

theorem Kind.ne_of_sound {kind broken : Kind} (hsound : kind.isLexicalError = false)
    (hbroken : broken.isLexicalError = true) : kind ≠ broken := by
  rintro rfl
  rw [hsound] at hbroken
  contradiction

namespace Lexer

variable {offset : Nat} {later : List Char} {lexemes : List Lexeme}

theorem sound_of_mem_cut {source : String} (hsound : AllSound (lex source))
    {piece : Kind × List Char} (hmem : piece ∈ cut source.toList) :
    piece.1.isLexicalError = false := by
  obtain ⟨lexeme, hlexeme, hchecked⟩ := exists_mem_place hmem 0
  have hpiece := hsound lexeme hlexeme
  rw [hchecked] at hpiece
  rw [← hpiece, checked_eq_of_sound hpiece]

theorem isTrivia_checked (kind : Kind) (text : List Char) :
    (checked kind text).isTrivia = kind.isTrivia := by
  unfold checked
  split
  · split <;> rfl
  · split <;> rfl
  · rfl

theorem Shows.append {text : List Char} {front back : List (Kind × List Char)}
    (hcut : cut text = front ++ back)
    (hsound : ∀ piece ∈ front, piece.1.isLexicalError = false)
    (hends : ∀ piece ∈ front.getLast?,
      Replaces (endsBefore piece.1) later (back.flatMap Prod.snd))
    (hshows : Shows (offset + Utf8.size (front.flatMap Prod.snd)) later lexemes) :
    Shows offset (front.flatMap Prod.snd ++ later)
      (significant (place offset front) ++ lexemes) := by
  have hagain := cut_append hcut (fun piece hmem => Kind.ne_of_sound (hsound piece hmem) rfl) hends
  constructor
  · rw [hagain, place_append, significant_append, hshows.tokens]
  · rw [hagain, List.forall_mem_append]
    exact ⟨fun piece hmem => Kind.ne_of_sound (hsound piece hmem) rfl, hshows.closed⟩

theorem Shows.name {name : List Char} (hname : IsName name)
    (hshows : Shows (offset + 1 + Utf8.size name) (' ' :: later) lexemes) :
    Shows offset (' ' :: (name ++ ' ' :: later))
      (.placed .identifier (offset + 1) name :: lexemes) := by
  obtain ⟨c, body, rfl, hbegun⟩ := begun?_of_isName hname
  have hclosed : Kind.identifier ≠ .unterminatedComment := by decide
  exact (hshows.token hbegun hclosed (.of_ends rfl _ _)).blank rfl

end Lexer

variable {source word : String} {front back : List Lexeme} {stray : Lexeme}
  {container : Container}

theorem isName_of_lex (hword : lex word = [stray]) (hkind : stray.kind = .identifier) :
    Lexer.IsName word.toList := by
  have htext : stray.text = word.toList := by
    rw [← flatMap_lex word, hword, List.flatMap_singleton]
  have hlegible := isLegible_of_mem_lex (hword ▸ List.mem_singleton_self stray)
  exact htext ▸ hlegible.name hkind

open Lexer in
/-- A word behind a token of the grammar is a token of its own, and the others stay what they
are. -/
theorem exists_lex_strayed (hsound : AllSound (lex source)) (hlex : lex source = front ++ back)
    (hlast : ∀ last ∈ front.getLast?, last.kind.isTrivia = false) (hword : lex word = [stray])
    (hkind : stray.kind = .identifier) :
    ∃ tokens, (significant back).map Lexeme.piece = tokens.map Lexeme.piece ∧
      significant (lex (strayed front word back)) = significant front ++
        .placed .identifier (Utf8.size (front.flatMap Lexeme.text) + 1) word.toList :: tokens ∧
      ∀ lexeme ∈ lex (strayed front word back), lexeme.kind ≠ .unterminatedComment := by
  obtain ⟨first, second, hcut, hfirst, hsecond⟩ := eq_append_of_place hlex
  have hpieces : ∀ piece ∈ first ++ second, piece.1.isLexicalError = false :=
    fun piece hmem => sound_of_mem_cut hsound (hcut ▸ hmem)
  obtain ⟨hfound, hfoundBack⟩ := List.forall_mem_append.mp hpieces
  have hends (later : List Char) : ∀ piece ∈ first.getLast?,
      Replaces (endsBefore piece.1) (' ' :: later) (second.flatMap Prod.snd) := by
    intro piece hmem
    obtain ⟨last, hlastMem, hchecked⟩ := getLast?_place hmem 0
    have hshown : piece.1.isTrivia = false := by
      rw [← isTrivia_checked piece.1 piece.2, ← hchecked]
      exact hlast last (hfirst ▸ hlastMem)
    have hsound := hfound piece (List.mem_of_getLast? hmem)
    refine .of_ends (endsBefore_of_beginsGap hsound ?_ ?_ rfl) _ _ <;>
      intro htrivia <;> rw [htrivia] at hshown <;> contradiction
  let offset := Utf8.size (first.flatMap Prod.snd) + 1 + Utf8.size word.toList + 1
  have hback : Shows offset (second.flatMap Prod.snd) (significant (place offset second)) := by
    have hagain := cut_flatMap hcut
    refine ⟨by rw [hagain], ?_⟩
    rw [hagain]
    exact fun piece hmem => Kind.ne_of_sound (hfoundBack piece hmem) rfl
  have hrest := Shows.name (isName_of_lex hword hkind) (hback.blank rfl)
  have hwhole : Shows 0 (strayed front word back).toList (significant front ++
      .placed .identifier (Utf8.size (front.flatMap Lexeme.text) + 1) word.toList ::
        significant (place offset second)) := by
    rw [strayed, String.toList_ofList, ← hfirst, ← hsecond, flatMap_place, flatMap_place]
    exact Shows.append hcut hfound (hends _) (by rwa [Nat.zero_add])
  refine ⟨significant (place offset second), ?_, hwhole.whole⟩
  rw [← hsecond]
  exact map_piece_significant_place _ _ _

/-! ### Reading a stray word -/

namespace Reader

variable {setting : Setting} {container : Container} {lexeme stray follower : Lexeme}
  {holes : List Hole} {reports : List Diagnostic}

theorem run_holds (hstrict : setting.allowsFragments = false)
    (hunlimited : setting.nestingLimit = none) {inside : List Lexeme}
    (hholds : container.Holds inside) (holes : List Hole) (reports : List Diagnostic) :
    run setting ⟨.value, holes, reports⟩ inside = afterParts container holes reports := by
  have hcut (lexeme : Lexeme) : setting.isCutIn lexeme = false :=
    Setting.isCutIn_of_strict hstrict lexeme
  have hallows (depth : Nat) : Allows setting.nestingLimit depth := by
    intro most hmost
    rw [hunlimited] at hmost
    contradiction
  cases hholds with
  | array hopening hrow hparts =>
      rename_i opening parts inner
      have hshown : opening.kind.isTrivia = false := by rw [hopening]; rfl
      rw [run_cons, step_of_not_isTrivia hshown,
        take_value_opener (hcut opening) (Or.inr hopening) (hallows _),
        ofOpener_of_bracket hopening]
      exact run_items hrow hparts
        (fun part hpart => (hparts part hpart).delivers fun lexeme _ => hcut lexeme)
        (fun _ _ => hallows _) opening.toToken reports
  | object hopening hrow hnames hparts =>
      rename_i opening parts inner
      have hshown : opening.kind.isTrivia = false := by rw [hopening]; rfl
      rw [run_cons, step_of_not_isTrivia hshown,
        take_value_opener (hcut opening) (Or.inl hopening) (hallows _),
        ofOpener_of_brace hopening]
      exact run_properties hrow hnames (fun lexeme _ => hcut lexeme)
        (fun part hpart => (hparts part hpart).delivers fun lexeme _ => hcut lexeme)
        (fun _ _ => hallows _) opening.toToken reports

theorem exists_take_opener (setting : Setting) {reader : Reader}
    (hexpects : reader.focus.Expects lexeme.kind) (hopener : lexeme.Opens) :
    ∃ holes, reader.take setting lexeme =
      take setting ⟨.value, holes, reader.reports⟩ lexeme := by
  have hname : lexeme.kind ≠ .string := by
    rcases hopener with hkind | hkind <;> rw [hkind] <;> decide
  obtain ⟨holes, htake, _⟩ := exists_take_value setting hexpects hopener.valueFirst hname
  exact ⟨holes, htake⟩

end Reader

theorem Container.Holds.begins {container : Container} {inside : List Lexeme}
    (hholds : container.Holds inside) :
    ∃ opening inner, inside = opening :: inner ∧ opening.Opens := by
  cases hholds with
  | array hopening hrow hparts => exact ⟨_, _, rfl, Or.inr hopening⟩
  | object hopening hrow hnames hparts => exact ⟨_, _, rfl, Or.inl hopening⟩

namespace Reader

variable {setting : Setting} {container : Container} {stray follower : Lexeme}
  {holes : List Hole} {reports : List Diagnostic}

theorem exists_run_endsPart (hstrict : setting.allowsFragments = false)
    (hunlimited : setting.nestingLimit = none) {tokens : List Lexeme}
    (hends : container.EndsPart tokens)
    (hsilent : (start.run setting tokens).reports = []) :
    ∃ holes, start.run setting tokens = ⟨.separator container, holes, []⟩ := by
  obtain ⟨before, inside, rfl, hholds, hne⟩ := hends
  obtain ⟨opening, inner, rfl, hopener⟩ := hholds.begins
  have hshown := hopener.isTrivia
  have hmarker := Setting.isCutInMarker_of_strict hstrict
  rw [run_append] at hsilent ⊢
  have hbefore := reports_eq_nil_of_suffix (suffix_run setting _ _) hsilent
  have hfollows := follows_run start_follows (fun lexeme _ => hmarker lexeme) hbefore
  generalize start.run setting before = reader at hsilent hbefore hfollows ⊢
  rw [run_cons, step_of_not_isTrivia hshown] at hsilent ⊢
  have hopened := reports_eq_nil_of_suffix (suffix_run setting _ _) hsilent
  obtain ⟨holes, htake⟩ := exists_take_opener setting
    (expects_of_silent hfollows (hmarker opening) hopened) hopener
  have hinside := run_holds hstrict hunlimited hholds holes []
  rw [run_cons, step_of_not_isTrivia hshown, afterParts_of_not_isEmpty hne] at hinside
  exact ⟨holes, by rw [htake, hbefore, hinside]⟩

theorem take_separator_word (hkind : stray.kind = .identifier) (container : Container)
    (holes : List Hole) :
    take setting ⟨.separator container, holes, []⟩ stray =
      ⟨.skip 0 container .part, holes, [Report.instead .missingComma stray]⟩ := by
  have hrecovery : KindSet.valueRecovery.contains .identifier = false := rfl
  have hbegins : beginsPart container .identifier = false := by cases container <;> rfl
  simp [take, separator, skip, pass, Report.add, hkind, hrecovery, hbegins]

/-- What follows a part is taken after a skip as before, but a comma is reported. -/
theorem take_skip_follower (hkind : follower.kind = .comma ∨ follower.kind = container.closer)
    (hlater : ∀ report ∈ reports, report.offset < follower.span.start) :
    take setting ⟨.skip 0 container .part, holes, reports⟩ follower =
      (take setting ⟨.separator container, holes, []⟩ follower).withReports
        (if follower.kind = .comma then Report.noPart container follower :: reports
          else reports) := by
  have hcloser := closer_mem_valueRecovery container
  rcases hkind with hkind | hkind
  · have hadd : Report.add (Report.noPart container follower) reports =
        Report.noPart container follower :: reports :=
      Report.add_of_forall_lt fun report hreport => by
        rw [(Report.noPart_isAbout container follower).offset_eq]
        exact hlater report hreport
    have hrecovery : KindSet.valueRecovery.contains .comma = true := rfl
    rw [take_separator_comma hkind, if_pos hkind]
    simp [take, skip, emptyPart, hkind, hrecovery, hadd, withReports]
  · have hcomma : follower.kind ≠ .comma := hkind ▸ hcloser.2
    rw [take_separator_closer hkind, if_neg hcomma, withReports_deliver]
    simp [take, skip, emptyPart, close, hkind, hcloser, reportComma]

/-- Where the tokens with a part at the end are followed by more, a stray word between them is
skipped. -/
theorem run_strayed (hstrict : setting.allowsFragments = false)
    (hunlimited : setting.nestingLimit = none) {front : List Lexeme} {after : List Lexeme}
    (hshown : ∀ token ∈ front ++ follower :: after, token.kind.isTrivia = false)
    (hends : container.EndsPart front) (hkind : stray.kind = .identifier)
    (hbefore : stray.span.start < follower.span.start)
    (hsilent : (start.run setting (front ++ follower :: after)).reports = []) :
    (follower.kind = .comma ∨ follower.kind = container.closer) ∧
      start.run setting (front ++ stray :: follower :: after) =
        (start.run setting (front ++ follower :: after)).withReports
          (strayReports container stray follower).reverse := by
  have hstray : stray.kind.isTrivia = false := by rw [hkind]; rfl
  obtain ⟨hshownFront, hshownRest⟩ := List.forall_mem_append.mp hshown
  obtain ⟨hshownFollower, hshownAfter⟩ := List.forall_mem_cons.mp hshownRest
  have hwhole : start.run setting (front ++ follower :: after) =
      ((start.run setting front).take setting follower).run setting after := by
    rw [run_append, run_cons, step_of_not_isTrivia hshownFollower]
  rw [hwhole] at hsilent ⊢
  have htaken := reports_eq_nil_of_suffix (suffix_run setting _ after) hsilent
  have hfront := reports_eq_nil_of_suffix (suffix_take setting _ follower) htaken
  have hfollows := follows_run start_follows
    (fun lexeme _ => Setting.isCutInMarker_of_strict hstrict lexeme) hfront
  obtain ⟨holes, hrun⟩ := exists_run_endsPart hstrict hunlimited hends hfront
  rw [hrun] at hsilent htaken hfollows ⊢
  have hfollower : follower.kind = .comma ∨ follower.kind = container.closer :=
    expects_of_silent hfollows (Setting.isCutInMarker_of_strict hstrict follower) htaken
  have hlater : ∀ report ∈ [Report.instead .missingComma stray],
      report.offset < follower.span.start := by
    rw [List.forall_mem_singleton, (Report.instead_isAbout .missingComma stray).offset_eq]
    exact hbefore
  refine ⟨hfollower, ?_⟩
  rw [run_append, hrun, run_cons, step_of_not_isTrivia hstray, take_separator_word hkind, run_cons,
    step_of_not_isTrivia hshownFollower, take_skip_follower hfollower hlater,
    run_withReports hstrict hshownAfter hsilent]
  unfold strayReports
  split <;> rfl

end Reader

/-! ### Bodies with a stray word -/

/-- A stray word behind a part of a container of an accepted body leaves the data as it is, and
is reported as a missing comma.  If a comma follows it, then that is reported as well. -/
theorem parse_strayed (hsilent : ((Options.groupWithin none).parse source).IsSilent)
    (hlex : lex source = front ++ back)
    (hlast : ∀ last ∈ front.getLast?, last.kind.isTrivia = false)
    (hends : container.EndsPart (significant front)) (hword : lex word = [stray])
    (hkind : stray.kind = .identifier) :
    let mended := (Options.groupWithin none).parse (strayed front word back)
    let here := Lexeme.placed .identifier (Utf8.size (front.flatMap Lexeme.text) + 1) word.toList
    ∃ follower after,
      significant (lex (strayed front word back)) =
        significant front ++ here :: follower :: after ∧
      (significant back).map Lexeme.piece = (follower :: after).map Lexeme.piece ∧
      (follower.kind = .comma ∨ follower.kind = container.closer) ∧
      (∃ datum, mended.datum? = some datum ∧
        ((Options.groupWithin none).parse source).datum? = some datum) ∧
      mended.diagnostics.toList = strayReports container here follower := by
  intro mended here
  let longer := strayed front word back
  obtain ⟨value, hsentence⟩ := isSentence_of_isSilent hsilent
  obtain ⟨tokens, hpieces, htokens, hclosed⟩ :=
    exists_lex_strayed (allSound_of_isSentence hsentence) hlex hlast hword hkind
  change significant (lex longer) = significant front ++ here :: tokens at htokens
  -- without the word, the longer body has the tokens of the body
  have hsublist : (significant front ++ tokens).Sublist (lex longer) := by
    have hwith : (significant front ++ here :: tokens).Sublist (lex longer) :=
      htokens ▸ List.filter_sublist
    exact ((List.sublist_cons_self here tokens).append_left _).trans hwith
  have hsame : (significant (lex source)).map Lexeme.piece =
      (significant front ++ tokens).map Lexeme.piece := by
    rw [hlex, significant_append, List.map_append, List.map_append, hpieces]
  have hgrammar : ∀ lexeme ∈ significant (lex source), lexeme.kind.isTrivia = false :=
    fun lexeme hmem => isTrivia_of_mem_significant hmem
  have hsource := run_significant_of_isSentence hsentence longer
  obtain ⟨other, hdatum, hrun⟩ :=
    exists_run_of_pieces rfl List.filter_sublist hsublist hgrammar hsame hsource
  cases tokens with
  | nil =>
      rw [List.append_nil] at hrun
      obtain ⟨holes, hpart⟩ := Reader.exists_run_endsPart rfl rfl hends (by rw [hrun])
      rw [hrun] at hpart
      cases hpart
  | cons follower after =>
      have hbefore : here.span.start < follower.span.start := by
        have hordered := (tiles_lex longer).pairwise.filter fun lexeme => !lexeme.kind.isTrivia
        change (significant (lex longer)).Pairwise _ at hordered
        rw [htokens, List.pairwise_append] at hordered
        exact (List.pairwise_cons.mp hordered.2.1).1 follower List.mem_cons_self
      obtain ⟨hfollower, hstray⟩ := Reader.run_strayed rfl rfl
        (Lexeme.forall_kind_of_pieces hsame hgrammar) hends (rfl : here.kind = .identifier) hbefore
        (by rw [hrun])
      have hmended : mended = ⟨some other, ⟨strayReports container here follower⟩, false⟩ := by
        change Options.parse _ longer = _
        rw [Options.parse, Reader.run_significant (Or.inr hclosed), htokens, hstray, hrun,
          Reader.withReports, Reader.finish, Body.ofOutcome, List.reverse_reverse]
      have hdata : ((Options.groupWithin none).parse source).datum? = some value.datum := by
        rw [parse_of_isSentence hsentence]
        rfl
      rw [hmended, hdata]
      exact ⟨follower, after, htokens, hpieces, hfollower,
        ⟨value.datum, congrArg some hdatum, rfl⟩, rfl⟩

theorem parse_strayed_before_brace :
    ∃ datum,
      ((Options.groupWithin none).parse "[\x7b\"a\":1 x \x7d]").datum? = some datum ∧
      ((Options.groupWithin none).parse "[\x7b\"a\":1\x7d]").datum? = some datum ∧
      ((Options.groupWithin none).parse "[\x7b\"a\":1 x \x7d]").diagnostics.toList =
        [Report.instead .missingComma (.placed .identifier 8 ['x'])] := by
  let bracket : Lexeme := .placed .bracketOpen 0 ['[']
  let brace : Lexeme := .placed .braceOpen 1 ['\x7b']
  let name : Lexeme := .placed .string 2 ['"', 'a', '"']
  let colon : Lexeme := .placed .colon 5 [':']
  let number : Lexeme := .placed .number 6 ['1']
  let front := [bracket, brace, name, colon, number]
  let back := [Lexeme.placed .braceClose 7 ['\x7d'], .placed .bracketClose 8 [']']]
  have hsilent : ((Options.groupWithin none).parse "[\x7b\"a\":1\x7d]").IsSilent := by
    unfold Body.IsSilent
    decide +kernel
  have hlex : lex "[\x7b\"a\":1\x7d]" = front ++ back := by decide +kernel
  obtain ⟨content, hcontent⟩ : ∃ content, number.scalar? = some content :=
    Option.isSome_iff_exists.mp (by decide +kernel)
  let property : Property := ⟨name, colon, ⟨.scalar number.toToken content, [number]⟩⟩
  have hends : (Container.object brace.toToken [property.member]).EndsPart (significant front) := by
    refine ⟨[bracket], brace :: property.lexemes, rfl, ?_, rfl⟩
    exact .object rfl (.first property) (List.forall_mem_singleton.mpr ⟨rfl, rfl⟩)
      (List.forall_mem_singleton.mpr (.scalar hcontent))
  have hword : lex "x" = [.placed .identifier 0 ['x']] := by decide +kernel
  obtain ⟨follower, after, _, hpieces, _, ⟨datum, hmended, hdata⟩, hdiagnostics⟩ :=
    parse_strayed hsilent hlex (by simp [front, number, Lexeme.placed, Kind.isTrivia]) hends hword
      rfl
  have hkind : follower.kind = .braceClose := by
    have hhead := congrArg List.head? hpieces
    simp [back, significant, Lexeme.placed, Kind.isTrivia, Lexeme.piece] at hhead
    exact hhead.1.symm
  have hcomma : follower.kind ≠ .comma := by rw [hkind]; decide
  rw [strayReports, if_neg hcomma] at hdiagnostics
  exact ⟨datum, hmended, hdata, hdiagnostics⟩

/-- Before a comma, a stray word is not all that is reported. -/
theorem parse_strayed_ne_of_comma :
    ¬∀ (source word : String) (front back : List Lexeme) (container : Container) (stray : Lexeme),
      ((Options.groupWithin none).parse source).IsSilent → lex source = front ++ back →
        (∀ last ∈ front.getLast?, last.kind.isTrivia = false) →
        container.EndsPart (significant front) → lex word = [stray] →
        stray.kind = .identifier →
        let mended := (Options.groupWithin none).parse (strayed front word back)
        let offset := Utf8.size (front.flatMap Lexeme.text) + 1
        (∃ datum, mended.datum? = some datum ∧
          ((Options.groupWithin none).parse source).datum? = some datum) ∧
        mended.diagnostics.toList =
          [Report.instead .missingComma (.placed .identifier offset word.toList)] := by
  intro hall
  let bracket : Lexeme := .placed .bracketOpen 0 ['[']
  let number : Lexeme := .placed .number 1 ['1']
  let back := [Lexeme.placed .comma 2 [','], .placed .whitespace 3 [' '], .placed .number 4 ['2'],
    .placed .bracketClose 5 [']']]
  have hsilent : ((Options.groupWithin none).parse "[1, 2]").IsSilent := by
    unfold Body.IsSilent
    decide +kernel
  have hlex : lex "[1, 2]" = [bracket, number] ++ back := by decide +kernel
  obtain ⟨content, hcontent⟩ : ∃ content, number.scalar? = some content :=
    Option.isSome_iff_exists.mp (by decide +kernel)
  let item : Writing := ⟨.scalar number.toToken content, [number]⟩
  have hends : (Container.array bracket.toToken [item.value]).EndsPart
      (significant [bracket, number]) := by
    refine ⟨[], [bracket, number], rfl, ?_, rfl⟩
    exact .array rfl (.first item) (List.forall_mem_singleton.mpr (.scalar hcontent))
  have hword : lex "x" = [.placed .identifier 0 ['x']] := by decide +kernel
  have hone := congrArg List.length (hall "[1, 2]" "x" [bracket, number] back _ _ hsilent hlex
    (by simp [number, Lexeme.placed, Kind.isTrivia]) hends hword rfl).2
  have htwo : ((Options.groupWithin none).parse "[1 x , 2]").diagnostics.toList.length = 2 := by
    decide +kernel
  have hbody : strayed [bracket, number] "x" back = "[1 x , 2]" := by decide +kernel
  rw [hbody, htwo, List.length_singleton] at hone
  contradiction

end QueryBody
