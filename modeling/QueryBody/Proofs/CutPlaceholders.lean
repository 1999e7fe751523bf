import QueryBody.Proofs.RoundTrip
import QueryBody.Proofs.StrayWords
import QueryBody.Proofs.Streaming
import Mathlib.Tactic

/-!
# Placeholders that are cut off

A placeholder that stops before its end is left out, so the body is what it was before
it.  There is one exception: a name that begins with a word for a value is reported
where it stops after that word.
-/

namespace QueryBody

open Lexer

/-! ### The tokens of a placeholder -/

theorem Lexer.cut_parameter {name : List Char} (hname : IsName name) :
    cut (parameterOpening ++ name ++ parameterClosing) =
      [(.parameterOpen, parameterOpening), (.identifier, name),
        (.parameterClose, parameterClosing)] := by
  obtain ⟨c, body, rfl, hwhole⟩ := begun?_of_isName hname
  have hclosing : cut parameterClosing = [(.parameterClose, parameterClosing)] :=
    cut_of_whole parameterClosing_whole
  have hnamed : cut (c :: body ++ parameterClosing) =
      [(.identifier, c :: body), (.parameterClose, parameterClosing)] := by
    have hends : Replaces (endsBefore .identifier) parameterClosing [] :=
      .of_ends (c := '{') rfl _ _
    rw [cut_token hwhole hends, hclosing]
  rw [List.append_assoc, ← hnamed]
  exact cut_token parameterOpening_whole (.of_always (fun _ => rfl) _)

/-- The tokens are those of a placeholder. -/
structure WritesParameter (name : List Char) (opening word closing : Lexeme) : Prop where
  opening_kind : opening.kind = .parameterOpen
  opening_text : opening.text = parameterOpening
  word_kind : word.kind = .identifier
  word_text : word.text = name
  closing_kind : closing.kind = .parameterClose
  closing_text : closing.text = parameterClosing

namespace WritesParameter

variable {name : List Char} {opening word closing : Lexeme}

theorem allSound (hwrites : WritesParameter name opening word closing) :
    AllSound [opening, word, closing] :=
  (AllSound.single hwrites.opening_kind rfl).append
    ((AllSound.single hwrites.word_kind rfl).append (.single hwrites.closing_kind rfl))

theorem flatMap_text (hwrites : WritesParameter name opening word closing) :
    [opening, word, closing].flatMap Lexeme.text =
      parameterOpening ++ name ++ parameterClosing := by
  simp [hwrites.opening_text, hwrites.word_text, hwrites.closing_text]

end WritesParameter

theorem split_of_three {first second third : Lexeme} {init later : List Lexeme}
    (htokens : [first, second, third] = init ++ later) (hlater : later ≠ []) :
    init = [] ∧ later = [first, second, third] ∨ init = [first] ∧ later = [second, third] ∨
      init = [first, second] ∧ later = [third] := by
  match init, htokens with
  | [], htokens => exact Or.inl ⟨rfl, htokens.symm⟩
  | [a], htokens =>
      obtain ⟨rfl, hrest⟩ := List.cons.inj htokens
      exact Or.inr (Or.inl ⟨rfl, hrest.symm⟩)
  | [a, b], htokens =>
      obtain ⟨rfl, hrest⟩ := List.cons.inj htokens
      obtain ⟨rfl, hlast⟩ := List.cons.inj hrest
      exact Or.inr (Or.inr ⟨rfl, hlast.symm⟩)
  | a :: b :: c :: more, htokens =>
      have hnil : later = [] := by
        have hrest := (List.cons.inj (List.cons.inj (List.cons.inj htokens).2).2).2
        exact (List.append_eq_nil_iff.mp hrest.symm).2
      exact absurd hnil hlater

theorem exists_lex_parameter {source : String} {name : List Char} (hname : IsName name)
    (hsound : AllSound (lex source))
    (hends : ∀ last ∈ (lex source).getLast?, endsBefore last.kind '{' = true) :
    ∃ opening word closing, WritesParameter name opening word closing ∧
      lex (String.ofList (source.toList ++ (parameterOpening ++ name ++ parameterClosing))) =
        lex source ++ [opening, word, closing] := by
  have hlast : ∀ last ∈ (lex source).getLast?, last.kind.isLexicalError = false ∧
      Replaces (endsBefore last.kind) (parameterOpening ++ name ++ parameterClosing)
        (([] : List Lexeme).flatMap Lexeme.text) :=
    fun last hmem => ⟨hsound last (List.mem_of_getLast? hmem), .of_ends (hends last hmem) _ _⟩
  have hgarbage : ∀ lexeme ∈ lex source, lexeme.kind ≠ .garbage :=
    fun lexeme hmem => Kind.ne_of_sound (hsound lexeme hmem) rfl
  have hlex := lex_append (List.append_nil (lex source)).symm hgarbage hlast
  rw [flatMap_lex, cut_parameter hname] at hlex
  exact ⟨_, _, _, ⟨rfl, rfl, rfl, rfl, rfl, rfl⟩, hlex⟩

/-! ### The placeholder after a colon or an opening bracket -/

namespace Reader

variable {strict : Setting} {reader : Reader} {opening word closing : Lexeme} {name : List Char}

/-- The reader waits for a value inside a container, and has no reports. -/
structure WaitsInside (reader : Reader) : Prop where
  expects : reader.focus.Expects .parameterOpen
  root : reader.cutRoot.isSome = true
  silent : reader.reports = []

/-- The markers and the name of a placeholder are taken without a report.  Before the last of them
the root, if the body is cut off, is what it was before the first one. -/
theorem WaitsInside.run_parameter (hwaits : reader.WaitsInside)
    (hstrict : strict.allowsFragments = false)
    (hwrites : WritesParameter name opening word closing) :
    (reader.run strict [opening]).cutRoot = reader.cutRoot ∧
      (reader.run strict [opening, word]).cutRoot = reader.cutRoot ∧
      (reader.run strict [opening, word, closing]).reports = [] := by
  have hcut (lexeme : Lexeme) : strict.isCutIn lexeme = false :=
    Setting.isCutIn_of_strict hstrict lexeme
  have hexpects : reader.focus.Expects opening.kind := hwrites.opening_kind ▸ hwaits.expects
  have hfirst : KindSet.valueFirst.contains opening.kind = true := by
    rw [hwrites.opening_kind]
    rfl
  have hname : opening.kind ≠ .string := by
    rw [hwrites.opening_kind]
    decide
  obtain ⟨holes, htake, hroot⟩ := exists_take_value strict hexpects hfirst hname
  have hopening : reader.run strict [opening] = ⟨.parameterName opening.toToken, holes, []⟩ := by
    rw [run_cons, run_nil, step_of_not_isTrivia (Kind.not_isTrivia_of_valueFirst hfirst), htake,
      take_value_parameterOpen (hcut opening) hwrites.opening_kind, hwaits.silent]
  have hword : reader.run strict [opening, word] =
      ⟨.parameterClose opening.toToken word.word, holes, []⟩ := by
    have hshown : word.kind.isTrivia = false := by rw [hwrites.word_kind]; rfl
    rw [← List.singleton_append, run_append, hopening, run_cons, run_nil,
      step_of_not_isTrivia hshown, take_parameterName (hcut word) hwrites.word_kind]
  have hclosing : reader.run strict [opening, word, closing] =
      deliver (some (.scalar opening.toToken (.parameter word.word))) holes [] := by
    have hshown : closing.kind.isTrivia = false := by rw [hwrites.closing_kind]; rfl
    change (reader.run strict [opening, word]).run strict [closing] = _
    rw [hword, run_cons, run_nil, step_of_not_isTrivia hshown,
      take_parameterClose (hcut closing) hwrites.closing_kind]
  refine ⟨?_, ?_, ?_⟩
  · rw [hopening, ← hroot]
    rfl
  · rw [hword, ← hroot]
    rfl
  · rw [hclosing, deliver_reports]

theorem colon_of_expects {focus : Focus} (hexpects : focus.Expects .colon) :
    ∃ opener members key, focus = .colon opener members key := by
  cases focus with
  | colon opener members key => exact ⟨opener, members, key, rfl⟩
  | part container comma => cases container <;> simp [Focus.Expects, beginsPart, Container.closer,
      KindSet.contains, KindSet.valueFirst] at hexpects
  | separator container => cases container <;> simp [Focus.Expects, Container.closer] at hexpects
  | _ => simp [Focus.Expects, KindSet.contains, KindSet.valueFirst] at hexpects

theorem waitsInside_take {last : Lexeme} (hstrict : strict.allowsFragments = false)
    (hunlimited : strict.nestingLimit = none) (hexpects : reader.focus.Expects last.kind)
    (hsilent : reader.reports = []) (hlast : last.kind = .colon ∨ last.kind = .bracketOpen) :
    (reader.take strict last).WaitsInside := by
  have hcut : strict.isCutIn last = false := Setting.isCutIn_of_strict hstrict last
  rcases hlast with hcolon | hbracket
  · rw [hcolon] at hexpects
    obtain ⟨opener, members, key, hfocus⟩ := colon_of_expects hexpects
    obtain ⟨focus, holes, reports⟩ := reader
    obtain rfl : focus = .colon opener members key := hfocus
    obtain rfl : reports = [] := hsilent
    rw [take_colon hcut hcolon]
    exact ⟨rfl, rfl, rfl⟩
  · have hallows (depth : Nat) : Allows strict.nestingLimit depth := by
      simp [Allows, hunlimited]
    have hname : last.kind ≠ .string := by
      rw [hbracket]
      decide
    obtain ⟨holes, htake, _⟩ :=
      exists_take_value strict hexpects (by rw [hbracket]; rfl) hname
    rw [htake, hsilent, take_value_opener hcut (Or.inr hbracket) (hallows _),
      ofOpener_of_bracket hbracket]
    exact ⟨Or.inl rfl, rfl, rfl⟩

end Reader

/-! ### Parts of a placeholder -/

theorem Lexer.wordKind_ne_identifier_iff {word : List Char} :
    wordKind word ≠ .identifier ↔ word ∈ valueWords.map Prod.fst := by
  refine ⟨mem_valueWords_of_wordKind, fun hmem => ?_⟩
  rcases eq_of_mem_valueWords hmem with rfl | rfl | rfl <;> decide

namespace WritesParameter

variable {name part rest : List Char} {opening word closing token : Lexeme}
  {before init later : List Lexeme}

/-- Only a name can be misread, and only where it stops after a word for a value. -/
theorem misread_iff (hwrites : WritesParameter name opening word closing)
    (htokens : [opening, word, closing] = init ++ token :: later)
    (htext : token.text = part ++ rest) (hpart : part ≠ []) (hrest : rest ≠ []) :
    Misread none before token part ↔
      ∃ value ∈ valueWords.map Prod.fst,
        init.flatMap Lexeme.text ++ part = parameterOpening ++ value := by
  have hallows (depth : Nat) : Allows none depth := by simp [Allows]
  rw [Reader.misread_iff]
  rcases split_of_three htokens (List.cons_ne_nil token later) with
    ⟨rfl, hlater⟩ | ⟨rfl, hlater⟩ | ⟨rfl, hlater⟩ <;> obtain ⟨rfl, _⟩ := List.cons.inj hlater
  · simp only [hwrites.opening_kind, hallows]
    refine iff_of_false (by simp) ?_
    rintro ⟨value, _, hsame⟩
    rw [hwrites.opening_text] at htext
    have hlength := congrArg List.length htext
    have hsameLength := congrArg List.length hsame
    have hpos := List.length_pos_of_ne_nil hrest
    simp only [List.flatMap_nil, List.nil_append, List.length_append] at hlength hsameLength
    omega
  · simp [hwrites.word_kind, wordKind_ne_identifier_iff, hwrites.opening_text]
  · simp only [hwrites.closing_kind]
    refine iff_of_false (by simp) ?_
    rintro ⟨value, hvalue, hsame⟩
    -- the closing marker begins with a brace, and no word for a value has one
    have hbrace : '{' ∈ value := by
      obtain ⟨c, more, rfl⟩ := List.exists_cons_of_ne_nil hpart
      have hfirst : c = '{' := by
        have htexts := hwrites.closing_text.symm.trans htext
        exact (List.cons.inj htexts).1.symm
      have hvalueText : name ++ c :: more = value := by
        simpa [hwrites.opening_text, hwrites.word_text] using hsame
      rw [← hvalueText, hfirst]
      simp
    rcases eq_of_mem_valueWords hvalue with rfl | rfl | rfl <;> simp at hbrace

theorem ne_of_whole (hwrites : WritesParameter name opening word closing)
    (hname : IsName name) (htokens : [opening, word, closing] = init ++ later)
    (hlater : later ≠ []) {value : List Char} (hvalue : value ∈ valueWords.map Prod.fst) :
    init.flatMap Lexeme.text ≠ parameterOpening ++ value := by
  have hkind : wordKind value ≠ .identifier := wordKind_ne_identifier_iff.mpr hvalue
  intro hsame
  rcases split_of_three htokens hlater with ⟨rfl, _⟩ | ⟨rfl, _⟩ | ⟨rfl, _⟩
  · have hnil : parameterOpening = [] := (List.append_eq_nil_iff.mp hsame.symm).1
    exact absurd hnil (by decide)
  · have hnil : value = [] := by simpa [hwrites.opening_text] using hsame
    rw [hnil] at hkind
    exact hkind rfl
  · have hsameWord : name = value := by
      simpa [hwrites.opening_text, hwrites.word_text] using hsame
    obtain ⟨c, body, hcons, _, _, hidentifier⟩ := hname
    exact hkind (hsameWord ▸ hcons ▸ hidentifier)

end WritesParameter

/-! ### A body that goes on -/

variable {source name part : String}

/-- The text goes on behind a body with tokens that are read without a report.  Before the last of
them, the root of the body is what is left if it is cut off. -/
structure GoesOn (source longer : String) (root : Value) (tokens : List Lexeme) : Prop where
  quiet : ((Options.fragmentWithin none).parse source).IsSilent
  root_eq : ((Options.fragmentWithin none).parse source).root = some root
  lex_eq : lex longer = lex source ++ tokens
  sound : AllSound (lex longer)
  reads : ReadsSilently none longer (lex longer)
  inside : significant (lex source) ≠ []
  rootAfter : ∀ init later, tokens = init ++ later → later ≠ [] →
    rootAfter none longer (lex source ++ init) = some root

namespace GoesOn

variable {longer : String} {root : Value} {tokens init later : List Lexeme} {token : Lexeme}

theorem reads_init (hgoes : GoesOn source longer root tokens) (htokens : tokens = init ++ later) :
    ReadsSilently none longer (lex source ++ init) := by
  have hreads := hgoes.reads
  rw [hgoes.lex_eq, htokens, ← List.append_assoc] at hreads
  exact hreads.of_append

theorem parse_whole (hgoes : GoesOn source longer root tokens) (htokens : tokens = init ++ later)
    (hlater : later ≠ []) (hpart : part.toList = init.flatMap Lexeme.text) :
    ((Options.fragmentWithin none).parse (source ++ part)).IsSilent ∧
      ((Options.fragmentWithin none).parse (source ++ part)).root = some root := by
  rcases List.eq_nil_or_concat' init with rfl | ⟨init, token, rfl⟩
  · have hnil : part = "" := String.toList_inj.mp hpart
    rw [hnil, String.append_empty]
    exact ⟨hgoes.quiet, hgoes.root_eq⟩
  · have hsplit : tokens = init ++ token :: later := by
      rw [htokens, List.append_assoc, List.singleton_append]
    have hlex : lex longer = (lex source ++ init) ++ token :: later := by
      rw [hgoes.lex_eq, hsplit, List.append_assoc]
    have hreads := hgoes.reads_init htokens
    rw [← List.append_assoc] at hreads
    have htaken : (source ++ part).toList =
        ((lex source ++ init) ++ [token]).flatMap Lexeme.text := by
      rw [List.append_assoc, List.flatMap_append, flatMap_lex, String.toList_append, hpart]
    have hroot := root_of_whole_token hgoes.sound hlex hreads htaken
    rw [List.append_assoc, hgoes.rootAfter init _ hsplit (List.cons_ne_nil token later),
      hgoes.rootAfter _ later htokens hlater, or_self] at hroot
    exact ⟨isSilent_of_whole_token hgoes.sound hlex hreads htaken, hroot⟩

theorem parse_broken (hgoes : GoesOn source longer root tokens)
    (htokens : tokens = init ++ token :: later) {text rest : List Char}
    (htext : token.text = text ++ rest) (hne : text ≠ []) (hrest : rest ≠ [])
    (hpart : part.toList = init.flatMap Lexeme.text ++ text) :
    ((Options.fragmentWithin none).parse (source ++ part)).IsSilent ∧
        ((Options.fragmentWithin none).parse (source ++ part)).root = some root ↔
      ¬Misread none (lex source ++ init) token text := by
  have hlex : lex longer = (lex source ++ init) ++ token :: later := by
    rw [hgoes.lex_eq, htokens, List.append_assoc]
  have hreads := hgoes.reads_init (htokens.trans (List.append_cons init token later))
  rw [← List.append_assoc] at hreads
  have hbreaks : BreaksOff longer (source ++ part) (lex source ++ init) token text := by
    refine ⟨later, rest, hlex, htext, hne, hrest, ?_⟩
    rw [String.toList_append, hpart, List.flatMap_append, flatMap_lex, List.append_assoc]
  have hinside : significant (lex source ++ init) ≠ [] := by
    simp [hgoes.inside]
  rw [← isSilent_of_broken_token_iff hgoes.sound hreads hbreaks]
  refine and_iff_left_of_imp fun hquiet => ?_
  rw [root_of_broken_token hgoes.sound hreads hbreaks hquiet fun _ => hinside]
  exact hgoes.rootAfter init _ htokens (List.cons_ne_nil token later)

end GoesOn

/-! ### Bodies that stop before a value -/

/-- The last token of the body, but for white space, is a colon or an opening bracket. -/
structure StopsBeforeValue (source : String) (front : List Lexeme) (last : Lexeme)
    (blank : List Lexeme) : Prop where
  lex_eq : lex source = front ++ last :: blank
  kind : last.kind = .colon ∨ last.kind = .bracketOpen
  blank : ∀ lexeme ∈ blank, lexeme.kind = .whitespace ∨ lexeme.kind = .newline

namespace StopsBeforeValue

variable {front blank : List Lexeme} {last lexeme : Lexeme}

theorem kind_of_mem (hstops : StopsBeforeValue source front last blank)
    (hmem : lexeme ∈ last :: blank) :
    lexeme.kind = .colon ∨ lexeme.kind = .bracketOpen ∨ lexeme.kind = .whitespace ∨
      lexeme.kind = .newline := by
  rcases List.mem_cons.mp hmem with rfl | hlater
  · exact hstops.kind.imp_right Or.inl
  · exact Or.inr (Or.inr (hstops.blank lexeme hlater))

theorem mem_of_getLast? (hstops : StopsBeforeValue source front last blank)
    (hlexeme : lexeme ∈ (lex source).getLast?) : lexeme ∈ last :: blank := by
  rw [hstops.lex_eq, List.getLast?_append_cons] at hlexeme
  exact List.mem_of_getLast? hlexeme

theorem isTrivia (hstops : StopsBeforeValue source front last blank) :
    last.kind.isTrivia = false := by
  rcases hstops.kind with hkind | hkind <;> rw [hkind] <;> rfl

theorem significant_eq (hstops : StopsBeforeValue source front last blank) :
    significant (lex source) = significant front ++ [last] := by
  have hnone : significant blank = [] := by
    refine List.filter_eq_nil_iff.mpr fun lexeme hmem => ?_
    rcases hstops.blank lexeme hmem with hkind | hkind <;> simp [hkind, Kind.isTrivia]
  rw [hstops.lex_eq, significant_append, significant_cons_of_not_isTrivia hstops.isTrivia, hnone]

theorem closed (hstops : StopsBeforeValue source front last blank) :
    ∀ lexeme ∈ lex source, lexeme.kind ≠ .unterminatedComment := by
  intro lexeme hmem hkind
  obtain ⟨before, after, hlex⟩ := List.append_of_mem hmem
  -- a comment without an end is the last token
  obtain rfl := eq_nil_of_unterminatedComment hlex hkind
  have hend := hstops.mem_of_getLast? (hlex ▸ List.getLast?_concat)
  rcases hstops.kind_of_mem hend with hother | hother | hother | hother <;> simp [hkind] at hother

theorem isCutInMarker (hstops : StopsBeforeValue source front last blank) (options : Options) :
    ∀ lexeme ∈ lex source, (options.setting source).isCutInMarker lexeme = false := by
  intro lexeme hmem
  obtain ⟨init, final, hlex⟩ :=
    (List.eq_nil_or_concat' (lex source)).resolve_left (List.ne_nil_of_mem hmem)
  rw [hlex] at hmem
  rcases List.mem_append.mp hmem with hinit | hfinal
  · have hlt := (stops_of_lex hlex).2 lexeme hinit
    simp [Setting.isCutInMarker, Setting.isCutIn, Options.setting, hlt.ne]
  · obtain rfl := List.mem_singleton.mp hfinal
    have hend := hstops.mem_of_getLast? (hlex ▸ List.getLast?_concat)
    rcases hstops.kind_of_mem hend with hkind | hkind | hkind | hkind <;>
      simp [Setting.isCutInMarker, Setting.isCutIn, Lexeme.isOpen, hkind]

/-- A fragment that stops before a value is read like the beginning of a longer body, as far as
the place where the value has to come. -/
theorem waitsInside (hstops : StopsBeforeValue source front last blank)
    (hquiet : ((Options.fragmentWithin none).parse source).IsSilent) (longer : String) :
    AllSound (lex source) ∧
      (Reader.start.run ((Options.groupWithin none).setting longer) (lex source)).WaitsInside ∧
      ((Options.fragmentWithin none).parse source).root = rootAfter none longer (lex source) := by
  let strict := (Options.groupWithin none).setting longer
  let raw := (Options.fragmentWithin none).setting source
  have hrun : Reader.start.run raw (lex source) = Reader.start.run strict (lex source) := by
    have hlimit : raw.nestingLimit = strict.nestingLimit := rfl
    refine Reader.run_congr hlimit (fun lexeme hmem => ?_) hstops.closed _
    have hraw := hstops.isCutInMarker (Options.fragmentWithin none) lexeme hmem
    have hstrict : strict.isCutInMarker lexeme = false := Setting.isCutInMarker_of_strict rfl lexeme
    rw [hraw, hstrict, Reader.isCutIn_of_isCutInMarker hraw,
      Reader.isCutIn_of_isCutInMarker hstrict]
    exact ⟨rfl, rfl⟩
  have hreports : (Reader.start.run raw (lex source)).reports = [] := by
    have hfinish : ((Reader.start.run raw (lex source)).finish raw false).reports = [] :=
      (Body.isSilent_ofOutcome_iff _).mp hquiet
    exact Reader.reports_eq_nil_of_suffix (Reader.suffix_finish _ _ _) hfinish
  have hfollows := Reader.follows_run Reader.start_follows
    (hstops.isCutInMarker (Options.fragmentWithin none)) hreports
  refine ⟨.of_significant hstops.closed hfollows.allSound, ?_, ?_⟩
  · have hsplit : Reader.start.run strict (lex source) =
        (Reader.start.run strict (significant front)).take strict last := by
      rw [Reader.run_significant (Or.inr hstops.closed), hstops.significant_eq, Reader.run_append,
        Reader.run_cons, Reader.run_nil, Reader.step_of_not_isTrivia hstops.isTrivia]
    rw [hrun, hsplit] at hreports
    rw [hsplit]
    have hmarker (lexeme : Lexeme) : strict.isCutInMarker lexeme = false :=
      Setting.isCutInMarker_of_strict rfl lexeme
    have hfront := Reader.reports_eq_nil_of_suffix (Reader.suffix_take _ _ _) hreports
    have hbefore := Reader.follows_run Reader.start_follows (fun lexeme _ => hmarker lexeme) hfront
    have hexpects := Reader.expects_of_silent hbefore (hmarker last) hreports
    exact Reader.waitsInside_take rfl rfl hexpects hfront hstops.kind
  · rw [rootAfter, ← hrun]
    exact (Reader.finish_of_follows hfollows rfl).1

/-- A placeholder can follow where a value has to come. -/
theorem exists_goesOn (hstops : StopsBeforeValue source front last blank)
    (hquiet : ((Options.fragmentWithin none).parse source).IsSilent) {name : List Char}
    (hname : IsName name) :
    ∃ opening word closing longer root, WritesParameter name opening word closing ∧
      GoesOn source longer root [opening, word, closing] := by
  let longer :=
    String.ofList (source.toList ++ (parameterOpening ++ name ++ parameterClosing))
  obtain ⟨hsound, hwaits, hroot⟩ := hstops.waitsInside hquiet longer
  have hends : ∀ lexeme ∈ (lex source).getLast?, endsBefore lexeme.kind '{' = true := by
    intro lexeme hlexeme
    have hmem := hstops.mem_of_getLast? hlexeme
    rcases hstops.kind_of_mem hmem with hkind | hkind | hkind | hkind <;> rw [hkind] <;> rfl
  obtain ⟨opening, word, closing, hwrites, hlex⟩ := exists_lex_parameter hname hsound hends
  obtain ⟨root, hcutRoot⟩ := Option.isSome_iff_exists.mp hwaits.root
  have hstrict : ((Options.groupWithin none).setting longer).allowsFragments = false := rfl
  obtain ⟨hopening, hword, hclosing⟩ := hwaits.run_parameter hstrict hwrites
  refine ⟨opening, word, closing, longer, root, hwrites, hquiet, hroot.trans hcutRoot, hlex,
    hlex ▸ hsound.append hwrites.allSound, ?_, ?_, ?_⟩
  · rw [hlex, ReadsSilently, Reader.run_append]
    exact hclosing
  · rw [hstops.significant_eq]
    simp
  · intro init later htokens hlater
    rw [rootAfter, Reader.run_append]
    rcases split_of_three htokens hlater with ⟨rfl, _⟩ | ⟨rfl, _⟩ | ⟨rfl, _⟩
    · exact hcutRoot
    · exact hopening.trans hcutRoot
    · exact hword.trans hcutRoot

end StopsBeforeValue

/-- In a fragment that stops before a value, a placeholder that stops before its end is left out
without a report, unless it stops just behind a word for a value with which its name begins. -/
theorem parse_cut_placeholder_iff {source name part : String} {front blank : List Lexeme}
    {last word : Lexeme} (hstops : StopsBeforeValue source front last blank)
    (hquiet : ((Options.fragmentWithin none).parse source).IsSilent)
    (hname : lex name = [word]) (hword : word.kind = .identifier)
    (hpart : part.toList <+: parameterOpening ++ name.toList ++ parameterClosing)
    (hproper : part.toList ≠ parameterOpening ++ name.toList ++ parameterClosing) :
    (((Options.fragmentWithin none).parse (source ++ part)).IsSilent ∧
        ∃ root, ((Options.fragmentWithin none).parse source).root = some root ∧
          ((Options.fragmentWithin none).parse (source ++ part)).root = some root) ↔
      ∀ value ∈ valueWords.map Prod.fst, part.toList ≠ parameterOpening ++ value := by
  have hisName := isName_of_lex hname hword
  obtain ⟨opening, word, closing, longer, root, hwrites, hgoes⟩ :=
    hstops.exists_goesOn hquiet hisName
  have hsame : (∃ found, ((Options.fragmentWithin none).parse source).root = some found ∧
      ((Options.fragmentWithin none).parse (source ++ part)).root = some found) ↔
        ((Options.fragmentWithin none).parse (source ++ part)).root = some root := by
    simp [hgoes.root_eq]
  rw [hsame]
  obtain ⟨back, hback⟩ := hpart
  rw [← hwrites.flatMap_text] at hback hproper
  rcases exists_boundary hback.symm with ⟨init, later, htokens, hwhole⟩ |
    ⟨init, token, later, text, rest, htokens, htext, hne, hrest, hbroken⟩
  · have hlater : later ≠ [] := by
      rintro rfl
      rw [hwhole, htokens, List.append_nil] at hproper
      exact hproper rfl
    refine iff_of_true (hgoes.parse_whole htokens hlater hwhole) ?_
    intro value hvalue
    rw [hwhole]
    exact hwrites.ne_of_whole hisName htokens hlater hvalue
  · rw [hgoes.parse_broken htokens htext hne hrest hbroken,
      hwrites.misread_iff htokens htext hne hrest, hbroken]
    simp

theorem parse_cut_placeholder_in_name :
    ((Options.fragmentWithin none).parse "[\x7b\"a\": \x7b\x7b#toJson\x7d\x7dtrueis").IsSilent ∧
      ∃ root, ((Options.fragmentWithin none).parse "[\x7b\"a\": ").root = some root ∧
        ((Options.fragmentWithin none).parse "[\x7b\"a\": \x7b\x7b#toJson\x7d\x7dtrueis").root =
          some root := by
  let front : List Lexeme := [.placed .bracketOpen 0 ['['], .placed .braceOpen 1 ['{'],
    .placed .string 2 ['"', 'a', '"']]
  have hlex : lex "[\x7b\"a\": " =
      front ++ .placed .colon 5 [':'] :: [.placed .whitespace 6 [' ']] := by decide +kernel
  have hstops : StopsBeforeValue "[\x7b\"a\": " front (.placed .colon 5 [':'])
      [.placed .whitespace 6 [' ']] :=
    ⟨hlex, Or.inl rfl, List.forall_mem_singleton.mpr (Or.inl rfl)⟩
  have hquiet : ((Options.fragmentWithin none).parse "[\x7b\"a\": ").IsSilent := by
    unfold Body.IsSilent
    decide +kernel
  have hname : lex "trueish" = [.placed .identifier 0 "trueish".toList] := by decide +kernel
  have hpart : "\x7b\x7b#toJson\x7d\x7dtrueis".toList <+:
      parameterOpening ++ "trueish".toList ++ parameterClosing := by decide
  exact (parse_cut_placeholder_iff hstops hquiet hname rfl hpart (by decide)).mpr (by decide)

/-- A placeholder is reported where it stops behind a word with which its name begins. -/
theorem parse_cut_placeholder_of_word :
    ¬∀ (source name part : String) (front : List Lexeme) (last word : Lexeme),
      lex source = front ++ [last] → last.kind = .colon ∨ last.kind = .bracketOpen →
        ((Options.fragmentWithin none).parse source).IsSilent → lex name = [word] →
        word.kind = .identifier →
        part.toList <+: parameterOpening ++ name.toList ++ parameterClosing →
        part.toList ≠ parameterOpening ++ name.toList ++ parameterClosing →
        ((Options.fragmentWithin none).parse (source ++ part)).IsSilent ∧
          ∃ root, ((Options.fragmentWithin none).parse source).root = some root ∧
            ((Options.fragmentWithin none).parse (source ++ part)).root = some root := by
  intro hall
  have hlex : lex "[" = [] ++ [.placed .bracketOpen 0 ['[']] := by decide +kernel
  have hquiet : ((Options.fragmentWithin none).parse "[").IsSilent := by
    unfold Body.IsSilent
    decide +kernel
  have hname : lex "trueish" = [.placed .identifier 0 "trueish".toList] := by decide +kernel
  have hcut := hall "[" "trueish" "\x7b\x7b#toJson\x7d\x7dtrue" [] _ _ hlex (Or.inr rfl) hquiet
    hname rfl (by decide) (by decide)
  have hreported : ((Options.fragmentWithin none).parse
      "[\x7b\x7b#toJson\x7d\x7dtrue").diagnostics.isEmpty = false := by decide +kernel
  have hsilent : ((Options.fragmentWithin none).parse
      "[\x7b\x7b#toJson\x7d\x7dtrue").diagnostics.toList = [] := hcut.1
  rw [Diagnostics.isEmpty, hsilent] at hreported
  contradiction

end QueryBody
