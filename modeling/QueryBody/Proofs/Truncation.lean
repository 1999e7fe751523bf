import QueryBody.Proofs.BrokenToken
import QueryBody.Proofs.Expectation
import Mathlib.Tactic

/-!
# Beginnings of groups

A beginning of a complete body is read as a fragment without a report, unless it stops
inside a token at a place where the part of the token is another token that cannot
stand there.
-/

namespace QueryBody

/-! ### Where a beginning of a body stops -/

theorem exists_boundary {lexemes : List Lexeme} {text back : List Char}
    (htext : lexemes.flatMap Lexeme.text = text ++ back) :
    (∃ before after, lexemes = before ++ after ∧ text = before.flatMap Lexeme.text) ∨
      ∃ before token after part rest, lexemes = before ++ token :: after ∧
        token.text = part ++ rest ∧ part ≠ [] ∧ rest ≠ [] ∧
        text = before.flatMap Lexeme.text ++ part := by
  induction lexemes generalizing text with
  | nil =>
      have hnil := (List.append_eq_nil_iff.mp htext.symm).1
      exact Or.inl ⟨[], [], rfl, hnil⟩
  | cons lexeme lexemes ih =>
      rw [List.flatMap_cons] at htext
      rcases List.append_eq_append_iff.mp htext with ⟨more, rfl, hmore⟩ | ⟨rest, hlexeme, _⟩
      · rcases ih hmore with ⟨before, after, rfl, rfl⟩ |
          ⟨before, token, after, part, rest, rfl, htoken, hpart, hrest, rfl⟩
        · exact Or.inl ⟨lexeme :: before, after, rfl, by simp⟩
        · exact Or.inr ⟨lexeme :: before, token, after, part, rest, rfl, htoken, hpart, hrest,
            by simp⟩
      · by_cases hpart : text = []
        · exact Or.inl ⟨[], lexeme :: lexemes, rfl, hpart⟩
        by_cases hrest : rest = []
        · exact Or.inl ⟨[lexeme], lexemes, rfl, by simp [hlexeme, hrest]⟩
        · exact Or.inr ⟨[], lexeme, lexemes, text, rest, rfl, hlexeme, hpart, hrest, rfl⟩

theorem Lexer.stop_le_of_mem_place {offset : Nat} {pieces : List (Kind × List Char)}
    {lexeme : Lexeme} (hmem : lexeme ∈ place offset pieces) :
    lexeme.span.stop ≤ offset + Utf8.size (pieces.flatMap Prod.snd) := by
  induction pieces generalizing offset with
  | nil => contradiction
  | cons piece pieces ih =>
      rw [List.flatMap_cons, Utf8.size_append]
      rcases List.mem_cons.mp hmem with rfl | hrest
      · simp only [Lexeme.placed]
        omega
      · have hle := ih hrest
        omega

theorem stops_of_lex {source : String} {before : List Lexeme} {last : Lexeme}
    (hlex : lex source = before ++ [last]) :
    last.span.stop = Utf8.size source.toList ∧
      ∀ lexeme ∈ before, lexeme.span.stop < Utf8.size source.toList := by
  have hwhole := flatMap_lex source
  obtain ⟨first, second, hcut, hfirst, hsecond⟩ := Lexer.eq_append_of_place hlex
  have hpieces : second.map Prod.snd = [last.text] ∧
      last.span.stop = Utf8.size (before.flatMap Lexeme.text) + Utf8.size last.text := by
    rw [Nat.zero_add] at hsecond
    cases second with
    | nil => contradiction
    | cons piece rest =>
        obtain ⟨rfl, hnil⟩ := List.cons.inj hsecond
        cases rest with
        | nil =>
            rw [← hfirst, Lexer.flatMap_place]
            exact ⟨rfl, rfl⟩
        | cons next rest => contradiction
  have hne : last.text ≠ [] := by
    have hmem : last.text ∈ second.map Prod.snd := by simp [hpieces.1]
    obtain ⟨piece, hpiece, hsame⟩ := List.mem_map.mp hmem
    rw [← hsame]
    exact Lexer.ne_nil_of_mem_cut (hcut ▸ List.mem_append_right first hpiece)
  have hsize : Utf8.size source.toList =
      Utf8.size (before.flatMap Lexeme.text) + Utf8.size last.text := by
    rw [← hwhole, hlex, List.flatMap_append, Utf8.size_append]
    simp
  have hpos := Utf8.size_pos hne
  refine ⟨by rw [hpieces.2, hsize], ?_⟩
  intro lexeme hmem
  have hle := Lexer.stop_le_of_mem_place (hfirst ▸ hmem)
  rw [← Lexer.flatMap_place 0, hfirst] at hle
  omega

/-- A text stops inside a token of a body: after the tokens before it and a part of it. -/
def BreaksOff (source taken : String) (before : List Lexeme) (token : Lexeme)
    (part : List Char) : Prop :=
  ∃ after rest, lex source = before ++ token :: after ∧ token.text = part ++ rest ∧
    part ≠ [] ∧ rest ≠ [] ∧ taken.toList = before.flatMap Lexeme.text ++ part

/-- The part of a token is read as another token, which cannot stand in its place. -/
inductive Misread (limit : Option Nat) (before : List Lexeme) (token : Lexeme)
    (part : List Char) : Prop
  /-- A comment of which only the slash is there. -/
  | slash (hkind : token.kind = .lineComment ∨ token.kind = .blockComment) (hpart : part = ['/'])
  /-- A parameter name that begins with a word for a value. -/
  | word (hkind : token.kind = .identifier) (hword : Lexer.wordKind part ≠ .identifier)
  /-- A placeholder of which only a brace is there, where no container may be opened. -/
  | brace (hkind : token.kind = .parameterOpen) (hpart : part = ['{'])
      (hfull : ¬Allows limit (openBrackets before + 1))

namespace Reader

variable {setting : Setting} {reader : Reader} {lexemes : List Lexeme}

/-- The next token ends a part of a container. -/
def awaitsSeparator (reader : Reader) : Bool :=
  match reader.focus with
  | .separator _ => true
  | _ => false

theorem take_reports_of_isCutIn {lexeme : Lexeme} (hfollows : reader.Follows lexemes)
    (hcut : setting.isCutIn lexeme = true) (hmore : reader.awaitsSeparator = false) :
    (reader.take setting lexeme).reports = reader.reports := by
  cases hfollows with
  | value hsurround reports => simp [take, value, hcut]
  | opened hsurround hholds hempty reports =>
      simp only [take, part_of_isCutIn hcut]
  | separated hsurround hholds hne hcomma reports =>
      simp only [take, part_of_isCutIn hcut]
  | separator hsurround hholds hne reports => contradiction
  | colon hsurround hawaits hname reports => simp [take, colon, hcut]
  | parameterName hsurround hmarker reports => simp [take, parameterName, hcut]
  | parameterClose hsurround hmarker hname reports =>
      simp [take, parameterClose, Setting.isCutInMarker, hcut]
  | finished hspells reports => simp [take, hcut]

theorem awaitsSeparator_of_expects {kind : Kind} (hexpects : reader.focus.Expects kind)
    (hrecovery : KindSet.valueRecovery.contains kind = false) :
    reader.awaitsSeparator = false := by
  obtain ⟨focus, holes, reports⟩ := reader
  cases focus with
  | separator container =>
      rcases hexpects with rfl | rfl
      · contradiction
      · rw [(closer_mem_valueRecovery container).1] at hrecovery
        contradiction
  | _ => rfl

/-- A token that a group takes silently is taken likewise in a fragment, unless it is cut off in
the token. -/
theorem step_whole (strict raw : Setting) {token : Lexeme}
    (hfollows : reader.Follows lexemes) (hstrict : strict.allowsFragments = false)
    (hraw : raw.allowsFragments = true) (hlimit : raw.nestingLimit = strict.nestingLimit)
    (hsilent : (reader.step strict token).reports = []) :
    reader.step raw token = reader.step strict token ∨
      reader.step raw token = ⟨.stopped reader.cutRoot true, [], []⟩ := by
  have hreports := reports_eq_nil_of_suffix (suffix_step strict reader token) hsilent
  cases htrivia : token.kind.isTrivia with
  | true =>
      simp only [step, htrivia, if_true] at hsilent ⊢
      rw [ignore_of_silent hsilent]
      exact Or.inl (by simp [ignore, hraw])
  | false =>
      rw [step_of_not_isTrivia htrivia] at hsilent ⊢
      rw [step_of_not_isTrivia htrivia]
      have hstrictCut := Setting.isCutInMarker_of_strict hstrict token
      have hexpects := expects_of_silent hfollows hstrictCut hsilent
      cases hcut : raw.isCutIn token with
      | true =>
          have hrecovery := Lexeme.not_valueRecovery_of_isOpen (isOpen_of_isCutIn hcut)
          have hquiet := take_reports_of_isCutIn hfollows hcut
            (awaitsSeparator_of_expects hexpects hrecovery)
          have htake := take_of_isCutIn hfollows hcut (hquiet.trans hreports)
          rw [hreports] at htake
          exact Or.inr htake
      | false =>
          by_cases hmarker : reader.awaitsMarker = true ∧ raw.isCutInMarker token = true
          · have htake := take_of_isCutInMarker hfollows hmarker.1 hmarker.2
            rw [hreports] at htake
            exact Or.inr htake
          · refine Or.inl (take_congr hlimit ?_ ?_)
            · rw [hcut, isCutIn_of_isCutInMarker hstrictCut]
            · intro hawaits
              rw [hstrictCut]
              simpa [hawaits] using hmarker

theorem step_whole_silent {strict raw : Setting} {token : Lexeme}
    (hfollows : reader.Follows lexemes) (hstrict : strict.allowsFragments = false)
    (hraw : raw.allowsFragments = true) (hlimit : raw.nestingLimit = strict.nestingLimit)
    (hsilent : (reader.step strict token).reports = []) :
    (reader.step raw token).reports = [] := by
  rcases step_whole strict raw hfollows hstrict hraw hlimit hsilent with hsame | hcut
  · rw [hsame, hsilent]
  · rw [hcut]

/-! ### Parts of tokens -/

variable {last : Lexeme}

theorem isCutIn_of_isOpen (hfragments : setting.allowsFragments = true)
    (hstop : last.span.stop = setting.size) (hopen : last.isOpen = true) :
    setting.isCutIn last = true := by
  simp [Setting.isCutIn, hfragments, hstop, hopen]

theorem not_isTrivia_of_isOpen (hopen : last.isOpen = true) : last.kind.isTrivia = false := by
  unfold Lexeme.isOpen at hopen
  split at hopen
  next hkind => rw [hkind]; rfl
  next hkind => rw [hkind]; rfl
  next hkind => rw [hkind]; rfl
  next hkind => rw [hkind]; rfl
  next hkind => rw [hkind]; rfl
  · contradiction

/-- A part that more input could complete is taken silently in place of its token. -/
theorem step_open_silent {kind : Kind} (hfollows : reader.Follows lexemes)
    (hreports : reader.reports = []) (hfragments : setting.allowsFragments = true)
    (hstop : last.span.stop = setting.size) (hexpects : reader.focus.Expects kind)
    (hrecovery : KindSet.valueRecovery.contains kind = false) (hopen : last.isOpen = true) :
    (reader.step setting last).reports = [] := by
  rw [step_of_not_isTrivia (not_isTrivia_of_isOpen hopen),
    take_reports_of_isCutIn hfollows (isCutIn_of_isOpen hfragments hstop hopen)
      (awaitsSeparator_of_expects hexpects hrecovery), hreports]

theorem step_trivia_silent (hreports : reader.reports = [])
    (hfragments : setting.allowsFragments = true) (htrivia : last.kind.isTrivia = true) :
    (reader.step setting last).reports = [] := by
  simp [step, htrivia, ignore, hfragments, hreports]

theorem step_unexpected (hfollows : reader.Follows lexemes)
    (hopen : last.isOpen = false) (hbrace : last.kind ≠ .braceOpen)
    (htrivia : last.kind.isTrivia = false) (hexpects : ¬reader.focus.Expects last.kind) :
    (reader.step setting last).reports ≠ [] := by
  intro hsilent
  rw [step_of_not_isTrivia htrivia] at hsilent
  have hcut : setting.isCutInMarker last = false := by
    simp [Setting.isCutInMarker, Setting.isCutIn, hopen, hbrace]
  exact hexpects (expects_of_silent hfollows hcut hsilent)

theorem not_expects {kind : Kind} (hkind : kind = .garbage ∨ kind = .endOfInput) (focus : Focus) :
    ¬focus.Expects kind := by
  rcases hkind with rfl | rfl
  all_goals
    cases focus with
    | part container comma => cases container <;> simp [Focus.Expects, beginsPart,
        Container.closer, KindSet.contains, KindSet.valueFirst]
    | separator container => cases container <;> simp [Focus.Expects, Container.closer]
    | _ => simp [Focus.Expects, KindSet.contains, KindSet.valueFirst]

theorem parameterName_of_expects {focus : Focus} (hexpects : focus.Expects .identifier) :
    ∃ marker, focus = .parameterName marker := by
  cases focus with
  | parameterName marker => exact ⟨marker, rfl⟩
  | part container comma => cases container <;> simp [Focus.Expects, beginsPart, Container.closer,
      KindSet.contains, KindSet.valueFirst] at hexpects
  | separator container => cases container <;> simp [Focus.Expects, Container.closer] at hexpects
  | _ => simp [Focus.Expects, KindSet.contains, KindSet.valueFirst] at hexpects

/-- A part of a parameter name is reported if it is a word for a value. -/
theorem step_name_silent_iff (hfollows : reader.Follows lexemes) (hreports : reader.reports = [])
    (hexpects : reader.focus.Expects .identifier)
    (hkind : last.kind ∈ [Kind.trueWord, .falseWord, .nullWord, .identifier]) :
    (reader.step setting last).reports = [] ↔ last.kind = .identifier := by
  simp only [List.mem_cons, List.not_mem_nil, or_false] at hkind
  obtain ⟨marker, hfocus⟩ := parameterName_of_expects hexpects
  have htrivia : last.kind.isTrivia = false := by
    rcases hkind with hkind | hkind | hkind | hkind <;> rw [hkind] <;> rfl
  constructor
  · intro hsilent
    by_contra hother
    simp only [hother, or_false] at hkind
    have hopen : last.isOpen = false := by
      rcases hkind with hkind | hkind | hkind <;> simp [Lexeme.isOpen, hkind]
    have hbrace : last.kind ≠ .braceOpen := by
      rcases hkind with hkind | hkind | hkind <;> simp [hkind]
    have hnot : ¬reader.focus.Expects last.kind := by
      rw [hfocus]
      exact hother
    exact step_unexpected hfollows hopen hbrace htrivia hnot hsilent
  · intro hname
    rw [step_of_not_isTrivia htrivia]
    obtain ⟨focus, holes, reports⟩ := reader
    change focus = .parameterName marker at hfocus
    change reports = [] at hreports
    subst hfocus hreports
    simp only [take, parameterName]
    split
    · rfl
    · rfl

theorem value_brace_silent_iff (hkind : last.kind = .braceOpen) (holes : List Hole) :
    (value setting last holes []).reports = [] ↔
      Allows setting.nestingLimit (holes.length + 1) := by
  have hopen : setting.isCutIn last = false := by simp [Setting.isCutIn, Lexeme.isOpen, hkind]
  rw [← setting.exceeded?_eq_none_iff]
  simp only [value, hopen, hkind, KindSet.valueRecovery, KindSet.contains, openContainer]
  cases setting.exceeded? holes.length with
  | none => simp
  | some most => simp [Report.add_ne_nil]

theorem part_brace_silent_iff {before front back : List Lexeme} {container : Container}
    {holes : List Hole} {comma : Option Token} (hsurround : Hole.Surround holes front)
    (hopens : Opens 1 back) (hbefore : significant before = front ++ back)
    (hexpects : (Focus.part container comma).Expects .parameterOpen)
    (hkind : last.kind = .braceOpen) :
    (take setting ⟨.part container comma, holes, []⟩ last).reports = [] ↔
      Allows setting.nestingLimit (openBrackets before + 1) := by
  have hfirst : KindSet.valueFirst.contains last.kind = true := by rw [hkind]; rfl
  have hcount : openBrackets before = holes.length + 1 :=
    openBrackets_eq (hbefore ▸ hsurround.opens.append hopens)
  cases container with
  | array opener items =>
      rw [take_part_array hfirst, hcount]
      exact value_brace_silent_iff hkind (.item opener items :: holes)
  | object opener members => simp [Focus.Expects, beginsPart, Container.closer] at hexpects

/-- A brace in place of a placeholder is reported if no container may be opened. -/
theorem step_brace_silent_iff {before : List Lexeme} (hfollows : reader.Follows lexemes)
    (hbefore : significant before = lexemes) (hreports : reader.reports = [])
    (hexpects : reader.focus.Expects .parameterOpen) (hkind : last.kind = .braceOpen) :
    (reader.step setting last).reports = [] ↔
      Allows setting.nestingLimit (openBrackets before + 1) := by
  have htrivia : last.kind.isTrivia = false := by rw [hkind]; rfl
  rw [step_of_not_isTrivia htrivia]
  cases hfollows with
  | value hsurround reports =>
      rename_i holes
      change reports = [] at hreports
      subst hreports
      rw [openBrackets_eq (hbefore ▸ hsurround.opens)]
      exact value_brace_silent_iff hkind holes
  | opened hsurround hholds hempty reports =>
      change reports = [] at hreports
      subst hreports
      exact part_brace_silent_iff hsurround hholds.opens hbefore hexpects hkind
  | separated hsurround hholds hne hcomma reports =>
      change reports = [] at hreports
      subst hreports
      have hopens := hholds.opens.append (.neutral hcomma (by decide))
      exact part_brace_silent_iff hsurround hopens hbefore hexpects hkind
  | separator hsurround hholds hne reports =>
      rename_i container holes front back
      cases container <;> simp [Focus.Expects, Container.closer] at hexpects
  | colon hsurround hawaits hname reports => simp [Focus.Expects] at hexpects
  | parameterName hsurround hmarker reports => simp [Focus.Expects] at hexpects
  | parameterClose hsurround hmarker hname reports => simp [Focus.Expects] at hexpects
  | finished hspells reports => simp [Focus.Expects] at hexpects

theorem awaitsMarker_of_expects (hexpects : reader.focus.Expects .parameterClose) :
    reader.awaitsMarker = true := by
  obtain ⟨focus, holes, reports⟩ := reader
  cases focus with
  | parameterClose marker name => rfl
  | part container comma => cases container <;> simp [Focus.Expects, beginsPart, Container.closer,
      KindSet.contains, KindSet.valueFirst] at hexpects
  | separator container => cases container <;> simp [Focus.Expects, Container.closer] at hexpects
  | _ => simp [Focus.Expects, KindSet.contains, KindSet.valueFirst] at hexpects

theorem step_closing_silent (hfollows : reader.Follows lexemes) (hreports : reader.reports = [])
    (hfragments : setting.allowsFragments = true) (hstop : last.span.stop = setting.size)
    (hexpects : reader.focus.Expects .parameterClose) (hkind : last.kind = .braceOpen) :
    (reader.step setting last).reports = [] := by
  have htrivia : last.kind.isTrivia = false := by rw [hkind]; rfl
  have hcut : setting.isCutInMarker last = true := by
    simp [Setting.isCutInMarker, hfragments, hkind, hstop]
  rw [step_of_not_isTrivia htrivia,
    take_of_isCutInMarker hfollows (awaitsMarker_of_expects hexpects) hcut, hreports]

/-! ### The part of the last token -/

variable {before : List Lexeme} {token : Lexeme} {part rest : List Char}

theorem misread_iff {limit : Option Nat} : Misread limit before token part ↔
    (token.kind = .lineComment ∨ token.kind = .blockComment) ∧ part = ['/'] ∨
      token.kind = .identifier ∧ Lexer.wordKind part ≠ .identifier ∨
      token.kind = .parameterOpen ∧ part = ['{'] ∧ ¬Allows limit (openBrackets before + 1) := by
  constructor
  · intro hmisread
    cases hmisread with
    | slash hkind hpart => exact Or.inl ⟨hkind, hpart⟩
    | word hkind hword => exact Or.inr (Or.inl ⟨hkind, hword⟩)
    | brace hkind hpart hfull => exact Or.inr (Or.inr ⟨hkind, hpart, hfull⟩)
  · intro hcases
    rcases hcases with ⟨hkind, hpart⟩ | ⟨hkind, hword⟩ | ⟨hkind, hpart, hfull⟩
    · exact .slash hkind hpart
    · exact .word hkind hword
    · exact .brace hkind hpart hfull

theorem not_single_of_broken
    (hbegun : ∃ c text m, Lexer.begun? c text = some m ∧ token.text = c :: m.text ∧
      token.kind = m.kind)
    (htext : token.text = part ++ rest) (hpart : part ≠ []) (hrest : rest ≠ []) :
    token.kind ∉ Kind.braceOpen :: Lexer.singles.map Prod.snd := by
  obtain ⟨c, text, m, hfound, hwhole, hsame⟩ := hbegun
  intro hmem
  have hnil := Lexer.text_eq_nil_of_single hfound (hsame ▸ hmem)
  have hlength := congrArg List.length htext
  have hfirst := List.length_pos_of_ne_nil hpart
  have hsecond := List.length_pos_of_ne_nil hrest
  rw [hwhole, hnil, List.length_append] at hlength
  simp only [List.length_cons, List.length_nil] at hlength
  omega

theorem isOpen_of_broken_scalar (hlegible : token.IsLegible)
    (hword : token.kind ∈ [Kind.trueWord, .falseWord, .nullWord] →
      Lexer.wordKind token.text = token.kind)
    (hkind : token.kind ∈ [Kind.string, .number, .trueWord, .falseWord, .nullWord])
    (htext : token.text = part ++ rest) (hpart : part ≠ []) (hrest : rest ≠ [])
    (hlast : last.kind = Lexer.checked (Lexer.brokenKind token.kind part) part)
    (hlastText : last.text = part) : last.isOpen = true := by
  have hvalueWord (hmem : token.kind ∈ [Kind.trueWord, .falseWord, .nullWord])
      (hbroken : Lexer.brokenKind token.kind part = Lexer.wordKind part) :
      last.isOpen = true := by
    have hother : Lexer.wordKind token.text ≠ .identifier := by
      rw [hword hmem]
      intro hsame
      simp [hsame] at hmem
    have hidentifier := Lexer.wordKind_broken htext.symm hrest hother
    rw [hbroken, hidentifier] at hlast
    have hopen := Lexer.beginsValueWord_broken htext hpart hother
    simp [Lexeme.isOpen, hlast, Lexer.checked, hlastText, hopen]
  simp only [List.mem_cons, List.not_mem_nil, or_false] at hkind
  rcases hkind with hkind | hkind | hkind | hkind | hkind
  · rw [hkind] at hlast
    simp [Lexeme.isOpen, hlast, Lexer.checked, Lexer.brokenKind]
  · have hshape : Shape.of part ≠ .invalid :=
      Shape.of_broken (htext ▸ hlegible.number hkind) hpart
    rw [hkind] at hlast
    by_cases hcomplete : Shape.of part = .complete
    · simp [Lexeme.isOpen, hlast, Lexer.checked, Lexer.brokenKind, hlastText, hcomplete]
    · simp [Lexeme.isOpen, hlast, Lexer.checked, Lexer.brokenKind, hlastText, hcomplete, hshape]
  all_goals exact hvalueWord (by simp [hkind]) (by simp [hkind, Lexer.brokenKind])

theorem kind_of_broken_marker
    (hkind : token.kind = .parameterOpen ∨ token.kind = .parameterClose)
    (hlast : last.kind = Lexer.checked (Lexer.brokenKind token.kind part) part) :
    part = ['{'] ∧ last.kind = .braceOpen ∨ part ≠ ['{'] ∧ last.isOpen = true := by
  by_cases hbrace : part = ['{']
  · refine Or.inl ⟨hbrace, ?_⟩
    rcases hkind with hkind | hkind <;>
      simp [hlast, hkind, Lexer.brokenKind, Lexer.checked, hbrace]
  · refine Or.inr ⟨hbrace, ?_⟩
    rcases hkind with hkind | hkind <;>
      simp [Lexeme.isOpen, hlast, hkind, Lexer.brokenKind, Lexer.checked, hbrace]

theorem kind_of_broken_identifier (hkind : token.kind = .identifier)
    (hlast : last.kind = Lexer.checked (Lexer.brokenKind token.kind part) part) :
    last.kind = Lexer.wordKind part := by
  have hmem := Lexer.wordKind_mem part
  rw [hlast, hkind]
  change Lexer.checked (Lexer.wordKind part) part = Lexer.wordKind part
  simp only [List.mem_cons, List.not_mem_nil, or_false] at hmem
  rcases hmem with hmem | hmem | hmem | hmem <;> rw [hmem] <;> rfl

/-- What the part of a token can be. -/
inductive BrokenInto (token : Lexeme) (part : List Char) (last : Lexeme) : Prop
  | trivia (htrivia : last.kind.isTrivia = true)
  | changing (hopen : last.isOpen = true) (hsignificant : token.kind.isTrivia = false)
      (hrecovery : KindSet.valueRecovery.contains token.kind = false)
  | slash (hcomment : token.kind = .lineComment ∨ token.kind = .blockComment)
      (hpart : part = ['/']) (hkind : last.kind = .garbage)
  | word (hname : token.kind = .identifier) (hkind : last.kind = Lexer.wordKind part)
  | brace (hmarker : token.kind = .parameterOpen ∨ token.kind = .parameterClose)
      (hpart : part = ['{']) (hkind : last.kind = .braceOpen)

theorem BrokenInto.of_isOpen (hopen : last.isOpen = true)
    (hkind : token.kind ∈ [Kind.string, .number, .trueWord, .falseWord, .nullWord,
      .parameterOpen, .parameterClose]) : BrokenInto token part last := by
  have hkinds : ∀ kind ∈ [Kind.string, .number, .trueWord, .falseWord, .nullWord, .parameterOpen,
      .parameterClose], kind.isTrivia = false ∧ KindSet.valueRecovery.contains kind = false := by
    decide
  obtain ⟨hsignificant, hrecovery⟩ := hkinds _ hkind
  exact .changing hopen hsignificant hrecovery

/-- A comment breaks into a shorter comment, unless only its first slash is left. -/
theorem BrokenInto.of_comment (hkind : token.kind = .lineComment ∨ token.kind = .blockComment)
    (hlast : last.kind = Lexer.checked (Lexer.brokenKind token.kind part) part) :
    BrokenInto token part last := by
  by_cases hslash : part = ['/']
  · refine .slash hkind hslash ?_
    rcases hkind with hkind | hkind <;>
      simp [hlast, hkind, Lexer.brokenKind, Lexer.checked, hslash]
  · refine .trivia ?_
    rcases hkind with hkind | hkind <;>
      simp [hlast, hkind, Lexer.brokenKind, Lexer.checked, hslash, Kind.isTrivia]

theorem BrokenInto.of_marker
    (hkind : token.kind = .parameterOpen ∨ token.kind = .parameterClose)
    (hlast : last.kind = Lexer.checked (Lexer.brokenKind token.kind part) part) :
    BrokenInto token part last := by
  rcases kind_of_broken_marker hkind hlast with ⟨hbrace, hlastKind⟩ | ⟨_, hopen⟩
  · exact .brace hkind hbrace hlastKind
  · exact .of_isOpen hopen (by rcases hkind with hkind | hkind <;> simp [hkind])

theorem brokenInto (hsound : token.kind.isLexicalError = false) (hlegible : token.IsLegible)
    (hbegun : ∃ c text m, Lexer.begun? c text = some m ∧ token.text = c :: m.text ∧
      token.kind = m.kind)
    (htext : token.text = part ++ rest) (hpart : part ≠ []) (hrest : rest ≠ [])
    (hlast : last.kind = Lexer.checked (Lexer.brokenKind token.kind part) part)
    (hlastText : last.text = part) : BrokenInto token part last := by
  have hlong := not_single_of_broken hbegun htext hpart hrest
  have hword : token.kind ∈ [Kind.trueWord, .falseWord, .nullWord] →
      Lexer.wordKind token.text = token.kind := by
    intro hmem
    obtain ⟨c, text, m, hfound, hwhole, hsame⟩ := hbegun
    rw [hwhole, hsame]
    refine Lexer.wordKind_of_begun? hfound (hsame ▸ ?_)
    simp only [List.mem_cons] at hmem ⊢
    tauto
  have hscalar (hkind : token.kind ∈ [Kind.string, .number, .trueWord, .falseWord, .nullWord]) :
      BrokenInto token part last := by
    have hopen := isOpen_of_broken_scalar hlegible hword hkind htext hpart hrest hlast hlastText
    refine .of_isOpen hopen ?_
    simp only [List.mem_cons] at hkind ⊢
    tauto
  cases hkind : token.kind with
  | braceOpen => exact absurd (by rw [hkind]; decide) hlong
  | braceClose => exact absurd (by rw [hkind]; decide) hlong
  | bracketOpen => exact absurd (by rw [hkind]; decide) hlong
  | bracketClose => exact absurd (by rw [hkind]; decide) hlong
  | colon => exact absurd (by rw [hkind]; decide) hlong
  | comma => exact absurd (by rw [hkind]; decide) hlong
  | newline => exact absurd (by rw [hkind]; decide) hlong
  | string => exact hscalar (by simp [hkind])
  | number => exact hscalar (by simp [hkind])
  | trueWord => exact hscalar (by simp [hkind])
  | falseWord => exact hscalar (by simp [hkind])
  | nullWord => exact hscalar (by simp [hkind])
  | whitespace =>
      refine .trivia ?_
      simp [hlast, hkind, Lexer.brokenKind, Lexer.checked, Kind.isTrivia]
  | lineComment => exact .of_comment (Or.inl hkind) hlast
  | blockComment => exact .of_comment (Or.inr hkind) hlast
  | identifier => exact .word hkind (kind_of_broken_identifier hkind hlast)
  | parameterOpen => exact .of_marker (Or.inl hkind) hlast
  | parameterClose => exact .of_marker (Or.inr hkind) hlast
  | endOfInput =>
      obtain ⟨c, text, m, hfound, _, hsame⟩ := hbegun
      have hstarts := Lexer.starts_of_begun? hfound
      rw [← hsame, hkind] at hstarts
      contradiction
  | partialMarker => simp [hkind, Kind.isLexicalError] at hsound
  | unterminatedString => simp [hkind, Kind.isLexicalError] at hsound
  | invalidString => simp [hkind, Kind.isLexicalError] at hsound
  | malformedNumber => simp [hkind, Kind.isLexicalError] at hsound
  | unterminatedComment => simp [hkind, Kind.isLexicalError] at hsound
  | garbage => simp [hkind, Kind.isLexicalError] at hsound

/-- A part that is misread is a complete token of its own. -/
theorem not_misread {limit : Option Nat}
    (hlast : last.kind = Lexer.checked (Lexer.brokenKind token.kind part) part)
    (hkind : last.kind.isTrivia = true ∨ last.isOpen = true) :
    ¬Misread limit before token part := by
  intro hmisread
  cases hmisread with
  | slash hcomment hpart =>
      have hgarbage : last.kind = .garbage := by
        rcases hcomment with hcomment | hcomment <;>
          simp [hlast, hcomment, Lexer.brokenKind, Lexer.checked, hpart]
      simp [Lexeme.isOpen, hgarbage, Kind.isTrivia] at hkind
  | word hname hword =>
      have hlastKind := kind_of_broken_identifier hname hlast
      have hmem := Lexer.wordKind_mem part
      simp only [List.mem_cons, List.not_mem_nil, or_false, hword] at hmem
      rcases hmem with hmem | hmem | hmem <;>
        simp [Lexeme.isOpen, hlastKind, hmem, Kind.isTrivia] at hkind
  | brace hmarker hpart hfull =>
      rcases kind_of_broken_marker (Or.inl hmarker) hlast with ⟨_, hbrace⟩ | ⟨hother, _⟩
      · simp [Lexeme.isOpen, hbrace, Kind.isTrivia] at hkind
      · exact hother hpart

/-- A part of a token that a group takes silently is taken silently at the end of a fragment,
unless it is misread. -/
theorem step_broken_silent_iff {strict raw : Setting}
    (hfollows : reader.Follows (significant before)) (hstrict : strict.allowsFragments = false)
    (hraw : raw.allowsFragments = true) (hstop : last.span.stop = raw.size)
    (hsilent : (reader.step strict token).reports = [])
    (hinto : BrokenInto token part last)
    (hlast : last.kind = Lexer.checked (Lexer.brokenKind token.kind part) part) :
    (reader.step raw last).reports = [] ↔ ¬Misread raw.nestingLimit before token part := by
  have hreports := reports_eq_nil_of_suffix (suffix_step strict reader token) hsilent
  have hexpects (hsignificant : token.kind.isTrivia = false) :
      reader.focus.Expects token.kind := by
    rw [step_of_not_isTrivia hsignificant] at hsilent
    exact expects_of_silent hfollows (Setting.isCutInMarker_of_strict hstrict token) hsilent
  cases hinto with
  | trivia htrivia =>
      exact iff_of_true (step_trivia_silent hreports hraw htrivia)
        (not_misread hlast (Or.inl htrivia))
  | changing hopen hsignificant hrecovery =>
      exact iff_of_true
        (step_open_silent hfollows hreports hraw hstop (hexpects hsignificant) hrecovery hopen)
        (not_misread hlast (Or.inr hopen))
  | slash hcomment hpart hkind =>
      have hnot : ¬reader.focus.Expects last.kind := by
        rw [hkind]
        exact not_expects (Or.inl rfl) _
      have hreported : (reader.step raw last).reports ≠ [] :=
        step_unexpected hfollows (by simp [Lexeme.isOpen, hkind]) (by simp [hkind])
          (by simp [hkind, Kind.isTrivia]) hnot
      exact iff_of_false hreported (not_not_intro (.slash hcomment hpart))
  | word hname hkind =>
      have hmem : last.kind ∈ [Kind.trueWord, .falseWord, .nullWord, .identifier] :=
        hkind ▸ Lexer.wordKind_mem part
      have hexpected := hexpects (by rw [hname]; rfl)
      rw [hname] at hexpected
      rw [step_name_silent_iff hfollows hreports hexpected hmem, hkind, misread_iff]
      simp [hname]
  | brace hmarker hpart hkind =>
      rcases hmarker with hmarker | hmarker
      · have hexpected := hexpects (by rw [hmarker]; rfl)
        rw [hmarker] at hexpected
        rw [step_brace_silent_iff hfollows rfl hreports hexpected hkind, misread_iff]
        simp [hmarker, hpart]
      · have hexpected := hexpects (by rw [hmarker]; rfl)
        rw [hmarker] at hexpected
        rw [misread_iff]
        simp [step_closing_silent hfollows hreports hraw hstop hexpected hkind, hmarker]

end Reader

/-! ### Beginnings of a body -/

variable {limit : Option Nat} {source taken : String} {before after : List Lexeme}
  {token : Lexeme}

theorem allSound_of_isSentence {lexemes : List Lexeme} {value : Value}
    (hsentence : IsSentence limit lexemes value) : AllSound lexemes :=
  .of_significant hsentence.closed hsentence.spells.allSound

/-- A group is read without a report as far as these tokens. -/
def ReadsSilently (limit : Option Nat) (source : String) (lexemes : List Lexeme) : Prop :=
  (Reader.start.run ((Options.groupWithin limit).setting source) lexemes).reports = []

namespace ReadsSilently

theorem of_isSilent (hsilent : ((Options.groupWithin limit).parse source).IsSilent) :
    ReadsSilently limit source (lex source) :=
  Reader.reports_eq_nil_of_suffix (Reader.suffix_finish _ _ _)
    ((Body.isSilent_ofOutcome_iff _).mp hsilent)

theorem of_append (hreads : ReadsSilently limit source (before ++ after)) :
    ReadsSilently limit source before := by
  rw [ReadsSilently, Reader.run_append] at hreads
  exact Reader.reports_eq_nil_of_suffix (Reader.suffix_run _ _ _) hreads

theorem of_lex (hsilent : ((Options.groupWithin limit).parse source).IsSilent)
    (hlex : lex source = before ++ after) : ReadsSilently limit source before := by
  have hreads := of_isSilent hsilent
  rw [hlex] at hreads
  exact hreads.of_append

theorem follows (hreads : ReadsSilently limit source before) :
    (Reader.start.run ((Options.groupWithin limit).setting source) before).Follows
      (significant before) :=
  Reader.follows_run Reader.start_follows
    (fun lexeme _ => Setting.isCutInMarker_of_strict rfl lexeme) hreads

theorem step (hreads : ReadsSilently limit source (before ++ [token])) :
    ((Reader.start.run ((Options.groupWithin limit).setting source) before).step
      ((Options.groupWithin limit).setting source) token).reports = [] := by
  rwa [ReadsSilently, Reader.run_append] at hreads

end ReadsSilently

/-- What a beginning of a group is read as depends on its last token alone. -/
theorem parse_of_step {last : Lexeme}
    (hclosed : ∀ lexeme ∈ lex source, lexeme.kind ≠ .unterminatedComment)
    (hlex : lex source = before ++ token :: after) (hlexTaken : lex taken = before ++ [last]) :
    (Options.fragmentWithin limit).parse taken =
      .ofOutcome
        (((Reader.start.run ((Options.groupWithin limit).setting source) before).step
          ((Options.fragmentWithin limit).setting taken) last).finish
          ((Options.fragmentWithin limit).setting taken) false) := by
  let strict := (Options.groupWithin limit).setting source
  let raw := (Options.fragmentWithin limit).setting taken
  have hstops := (stops_of_lex hlexTaken).2
  have hcut : ∀ lexeme ∈ before, raw.isCutIn lexeme = strict.isCutIn lexeme ∧
      raw.isCutInMarker lexeme = strict.isCutInMarker lexeme := by
    intro lexeme hmem
    have hstop : lexeme.span.stop ≠ raw.size := (hstops lexeme hmem).ne
    have hstrict : strict.isCutInMarker lexeme = false :=
      Setting.isCutInMarker_of_strict rfl lexeme
    rw [hstrict, Reader.isCutIn_of_isCutInMarker hstrict]
    simp [Setting.isCutInMarker, Setting.isCutIn, hstop]
  have hclosedBefore : ∀ lexeme ∈ before, lexeme.kind ≠ .unterminatedComment := by
    intro lexeme hmem
    exact hclosed lexeme (by simp [hlex, hmem])
  have hlimit : raw.nestingLimit = strict.nestingLimit := rfl
  have hrun : Reader.start.run raw before = Reader.start.run strict before :=
    Reader.run_congr hlimit hcut hclosedBefore _
  change Body.ofOutcome ((Reader.start.run raw (lex taken)).finish raw false) = _
  rw [hlexTaken, Reader.run_append, hrun]
  rfl

theorem isSilent_iff_step {last : Lexeme}
    (hclosed : ∀ lexeme ∈ lex source, lexeme.kind ≠ .unterminatedComment)
    (hlex : lex source = before ++ token :: after) (hlexTaken : lex taken = before ++ [last]) :
    ((Options.fragmentWithin limit).parse taken).IsSilent ↔
      ((Reader.start.run ((Options.groupWithin limit).setting source) before).step
        ((Options.fragmentWithin limit).setting taken) last).reports = [] := by
  rw [parse_of_step hclosed hlex hlexTaken, Body.isSilent_ofOutcome_iff,
    Reader.finish_reports_of_fragments rfl]

/-- A beginning of a group that stops between two tokens has the tokens before it. -/
theorem lex_of_whole (hsound : AllSound (lex source)) (hlex : lex source = before ++ after)
    (htaken : taken.toList = before.flatMap Lexeme.text) : lex taken = before := by
  have hsoundBefore : ∀ lexeme ∈ before, lexeme.kind.isLexicalError = false :=
    fun lexeme hmem => hsound lexeme (by simp [hlex, hmem])
  have hgarbage : ∀ lexeme ∈ before, lexeme.kind ≠ .garbage := by
    intro lexeme hmem hkind
    have hnot := hsoundBefore lexeme hmem
    rw [hkind] at hnot
    contradiction
  have hlast : ∀ last ∈ before.getLast?, last.kind.isLexicalError = false ∧
      Lexer.Replaces (Lexer.endsBefore last.kind) [] (after.flatMap Lexeme.text) :=
    fun last hmem => ⟨hsoundBefore last (List.mem_of_getLast? hmem), .nil _⟩
  have hagain := lex_append hlex hgarbage hlast
  rw [List.append_nil, ← htaken, String.ofList_toList, Lexer.cut, Lexer.place,
    List.append_nil] at hagain
  exact hagain

theorem isSilent_of_whole_token (hsound : AllSound (lex source))
    (hlex : lex source = before ++ token :: after)
    (hreads : ReadsSilently limit source (before ++ [token]))
    (htaken : taken.toList = (before ++ [token]).flatMap Lexeme.text) :
    ((Options.fragmentWithin limit).parse taken).IsSilent := by
  have hlexTaken := lex_of_whole hsound (hlex.trans (List.append_cons before token after)) htaken
  rw [isSilent_iff_step hsound.closed hlex hlexTaken]
  have hlimit : ((Options.fragmentWithin limit).setting taken).nestingLimit =
      ((Options.groupWithin limit).setting source).nestingLimit := rfl
  exact Reader.step_whole_silent hreads.of_append.follows rfl rfl hlimit hreads.step

theorem isSilent_of_whole (hsilent : ((Options.groupWithin limit).parse source).IsSilent)
    (hlex : lex source = before ++ after) (htaken : taken.toList = before.flatMap Lexeme.text) :
    ((Options.fragmentWithin limit).parse taken).IsSilent := by
  obtain ⟨value, hsentence⟩ := isSentence_of_isSilent hsilent
  have hsound := allSound_of_isSentence hsentence
  rcases List.eq_nil_or_concat' before with rfl | ⟨init, token, rfl⟩
  · rw [Body.IsSilent, Options.parse, lex_of_whole hsound hlex htaken]
    rfl
  · have hreads := ReadsSilently.of_lex hsilent hlex
    rw [List.append_assoc, List.singleton_append] at hlex
    exact isSilent_of_whole_token hsound hlex hreads htaken

/-- A beginning of a group that stops inside a token has the tokens before it and one for the part
of the token. -/
theorem exists_lex_of_broken {part : List Char} (hsound : AllSound (lex source))
    (hbreaks : BreaksOff source taken before token part) :
    ∃ after last, lex source = before ++ token :: after ∧ lex taken = before ++ [last] ∧
      last.kind = Lexer.checked (Lexer.brokenKind token.kind part) part ∧
      Reader.BrokenInto token part last := by
  obtain ⟨after, rest, hlex, htext, hpart, hrest, htaken⟩ := hbreaks
  have hmem : token ∈ lex source := by simp [hlex]
  have hlexTaken := lex_broken hlex hsound htext hpart hrest
  rw [← htaken, String.ofList_toList] at hlexTaken
  refine ⟨after, _, hlex, hlexTaken, rfl, ?_⟩
  exact Reader.brokenInto (hsound token hmem) (isLegible_of_mem_lex hmem)
    (exists_begun?_of_mem_lex hmem (hsound token hmem)) htext hpart hrest rfl rfl

theorem isSilent_of_broken_token_iff {part : List Char} (hsound : AllSound (lex source))
    (hreads : ReadsSilently limit source (before ++ [token]))
    (hbreaks : BreaksOff source taken before token part) :
    ((Options.fragmentWithin limit).parse taken).IsSilent ↔ ¬Misread limit before token part := by
  obtain ⟨after, last, hlex, hlexTaken, hlast, hinto⟩ := exists_lex_of_broken hsound hbreaks
  rw [isSilent_iff_step hsound.closed hlex hlexTaken]
  exact Reader.step_broken_silent_iff hreads.of_append.follows rfl rfl (stops_of_lex hlexTaken).1
    hreads.step hinto hlast

theorem ReadsSilently.of_breaksOff {part : List Char}
    (hsilent : ((Options.groupWithin limit).parse source).IsSilent)
    (hbreaks : BreaksOff source taken before token part) :
    ReadsSilently limit source (before ++ [token]) := by
  obtain ⟨after, _, hlex, _⟩ := hbreaks
  exact .of_lex hsilent (hlex.trans (List.append_cons before token after))

theorem isSilent_of_broken_iff {part : List Char}
    (hsilent : ((Options.groupWithin limit).parse source).IsSilent)
    (hbreaks : BreaksOff source taken before token part) :
    ((Options.fragmentWithin limit).parse taken).IsSilent ↔ ¬Misread limit before token part := by
  obtain ⟨value, hsentence⟩ := isSentence_of_isSilent hsilent
  exact isSilent_of_broken_token_iff (allSound_of_isSentence hsentence)
    (.of_breaksOff hsilent hbreaks) hbreaks

/-- A beginning of a complete body is read as a fragment without a report exactly if it does not
stop inside a token whose part is misread. -/
theorem isSilent_beginning_iff (hsilent : ((Options.groupWithin limit).parse source).IsSilent)
    (htaken : taken.toList <+: source.toList) :
    ((Options.fragmentWithin limit).parse taken).IsSilent ↔
      ¬∃ before token part, BreaksOff source taken before token part ∧
        Misread limit before token part := by
  constructor
  · rintro hquiet ⟨before, token, part, hbreaks, hmisread⟩
    exact (isSilent_of_broken_iff hsilent hbreaks).mp hquiet hmisread
  · intro hread
    obtain ⟨back, hback⟩ := htaken
    have htext : (lex source).flatMap Lexeme.text = taken.toList ++ back := by
      rw [flatMap_lex, hback]
    rcases exists_boundary htext with ⟨before, after, hlex, hwhole⟩ |
      ⟨before, token, after, part, rest, hlex, htoken, hpart, hrest, hbroken⟩
    · exact isSilent_of_whole hsilent hlex hwhole
    · have hbreaks : BreaksOff source taken before token part :=
        ⟨after, rest, hlex, htoken, hpart, hrest, hbroken⟩
      exact (isSilent_of_broken_iff hsilent hbreaks).mpr fun hmisread =>
        hread ⟨before, token, part, hbreaks, hmisread⟩

theorem isSilent_beginning_iff_of_comment :
    ((Options.fragmentWithin (some 1)).parse "[1] //").IsSilent ↔
      ¬∃ before token part, BreaksOff "[1] // ids" "[1] //" before token part ∧
        Misread (some 1) before token part := by
  have hsilent : ((Options.groupWithin (some 1)).parse "[1] // ids").IsSilent := by
    unfold Body.IsSilent
    decide +kernel
  have htaken : "[1] //".toList <+: "[1] // ids".toList := by decide
  exact isSilent_beginning_iff hsilent htaken

/-- A comment of which only the slash is there is reported. -/
theorem not_isSilent_of_slash :
    ¬∀ (limit : Option Nat) (source taken : String),
      ((Options.groupWithin limit).parse source).IsSilent → taken.toList <+: source.toList →
        ((Options.fragmentWithin limit).parse taken).IsSilent := by
  intro hall
  have hsilent : ((Options.groupWithin none).parse "[1] // ids").IsSilent := by
    unfold Body.IsSilent
    decide +kernel
  have htaken : "[1] /".toList <+: "[1] // ids".toList := by decide
  have hquiet := hall none "[1] // ids" "[1] /" hsilent htaken
  have hreported : ((Options.fragmentWithin none).parse "[1] /").diagnostics.isEmpty = false := by
    decide +kernel
  unfold Body.IsSilent at hquiet
  rw [Diagnostics.isEmpty, hquiet] at hreported
  contradiction

end QueryBody
