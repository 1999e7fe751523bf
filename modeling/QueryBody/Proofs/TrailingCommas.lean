import QueryBody.Proofs.Deletion
import QueryBody.Proofs.MissingSeparators
import Mathlib.Tactic

/-!
# Trailing commas

A body in which nothing but trailing commas is wrong is read as if they were not there.  A
reader that takes a trailing comma waits for a part where one that has not seen the comma
waits for a separator, and the closing bracket after it leads both to the same place.  The
other tokens are taken without a report by both, as any report about them would be about
something else.
-/

namespace QueryBody

/-- The reports about trailing commas, the latest first. -/
def commaReports (commas : List Lexeme) : List Diagnostic :=
  (commas.map fun comma => Report.trailingComma comma.toToken).reverse

/-- Nothing but trailing commas is reported. -/
def OnlyCommas (reports : List Diagnostic) : Prop :=
  ∀ diagnostic ∈ reports, diagnostic.problem = .trailingComma

theorem commaReports_concat (commas : List Lexeme) (comma : Lexeme) :
    commaReports (commas ++ [comma]) =
      Report.trailingComma comma.toToken :: commaReports commas := by
  simp [commaReports]

theorem offset_lt_of_mem_commaReports {commas : List Lexeme} {offset : Nat}
    (hcommas : ∀ comma ∈ commas, comma.span.start < offset) :
    ∀ report ∈ commaReports commas, report.offset < offset := by
  intro report hmem
  obtain ⟨comma, hcomma, rfl⟩ := List.mem_map.mp (List.mem_reverse.mp hmem)
  exact hcommas comma hcomma

theorem start_lt_of_ordered {commas rest : List Lexeme} {lexeme : Lexeme}
    (hordered : (commas ++ lexeme :: rest).Pairwise
      fun earlier later => earlier.span.start < later.span.start) :
    ∀ comma ∈ commas, comma.span.start < lexeme.span.start := fun comma hmem =>
  (List.pairwise_append.mp hordered).2.2 comma hmem lexeme List.mem_cons_self

namespace OnlyCommas

variable {reports later : List Diagnostic} {diagnostic : Diagnostic}

theorem of_suffix (honly : OnlyCommas later) (hsuffix : reports <:+ later) : OnlyCommas reports :=
  fun diagnostic hmem => honly diagnostic (hsuffix.subset hmem)

theorem problem_eq_of_add (honly : OnlyCommas later)
    (hsuffix : Report.add diagnostic reports <:+ later)
    (hearlier : ∀ report ∈ reports, report.offset < diagnostic.offset) :
    diagnostic.problem = .trailingComma := by
  rw [Report.add_of_forall_lt hearlier] at hsuffix
  exact honly diagnostic (hsuffix.subset List.mem_cons_self)

end OnlyCommas

namespace Reader

variable {setting : Setting} {lexeme : Lexeme} {rest commas front : List Lexeme}
  {reader clean : Reader}

/-- The first reader has reported the trailing commas before the rest, and the second one, which
has not seen them, nothing.  Behind a trailing comma the first one waits for a part where the
second one waits for a separator. -/
inductive Trails (rest : List Lexeme) : List Lexeme → Reader → Reader → Prop
  | even {commas : List Lexeme} {clean : Reader} (hsilent : clean.reports = [])
      (hopen : ∀ diagnostic, clean.ReportsComma diagnostic → closesNext rest = false) :
      Trails rest commas (clean.withReports (commaReports commas)) clean
  | behind {commas : List Lexeme} {comma : Lexeme} {container : Container} {holes : List Hole}
      (hcloses : closesNext rest = true) :
      Trails rest (commas ++ [comma])
        ⟨.part container (some comma.toToken), holes, commaReports commas⟩
        ⟨.separator container, holes, []⟩

namespace Trails

theorem silent (htrails : Trails rest commas reader clean) : clean.reports = [] := by
  cases htrails with
  | even hsilent hopen => exact hsilent
  | behind hcloses => rfl

theorem isStopped (htrails : Trails rest commas reader clean) (hfollows : clean.Follows front) :
    reader.isStopped = false := by
  cases htrails with
  | even hsilent hopen => exact hfollows.isStopped
  | behind hcloses => rfl

theorem closesNext_congr (htrails : Trails rest commas reader clean) {next : List Lexeme}
    (hsame : closesNext next = closesNext rest) : Trails next commas reader clean := by
  cases htrails with
  | even hsilent hopen => exact .even hsilent fun diagnostic hcomma => by rw [hsame, hopen _ hcomma]
  | behind hcloses => exact .behind (hsame.trans hcloses)

theorem reports_eq (htrails : Trails rest commas reader clean) :
    ∃ earlier, earlier <+: commas ∧ reader.reports = commaReports earlier := by
  cases htrails with
  | even hsilent hopen => exact ⟨commas, List.prefix_rfl, rfl⟩
  | behind hcloses => exact ⟨_, List.prefix_append _ _, rfl⟩

theorem offset_lt (htrails : Trails rest commas reader clean) {offset : Nat}
    (hearlier : ∀ comma ∈ commas, comma.span.start < offset) :
    ∀ report ∈ reader.reports, report.offset < offset := by
  obtain ⟨earlier, htaken, hreports⟩ := htrails.reports_eq
  rw [hreports]
  exact offset_lt_of_mem_commaReports fun comma hmem => hearlier comma (htaken.subset hmem)

section

variable (hstrict : setting.allowsFragments = false)
  (hearlier : ∀ comma ∈ commas, comma.span.start < lexeme.span.start)

include hstrict hearlier

theorem step_trivia (htrails : Trails (lexeme :: rest) commas reader clean)
    (hfollows : clean.Follows front) (htrivia : lexeme.kind.isTrivia = true)
    (honly : OnlyCommas (reader.step setting lexeme).reports) :
    Trails rest commas (reader.step setting lexeme) (clean.step setting lexeme) := by
  have hclosed : lexeme.kind ≠ .unterminatedComment := by
    intro hkind
    have hreported : (reader.step setting lexeme).reports =
        Report.add (Report.openComment lexeme) reader.reports := by
      simp [step, hkind, Kind.isTrivia, ignore, hstrict, htrails.isStopped hfollows]
    have hlater : ∀ report ∈ reader.reports, report.offset < lexeme.span.start :=
      htrails.offset_lt hearlier
    have hproblem := honly.problem_eq_of_add (by rw [hreported]) hlater
    contradiction
  have hignore (reader : Reader) : reader.step setting lexeme = reader := by
    simp [step, htrivia, ignore, hclosed]
  rw [hignore, hignore]
  exact htrails.closesNext_congr (closesNext_cons_of_isTrivia htrivia rest).symm

/-- A token is taken after reports about trailing commas as without them, unless it closes a
container right after a comma. -/
theorem take_even (hsilent : clean.reports = [])
    (hopen : ∀ diagnostic, clean.ReportsComma diagnostic →
      ¬∃ container : Container, lexeme.kind = container.closer)
    (honly : OnlyCommas
      ((clean.withReports (commaReports commas)).take setting lexeme).reports) :
    (clean.take setting lexeme).reports = [] ∧
      (clean.withReports (commaReports commas)).take setting lexeme =
        (clean.take setting lexeme).withReports (commaReports commas) := by
  have hclean : clean = (clean.withReports (commaReports commas)).withReports [] := by
    rw [← hsilent]
    rfl
  rcases take_quiet_or hstrict lexeme (clean.withReports (commaReports commas)) with
    ⟨-, hquiet⟩ | ⟨diagnostic, ⟨hreported, hother⟩ | ⟨hcomma, hcloser⟩, hsuffix⟩
  · have htaken := hquiet []
    rw [← hclean] at htaken
    rw [htaken]
    exact ⟨rfl, hquiet (commaReports commas)⟩
  · refine absurd (honly.problem_eq_of_add hsuffix ?_) hother
    rw [hreported.offset_eq]
    exact offset_lt_of_mem_commaReports hearlier
  · exact absurd hcloser (hopen diagnostic hcomma)

omit hstrict in
/-- A reader behind a trailing comma closes the container and reports the comma, the other one
only closes it. -/
theorem take_behind {comma : Lexeme} {container : Container} {holes : List Hole}
    (hcommas : ∀ earlier ∈ commas, earlier.span.start < comma.span.start)
    (hcloser : lexeme.kind.IsCloser)
    (honly : OnlyCommas
      (take setting ⟨.part container (some comma.toToken), holes, commaReports commas⟩
        lexeme).reports) :
    take setting ⟨.part container (some comma.toToken), holes, commaReports commas⟩ lexeme =
        (deliver (some container.value) holes []).withReports (commaReports (commas ++ [comma])) ∧
      take setting ⟨.separator container, holes, []⟩ lexeme =
        deliver (some container.value) holes [] := by
  have hkind : lexeme.kind = container.closer := by
    by_contra hmismatched
    have hrecovery : KindSet.valueRecovery.contains lexeme.kind = true ∧ lexeme.kind ≠ .comma := by
      rcases hcloser with hkind | hkind <;> rw [hkind] <;> exact ⟨rfl, Kind.noConfusion⟩
    have hturn : Turn setting lexeme
        ⟨.part container (some comma.toToken), holes, commaReports commas⟩ _ :=
      .mismatchedPart hrecovery.1 hrecovery.2 hmismatched
    rw [hturn.take_eq] at honly
    have hsuffix := suffix_take setting (deliver (some container.value) holes
      (Report.add (Report.mismatched container lexeme) (commaReports commas))) lexeme
    rw [deliver_reports] at hsuffix
    have hproblem := honly.problem_eq_of_add hsuffix (offset_lt_of_mem_commaReports hearlier)
    contradiction
  refine ⟨?_, take_separator_closer hkind holes []⟩
  rw [take_part_closer hkind, withReports_deliver, commaReports_concat]
  exact congrArg _ (Report.add_of_forall_lt (offset_lt_of_mem_commaReports hcommas))

end

section

variable (hstrict : setting.allowsFragments = false)
  (hordered : (commas ++ lexeme :: rest).Pairwise
    fun earlier later => earlier.span.start < later.span.start)

include hstrict hordered

theorem take_kept (htrails : Trails (lexeme :: rest) commas reader clean)
    (hshown : lexeme.kind.isTrivia = false)
    (hkept : ¬(lexeme.kind = .comma ∧ closesNext rest = true))
    (honly : OnlyCommas (reader.take setting lexeme).reports) :
    Trails rest commas (reader.take setting lexeme) (clean.take setting lexeme) := by
  have hearlier := start_lt_of_ordered hordered
  cases htrails with
  | even hsilent hopen =>
      have hinside (diagnostic : Diagnostic) (hcomma : clean.ReportsComma diagnostic) :
          ¬∃ container : Container, lexeme.kind = container.closer := by
        rintro ⟨container, hcloser⟩
        -- before a closing bracket the comma would be a trailing one
        have hother := hopen diagnostic hcomma
        rw [closesNext_cons_of_not_isTrivia hshown, hcloser] at hother
        exact of_decide_eq_false hother container.closer_isCloser
      obtain ⟨htaken, hsame⟩ := take_even hstrict hearlier hsilent hinside honly
      rw [hsame]
      refine .even htaken fun diagnostic hcomma => ?_
      exact Bool.eq_false_of_not_eq_true fun hcloses =>
        hkept ⟨(take_reportsComma hcomma).1, hcloses⟩
  | behind hcloses =>
      rename_i earlier comma container holes
      rw [closesNext_cons_of_not_isTrivia hshown] at hcloses
      rw [List.forall_mem_append] at hearlier
      rw [List.append_assoc] at hordered
      obtain ⟨hreported, hquiet⟩ := take_behind hearlier.1 (start_lt_of_ordered hordered)
        (of_decide_eq_true hcloses) honly
      rw [hreported, hquiet]
      exact .even (deliver_reports _ _ _) fun diagnostic hcomma =>
        (not_reportsComma_deliver _ _ _ _ hcomma).elim

theorem take_trailing (htrails : Trails (lexeme :: rest) commas reader clean)
    (hfollows : clean.Follows front) (hkind : lexeme.kind = .comma)
    (hcloses : closesNext rest = true) (honly : OnlyCommas (reader.take setting lexeme).reports) :
    Trails rest (commas ++ [lexeme]) (reader.take setting lexeme) clean := by
  have hshown : lexeme.kind.isTrivia = false := by rw [hkind]; rfl
  have hnoCloser : ¬lexeme.kind.IsCloser := by rw [hkind]; decide
  have hearlier := start_lt_of_ordered hordered
  cases htrails with
  | even hsilent hopen =>
      have hinside (diagnostic : Diagnostic) (_ : clean.ReportsComma diagnostic) :
          ¬∃ container : Container, lexeme.kind = container.closer := by
        rintro ⟨container, hcloser⟩
        exact hnoCloser (hcloser ▸ container.closer_isCloser)
      obtain ⟨htaken, hsame⟩ := take_even hstrict hearlier hsilent hinside honly
      have hcrosses := crosses_take hfollows hstrict (by rw [hkind]; rfl) htaken
      rw [hsame]
      generalize clean.take setting lexeme = next at *
      cases hcrosses with
      | comma _ container holes reports =>
          obtain rfl : reports = [] := hsilent
          exact .behind hcloses
      | colon hcolon opener members key holes reports =>
          rw [hcolon] at hkind
          contradiction
  | behind hother =>
      rw [closesNext_cons_of_not_isTrivia hshown] at hother
      exact (hnoCloser (of_decide_eq_true hother)).elim

end

/-- The trailing commas are all that the first reader takes and reports besides. -/
theorem run (htrails : Trails rest commas reader clean) (hfollows : clean.Follows front)
    (hstrict : setting.allowsFragments = false)
    (hordered : (commas ++ rest).Pairwise
      fun earlier later => earlier.span.start < later.span.start)
    (honly : OnlyCommas (reader.run setting rest).reports) :
    Trails [] (commas ++ trailingCommas rest) (reader.run setting rest)
      (clean.run setting (withoutTrailing rest)) := by
  induction rest generalizing commas reader clean front with
  | nil => simpa [trailingCommas, withoutTrailing] using htrails
  | cons lexeme rest ih =>
      rw [run_cons] at honly ⊢
      have hstep := honly.of_suffix (suffix_run setting _ rest)
      rw [trailingCommas, withoutTrailing]
      split
      next htrailing =>
        have hshown : lexeme.kind.isTrivia = false := by rw [htrailing.1]; rfl
        rw [step_of_not_isTrivia hshown] at honly hstep ⊢
        have hnext := htrails.take_trailing hstrict hordered hfollows htrailing.1 htrailing.2 hstep
        -- the comma joins those that have been reported or wait to be
        rw [List.append_cons] at hordered ⊢
        exact ih hnext hfollows hordered honly
      next hkept =>
        have hearlier := start_lt_of_ordered hordered
        have hnext : Trails rest commas (reader.step setting lexeme)
            (clean.step setting lexeme) := by
          cases hshown : lexeme.kind.isTrivia with
          | true => exact htrails.step_trivia hstrict hearlier hfollows hshown hstep
          | false =>
              rw [step_of_not_isTrivia hshown] at hstep ⊢
              rw [step_of_not_isTrivia hshown]
              exact htrails.take_kept hstrict hordered hshown hkept hstep
        have hfollowsNext :=
          follows_step hfollows (Setting.isCutInMarker_of_strict hstrict lexeme) hnext.silent
        rw [run_cons]
        refine ih hnext hfollowsNext (hordered.sublist ?_) honly
        exact (List.sublist_cons_self lexeme rest).append_left commas

theorem start (lexemes : List Lexeme) : Trails lexemes [] Reader.start Reader.start := by
  have hstart : Trails lexemes [] (Reader.start.withReports (commaReports [])) Reader.start := by
    refine .even rfl ?_
    rintro diagnostic ⟨container, comma, hfocus, -⟩
    contradiction
  exact hstart

theorem eq_of_end (htrails : Trails [] commas reader clean) :
    reader = clean.withReports (commaReports commas) := by
  cases htrails with
  | even hsilent hopen => rfl
  | behind hcloses => contradiction

end Trails

theorem Follows.withReports (hfollows : reader.Follows front) (reports : List Diagnostic) :
    (reader.withReports reports).Follows front := by
  cases hfollows <;> constructor <;> assumption

/-- A reader that has reported only trailing commas has read a value if nothing else is reported
at the end of the body. -/
theorem finished_of_onlyCommas (hfollows : reader.Follows front)
    (hstrict : setting.allowsFragments = false)
    (hearlier : ∀ report ∈ reader.reports, report.offset < setting.size)
    (honly : OnlyCommas (reader.finish setting true).reports) :
    ∃ value, Spells value front ∧ reader = ⟨.finished (some value), [], reader.reports⟩ := by
  refine (finished_or_reportsEnd hfollows hstrict).resolve_right ?_
  rintro ⟨diagnostic, hoffset, hsuffix⟩
  obtain ⟨later, hreports, hlater⟩ :=
    since_finish (fun _ hend => hend) (.refl (Report.AtEnd setting.size) reader.reports) true
  -- the report at the end is one of those that `finish` has added
  rw [Report.add_of_forall_lt (hoffset ▸ hearlier), hreports] at hsuffix
  have hnone : later = [] := by
    refine List.eq_nil_iff_forall_not_mem.mpr fun report hmem => ?_
    have hcomma := honly report (hreports ▸ List.mem_append_left _ hmem)
    have hend := (hlater report hmem).problem_mem
    rw [hcomma] at hend
    exact absurd hend (by decide)
  have hlength := hsuffix.length_le
  rw [hnone] at hlength
  simp at hlength

end Reader

/-! ### The body without its trailing commas -/

/-- Without its trailing commas a body in which nothing else is wrong is a sentence, and its value
is read from the body with them. -/
theorem parse_of_onlyCommas {limit : Option Nat} {source : String}
    (honly : OnlyCommas ((Options.groupWithin limit).parse source).diagnostics.toList) :
    ∃ value, IsSentence limit (withoutTrailing (lex source)) value ∧
      (Options.groupWithin limit).parse source =
        ⟨some value, ⟨(commaReports (trailingCommas (lex source))).reverse⟩, false⟩ := by
  let strict := (Options.groupWithin limit).setting source
  let commas := trailingCommas (lex source)
  let reader := Reader.start.run strict (lex source)
  let clean := Reader.start.run strict (withoutTrailing (lex source))
  have hfinish : OnlyCommas (reader.finish strict true).reports :=
    fun diagnostic hmem => honly diagnostic (List.mem_reverse.mpr hmem)
  have htrails : Reader.Trails [] commas reader clean := by
    have hordered := (tiles_lex source).pairwise
    exact (Reader.Trails.start _).run Reader.start_follows rfl hordered
      (hfinish.of_suffix (Reader.suffix_finish _ _ _))
  have hfollows := Reader.follows_run Reader.start_follows
    (fun lexeme _ => Setting.isCutInMarker_of_strict rfl lexeme) htrails.silent
  have hreader : reader = clean.withReports (commaReports commas) := htrails.eq_of_end
  have hearlier : ∀ report ∈ reader.reports, report.offset < strict.size := by
    rw [hreader]
    refine offset_lt_of_mem_commaReports fun comma hmem => ?_
    obtain ⟨-, hstart, hstop⟩ := (tiles_lex source).mem ((trailingCommas_sublist _).subset hmem)
    exact hstart.trans_le hstop
  obtain ⟨value, hspells, hread⟩ := Reader.finished_of_onlyCommas
    (hreader ▸ hfollows.withReports (commaReports commas)) rfl hearlier hfinish
  have hparse : (Options.groupWithin limit).parse source =
      ⟨some value, ⟨(commaReports commas).reverse⟩, false⟩ := by
    rw [Options.parse, show Reader.start.run _ _ = _ from hread, hreader]
    rfl
  refine ⟨value, ⟨?_, hspells, ?_⟩, hparse⟩
  · exact Reader.closed_of_silent Reader.start_follows rfl htrails.silent
  · exact allows_nesting_of_root (by rw [hparse])

theorem AllSound.of_withoutTrailing {lexemes : List Lexeme}
    (hsound : AllSound (withoutTrailing lexemes)) : AllSound lexemes := by
  induction lexemes with
  | nil => exact hsound
  | cons lexeme rest ih =>
      rw [withoutTrailing] at hsound
      split at hsound
      next htrailing =>
        refine List.forall_mem_cons.mpr ⟨?_, ih hsound⟩
        rw [htrailing.1]
        rfl
      · obtain ⟨hfirst, hrest⟩ := List.forall_mem_cons.mp hsound
        exact List.forall_mem_cons.mpr ⟨hfirst, ih hrest⟩

theorem edits_commaReports (commas : List Lexeme) :
    Diagnostics.edits ⟨(commaReports commas).reverse⟩ = deletions commas := by
  rw [commaReports, List.reverse_reverse, Diagnostics.edits, List.filterMap_map]
  exact congrFun (List.filterMap_eq_map (f := fun comma : Lexeme => (comma.span, []))) commas

/-- If only trailing commas are wrong in a body, every fix deletes the range of its diagnostic.
With all fixes applied the body is read silently, and as the same as before. -/
theorem parse_apply_edits (limit : Option Nat) (source : String)
    (honly : ∀ diagnostic ∈ ((Options.groupWithin limit).parse source).diagnostics.toList,
      diagnostic.problem = .trailingComma) :
    let body := (Options.groupWithin limit).parse source
    let mended := (Options.groupWithin limit).parse (body.diagnostics.edits.apply source)
    body.diagnostics.edits = body.diagnostics.toList.map (fun diagnostic => (diagnostic.span, [])) ∧
      mended.IsSilent ∧
      ∃ datum, body.datum? = some datum ∧ mended.datum? = some datum := by
  intro body mended
  obtain ⟨value, hsentence, hbody⟩ := parse_of_onlyCommas honly
  let commas := trailingCommas (lex source)
  have hedits : body.diagnostics.edits = deletions commas := by
    rw [show body = _ from hbody]
    exact edits_commaReports commas
  have hdeletes : deletions commas =
      body.diagnostics.toList.map fun diagnostic => (diagnostic.span, []) := by
    rw [show body = _ from hbody, commaReports, List.reverse_reverse, List.map_map]
    rfl
  let other := (deletions commas).apply source
  have hshown : (significant (lex other)).Sublist (lex other) := List.filter_sublist
  obtain ⟨hpieces, hclosed⟩ :=
    lex_apply_deletions (AllSound.of_withoutTrailing (allSound_of_isSentence hsentence))
  obtain ⟨same, hsame, hrun⟩ := exists_run_of_pieces rfl
    (List.filter_sublist.trans (withoutTrailing_sublist (lex source))) hshown
    (fun lexeme hmem => isTrivia_of_mem_significant hmem) hpieces
    (run_significant_of_isSentence hsentence other)
  have hmended : mended = ⟨some same, .empty, false⟩ := by
    rw [show mended = (Options.groupWithin limit).parse other from
      congrArg (fun edits : Edits => Options.parse _ (edits.apply source)) hedits, Options.parse,
      Reader.run_significant (Or.inr hclosed), show Reader.start.run _ _ = _ from hrun]
    rfl
  refine ⟨hedits.trans hdeletes, ?_, value.datum, ?_, ?_⟩
  · rw [hmended]
    rfl
  · rw [show body = _ from hbody]
    rfl
  · rw [hmended, ← hsame]
    rfl

theorem parse_apply_edits_nested :
    let source := "\x7b\"a\": [1, 2, /* b */ ],\n\x7d"
    let body := (Options.groupWithin (some 2)).parse source
    let mended := (Options.groupWithin (some 2)).parse "\x7b\"a\": [1, 2 /* b */ ]\n\x7d"
    body.diagnostics.toList.map (·.problem) = [.trailingComma, .trailingComma] ∧
      mended.IsSilent ∧ ∃ datum, body.datum? = some datum ∧ mended.datum? = some datum := by
  intro source body mended
  have hproblems : body.diagnostics.toList.map (·.problem) = [.trailingComma, .trailingComma] := by
    decide +kernel
  have honly : ∀ diagnostic ∈ body.diagnostics.toList, diagnostic.problem = .trailingComma := by
    intro diagnostic hmem
    have hproblem : diagnostic.problem ∈ [Problem.trailingComma, .trailingComma] :=
      hproblems ▸ List.mem_map_of_mem hmem
    simpa using hproblem
  have hmended :
      body.diagnostics.edits.apply source = "\x7b\"a\": [1, 2 /* b */ ]\n\x7d" := by
    decide +kernel
  obtain ⟨-, hsilent, hdata⟩ := parse_apply_edits (some 2) source honly
  rw [hmended] at hsilent hdata
  exact ⟨hproblems, hsilent, hdata⟩

end QueryBody
