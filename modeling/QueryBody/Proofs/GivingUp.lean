import QueryBody.Proofs.NestingLimit
import Mathlib.Tactic

/-!
# Giving up

A reader gives up at the bracket that would open one container more than the limit on the
nesting allows.  What it reports there comes last.  It is that the nesting is too deep,
unless the comma or the colon before the bracket is missing: that is reported first, and
only the first report at a place is kept.
-/

namespace QueryBody
namespace Reader

variable {setting : Setting} {lexeme : Lexeme} {limit : Nat} {first last reader : Reader}

/-! ### Open containers -/

theorem Turn.length_openers_le (hturn : Turn setting lexeme first last) :
    last.openers.length ≤ first.openers.length := by
  cases hturn <;> simp [Focus.opener?]

theorem length_openers_of_turns
    (hturns : Relation.ReflTransGen (Turn setting lexeme) first last) :
    last.openers.length ≤ first.openers.length :=
  turns_induction (fun turned => turned.openers.length ≤ first.openers.length)
    (fun _ _ hturn ih => hturn.length_openers_le.trans ih) hturns le_rfl

theorem Shift.length_openers_le (hother : ¬lexeme.Opens)
    (hshift : Shift setting lexeme first last) :
    last.openers.length ≤ first.openers.length := by
  cases hshift with
  | opening hkind hroom => exact (hother hkind).elim
  | tooDeep hkind hexceeded => exact (hother hkind).elim
  | _ => simp [Focus.opener?]

theorem openers_ignore (setting : Setting) (reader : Reader) (lexeme : Lexeme) :
    (reader.ignore setting lexeme).openers = reader.openers := by
  unfold ignore
  split <;> rfl

/-- A token opens a container in the same place under every limit, or it opens none. -/
theorem step_eq_openContainer_or (lexeme : Lexeme) (reader : Reader) :
    (lexeme.Opens ∧ ∃ holes, holes.length = reader.openers.length ∧ ∀ setting,
      reader.step setting lexeme =
        openContainer setting lexeme holes (reader.reportMissing lexeme)) ∨
    ∀ setting, (reader.step setting lexeme).openers.length ≤ reader.openers.length := by
  by_cases hopens : lexeme.Opens
  · have hstep (setting : Setting) : reader.step setting lexeme = reader.take setting lexeme :=
      step_of_not_isTrivia hopens.isTrivia reader
    rcases turns_or_of_opens hopens reader with ⟨holes, hlength, hturns⟩ | hnone
    · refine Or.inl ⟨hopens, holes, hlength, fun setting => ?_⟩
      rw [hstep, ← take_of_turns (hturns setting), take_value_of_opens hopens]
    · exact Or.inr fun setting => (hstep setting).symm ▸ (hnone setting).2
  · refine Or.inr fun setting => ?_
    unfold step
    split
    · rw [openers_ignore]
    · obtain ⟨turned, hturns, hshift⟩ := moves_take setting reader lexeme
      exact (hshift.length_openers_le hopens).trans (length_openers_of_turns hturns)

theorem length_openers_step (hlimit : setting.nestingLimit = some limit)
    (hreader : reader.openers.length ≤ limit) :
    (reader.step setting lexeme).openers.length ≤ limit := by
  rcases step_eq_openContainer_or lexeme reader with ⟨-, holes, hlength, hstep⟩ | hnone
  · rw [hstep, openContainer]
    split
    next hexceeded => exact Nat.zero_le limit
    next hroom =>
      have hlt : holes.length < limit := by
        simpa [Setting.exceeded?, hlimit, Option.filter] using hroom
      simpa [Focus.opener?] using hlt
  · exact (hnone setting).trans hreader

theorem length_openers_run (hlimit : setting.nestingLimit = some limit) (lexemes : List Lexeme)
    (hreader : reader.openers.length ≤ limit) :
    (reader.run setting lexemes).openers.length ≤ limit := by
  induction lexemes generalizing reader with
  | nil => exact hreader
  | cons lexeme rest ih => exact ih (length_openers_step hlimit hreader)

/-! ### The bracket that exceeds the limit -/

/-- With the token, one container more would be open than the limit allows. -/
def GivesUp (setting : Setting) (lexeme : Lexeme) (reader : Reader) : Prop :=
  ∃ limit, setting.nestingLimit = some limit ∧
    (reader.step setting.lifted lexeme).openers.length = limit + 1

theorem GivesUp.run_eq (hlimit : setting.nestingLimit = some limit)
    (hreader : reader.openers.length ≤ limit) (hgives : reader.GivesUp setting lexeme)
    (back : List Lexeme) :
    lexeme.Opens ∧ ∃ root, reader.run setting (lexeme :: back) =
      ⟨.stopped root false, [],
        Report.add (Report.tooDeep limit lexeme) (reader.reportMissing lexeme)⟩ := by
  obtain ⟨bound, hbound, hlength⟩ := hgives
  obtain rfl : limit = bound := Option.some.inj (hlimit.symm.trans hbound)
  rcases step_eq_openContainer_or lexeme reader with ⟨hopens, holes, hholes, hstep⟩ | hnone
  · have hexceeded : setting.exceeded? holes.length = some limit := by
      rw [hstep] at hlength
      have hfull : limit ≤ holes.length := by
        simp [openContainer, Setting.exceeded?, Setting.lifted, Focus.opener?] at hlength
        omega
      simp [Setting.exceeded?, hlimit, Option.filter, hfull]
    refine ⟨hopens, Hole.abandon holes, ?_⟩
    rw [run_cons, hstep, openContainer, hexceeded, run_stopped]
  · have hle := hnone setting.lifted
    omega

theorem not_givesUp_stopped (root : Option Value) (isCut : Bool) (reports : List Diagnostic) :
    ¬GivesUp setting lexeme ⟨.stopped root isCut, [], reports⟩ := by
  rintro ⟨limit, -, hlength⟩
  rw [step_stopped] at hlength
  simp [Focus.opener?] at hlength

theorem OpensTooDeep.givesUp {holes : List Hole} {reports : List Diagnostic}
    (hlimit : setting.nestingLimit = some limit) (hreader : reader.openers.length ≤ limit)
    (hdeep : OpensTooDeep setting lexeme reader holes reports) :
    reader.GivesUp setting lexeme := by
  have hle : holes.length ≤ reader.openers.length := by
    simpa [Focus.opener?] using length_openers_of_turns hdeep.turns
  have hfull : limit ≤ holes.length := hdeep.le_length hlimit
  refine ⟨limit, hlimit, ?_⟩
  rw [hdeep.step_lifted]
  simp [Focus.opener?]
  omega

end Reader

/-- The body that a reader has read up to a token, at which it gives up. -/
structure Options.GivesUpAt (options : Options) (source : String) (front : List Lexeme)
    (lexeme : Lexeme) : Prop where
  lex_eq : ∃ back, lex source = front ++ lexeme :: back
  gives : (Reader.start.run (options.setting source) front).GivesUp (options.setting source) lexeme

/-- The last diagnostic is that something is wrong with a token, and none before it is about the
nesting or as far on. -/
def Body.ReportsLast (lexeme : Lexeme) (problem : Problem) (body : Body) : Prop :=
  ∃ earlier last, body.diagnostics.toList = earlier ++ [last] ∧
    last.token = some lexeme.toToken ∧ last.problem = problem ∧
    ∀ diagnostic ∈ earlier,
      diagnostic.problem ≠ .nestingTooDeep ∧ diagnostic.offset < lexeme.span.start

/-! ### What is reported -/

/-- At the bracket, only what is missing before it is reported, if anything is. -/
theorem Reader.add_tooDeep_reportMissing {reader : Reader} {lexeme : Lexeme}
    (hreports : ∀ earlier ∈ reader.reports, earlier.offset < lexeme.span.start) (limit : Nat) :
    ∃ last, Report.add (Report.tooDeep limit lexeme) (reader.reportMissing lexeme) =
        last :: reader.reports ∧
      last.token = some lexeme.toToken ∧
      last.problem = reader.focus.missing?.getD .nestingTooDeep := by
  unfold reportMissing
  split
  next problem hmissing =>
    refine ⟨Report.instead problem lexeme, ?_, rfl, by rw [hmissing]; rfl⟩
    have hfirst : Report.add (Report.instead problem lexeme) reader.reports =
        Report.instead problem lexeme :: reader.reports := Report.add_of_forall_lt hreports
    rw [hfirst]
    exact if_pos rfl
  next hmissing =>
    exact ⟨Report.tooDeep limit lexeme, Report.add_of_forall_lt hreports, rfl,
      by rw [hmissing]; rfl⟩

namespace Options

variable {options : Options} {source : String} {front : List Lexeme} {lexeme : Lexeme}

theorem GivesUpAt.run_lifted (hgives : options.GivesUpAt source front lexeme) :
    Reader.start.run (options.setting source).lifted front =
      Reader.start.run (options.setting source) front := by
  rcases Reader.run_lifted_or (options.setting source) front Reader.start with hsame | hearlier
  · exact hsame
  · obtain ⟨before, bracket, between, holes, reports, rfl, -, hdeep⟩ := hearlier
    obtain ⟨limit, hlimit, -⟩ := hgives.gives
    have hstopped := hgives.gives
    rw [Reader.run_append, hdeep.run_eq hlimit] at hstopped
    exact (Reader.not_givesUp_stopped _ _ _ hstopped).elim

theorem GivesUpAt.of_mem_reports (hgives : options.GivesUpAt source front lexeme) :
    ∀ diagnostic ∈ (Reader.start.run (options.setting source) front).reports,
      diagnostic.problem ≠ .nestingTooDeep ∧ diagnostic.offset < lexeme.span.start := by
  obtain ⟨back, hlex⟩ := hgives.lex_eq
  have horder := (tiles_lex source).pairwise
  rw [hlex, List.pairwise_append] at horder
  rw [← hgives.run_lifted]
  refine Reader.forall_mem_run ?_
  intro earlier hmem diagnostic hreported
  have hplain := hreported.isPlainAt rfl
  exact ⟨hplain.problem_ne, hplain.offset_eq ▸ horder.2.2 earlier hmem lexeme List.mem_cons_self⟩

theorem GivesUpAt.reportsLast (hgives : options.GivesUpAt source front lexeme) :
    lexeme.Opens ∧ (options.parse source).ReportsLast lexeme
      ((Reader.start.run (options.setting source) front).focus.missing?.getD
        .nestingTooDeep) := by
  obtain ⟨back, hlex⟩ := hgives.lex_eq
  obtain ⟨limit, hlimit, -⟩ := hgives.gives
  have hfront : (Reader.start.run (options.setting source) front).openers.length ≤ limit :=
    Reader.length_openers_run hlimit front (Nat.zero_le limit)
  obtain ⟨hopens, root, hrun⟩ := hgives.gives.run_eq hlimit hfront back
  have hreports := hgives.of_mem_reports
  obtain ⟨last, hadd, htoken, hproblem⟩ :=
    Reader.add_tooDeep_reportMissing (fun earlier hmem => (hreports earlier hmem).2) limit
  refine ⟨hopens, (Reader.start.run (options.setting source) front).reports.reverse, last, ?_,
    htoken, hproblem, fun diagnostic hmem => hreports diagnostic (List.mem_reverse.mp hmem)⟩
  rw [parse, hlex, Reader.run_append, hrun, hadd]
  exact List.reverse_cons

theorem parse_eq_of_not_givesUpAt
    (hnever : ∀ front lexeme, ¬options.GivesUpAt source front lexeme) :
    options.parse source = (options.within none).parse source := by
  have hrun : Reader.start.run ((options.within none).setting source) (lex source) =
      Reader.start.run (options.setting source) (lex source) := by
    rcases Reader.run_lifted_or (options.setting source) (lex source) Reader.start with
      hsame | ⟨front, lexeme, back, holes, reports, hlex, -, hdeep⟩
    · exact hsame
    · obtain ⟨limit, hlimit⟩ : ∃ limit, (options.setting source).nestingLimit = some limit := by
        cases hlimit : (options.setting source).nestingLimit with
        | none => simpa [Setting.exceeded?, hlimit] using hdeep.exceeded
        | some limit => exact ⟨limit, rfl⟩
      have hfront : (Reader.start.run (options.setting source) front).openers.length ≤ limit :=
        Reader.length_openers_run hlimit front (Nat.zero_le limit)
      exact (hnever front lexeme ⟨⟨back, hlex⟩, hdeep.givesUp hlimit hfront⟩).elim
  rw [parse, parse, hrun]
  exact congrArg Body.ofOutcome (Reader.finish_lifted _ _).symm

theorem problem_ne_within_none (options : Options) (source : String) :
    ∀ diagnostic ∈ ((options.within none).parse source).diagnostics.toList,
      diagnostic.problem ≠ .nestingTooDeep :=
  forall_mem_diagnostics (fun _ _ _ hreported => (hreported.isPlainAt rfl).problem_ne)
    fun _ hatEnd => hatEnd.problem_ne

end Options

/-- A reader that gives up the rest of a body does so at an opening bracket, and what it reports
there is the last report: that the comma or the colon before the bracket is missing, if one is,
and otherwise that the nesting is too deep.  Apart from that, nothing is reported about the
nesting. -/
theorem diagnostics_givesUpAt (options : Options) (source : String) :
    (∀ front lexeme, options.GivesUpAt source front lexeme →
      lexeme.Opens ∧ (options.parse source).ReportsLast lexeme
        ((Reader.start.run (options.setting source) front).focus.missing?.getD
          .nestingTooDeep)) ∧
    ((∀ front lexeme, ¬options.GivesUpAt source front lexeme) →
      ∀ diagnostic ∈ (options.parse source).diagnostics.toList,
        diagnostic.problem ≠ .nestingTooDeep) :=
  ⟨fun _ _ hgives => hgives.reportsLast, fun hnever =>
    Options.parse_eq_of_not_givesUpAt hnever ▸ options.problem_ne_within_none source⟩

/-- The third bracket is inside as many containers as the limit allows. -/
theorem diagnostics_givesUpAt_of_brackets :
    ∃ front lexeme, ((Options.groupWithin (some 2)).GivesUpAt "[[[1]]]" front lexeme ∧
      lexeme.span = ⟨2, 3⟩) ∧
      ((Options.groupWithin (some 2)).parse "[[[1]]]").ReportsLast lexeme .nestingTooDeep := by
  have hgives : (Options.groupWithin (some 2)).GivesUpAt "[[[1]]]"
      ((lex "[[[1]]]").take 2) ⟨⟨.bracketOpen, ⟨2, 3⟩⟩, ['[']⟩ := by
    refine ⟨⟨(lex "[[[1]]]").drop 3, by decide +kernel⟩, 2, rfl, by decide +kernel⟩
  have hfocus : (Reader.start.run ((Options.groupWithin (some 2)).setting "[[[1]]]")
      ((lex "[[[1]]]").take 2)).focus.missing? = none := by decide +kernel
  have hlast := ((diagnostics_givesUpAt _ _).1 _ _ hgives).2
  rw [hfocus] at hlast
  exact ⟨_, _, ⟨hgives, rfl⟩, hlast⟩

/-- The reader gives up at the bracket, but only the missing colon is reported. -/
theorem givesUpAt_without_report :
    (∃ front lexeme,
      (Options.groupWithin (some 1)).GivesUpAt "\x7b\"a\" [1]\x7d" front lexeme) ∧
    ((Options.groupWithin (some 1)).parse "\x7b\"a\" [1]\x7d").diagnostics.toList.map
      (·.problem) = [.expectedColon] := by
  constructor
  · refine ⟨(lex "\x7b\"a\" [1]\x7d").take 3, ⟨⟨.bracketOpen, ⟨5, 6⟩⟩, ['[']⟩, ?_⟩
    exact ⟨⟨(lex "\x7b\"a\" [1]\x7d").drop 4, by decide +kernel⟩, 1, rfl, by decide +kernel⟩
  · decide +kernel

end QueryBody
