import QueryBody.Proofs.ConfinedErrors
import QueryBody.Proofs.LaterReports
import Mathlib.Tactic

/-!
# Matching brackets

While the brackets of a body match, the brackets that its tokens have to close are those of
the open containers and, inside these, those that are skipped.  A skip counts brackets and
does not look at their kinds, so it says nothing of the kinds itself; the tokens do.
Between two tokens this holds of every reader, whatever else is wrong, and so no bracket is
reported.
-/

namespace QueryBody

/-- What is wrong with brackets that do not match. -/
def Problem.ofBrackets : List Problem := [.mismatchedDelimiter, .unclosedObject, .unclosedArray]

/-- The diagnostic is not about brackets that do not match. -/
def Diagnostic.SparesBrackets (diagnostic : Diagnostic) : Prop :=
  diagnostic.problem ∉ Problem.ofBrackets

/-! ### Brackets to be closed -/

/-- A token of this kind opens a bracket, closes the innermost one or is no bracket.  The lists
are the closing brackets that are needed before and after it, the innermost first. -/
inductive Kind.Passes (kind : Kind) : List Kind → List Kind → Prop
  | token {pending : List Kind} (hopener : kind.closer? = none) (hcloser : ¬kind.IsCloser) :
      Passes kind pending pending
  | opening {closer : Kind} {pending : List Kind} (hpair : kind.closer? = some closer) :
      Passes kind pending (closer :: pending)
  | closing {pending : List Kind} (hcloser : kind.IsCloser) :
      Passes kind (kind :: pending) pending

/-- The tokens close these brackets and all that they open themselves. -/
inductive Closes : List Kind → List Lexeme → Prop
  | nil : Closes [] []
  | cons {lexeme : Lexeme} {rest : List Lexeme} {pending next : List Kind}
      (hfirst : lexeme.kind.Passes pending next) (hrest : Closes next rest) :
      Closes pending (lexeme :: rest)

namespace Kind

variable {kind closer : Kind} {pending next : List Kind}

theorem closer?_of_isCloser (hcloser : kind.IsCloser) : kind.closer? = none := by
  rcases hcloser with rfl | rfl <;> rfl

theorem not_isCloser_of_closer? (hpair : kind.closer? = some closer) : ¬kind.IsCloser := by
  intro hcloser
  rw [closer?_of_isCloser hcloser] at hpair
  contradiction

namespace Passes

theorem eq_of_token (hpasses : kind.Passes pending next) (hopener : kind.closer? = none)
    (hcloser : ¬kind.IsCloser) : next = pending := by
  cases hpasses with
  | token => rfl
  | opening hpair => rw [hopener] at hpair; contradiction
  | closing hisCloser => contradiction

theorem eq_of_opener (hpasses : kind.Passes pending next) (hpair : kind.closer? = some closer) :
    next = closer :: pending := by
  cases hpasses with
  | token hopener => rw [hopener] at hpair; contradiction
  | opening hother =>
      rw [hpair] at hother
      cases hother
      rfl
  | closing hcloser => exact (not_isCloser_of_closer? hpair hcloser).elim

theorem eq_of_isCloser (hpasses : kind.Passes pending next) (hcloser : kind.IsCloser) :
    pending = kind :: next := by
  cases hpasses with
  | token hopener hother => contradiction
  | opening hpair => exact (not_isCloser_of_closer? hpair hcloser).elim
  | closing => rfl

end Passes

theorem plain_of_isTrivia (htrivia : kind.isTrivia = true) :
    kind.closer? = none ∧ ¬kind.IsCloser := by
  cases kind <;> first | contradiction | exact ⟨rfl, by simp [IsCloser]⟩

theorem isCloser_of_valueRecovery (hrecovery : KindSet.valueRecovery.contains kind = true)
    (hcomma : kind ≠ .comma) : kind.IsCloser := by
  by_contra hcloser
  rw [not_valueRecovery hcloser hcomma] at hrecovery
  contradiction

end Kind

theorem closes_of_significant {lexemes : List Lexeme} {pending : List Kind}
    (hcloses : Closes pending (significant lexemes)) : Closes pending lexemes := by
  induction lexemes generalizing pending with
  | nil => exact hcloses
  | cons lexeme rest ih =>
      by_cases htrivia : lexeme.kind.isTrivia = true
      · rw [significant_cons_of_isTrivia htrivia] at hcloses
        obtain ⟨hopener, hcloser⟩ := Kind.plain_of_isTrivia htrivia
        exact .cons (.token hopener hcloser) (ih hcloses)
      · rw [significant_cons_of_not_isTrivia (Bool.eq_false_of_not_eq_true htrivia)] at hcloses
        cases hcloses with
        | cons hfirst hrest => exact .cons hfirst (ih hrest)

/-- Tokens in which the brackets match close what the tokens after them close. -/
theorem Balanced.closes {pieces : List (Kind × List Char)} (hbalanced : Balanced pieces)
    {lexemes rest : List Lexeme} {pending : List Kind}
    (hpieces : lexemes.map Lexeme.piece = pieces) (hrest : Closes pending rest) :
    Closes pending (lexemes ++ rest) := by
  induction hbalanced generalizing lexemes rest pending with
  | nil =>
      rw [List.map_eq_nil_iff] at hpieces
      rw [hpieces]
      exact hrest
  | token hopener hcloser _ ih =>
      obtain ⟨first, others, rfl, rfl, hothers⟩ := List.map_eq_cons_iff.mp hpieces
      exact .cons (.token hopener hcloser) (ih hothers hrest)
  | group hpair _ _ ihinner ihafter =>
      obtain ⟨first, others, rfl, rfl, hothers⟩ := List.map_eq_cons_iff.mp hpieces
      obtain ⟨inside, after, rfl, hinside, hafter⟩ := List.map_eq_append_iff.mp hothers
      obtain ⟨last, outside, rfl, rfl, houtside⟩ := List.map_eq_cons_iff.mp hafter
      have hlast : Closes (last.kind :: pending) (last :: (outside ++ rest)) :=
        .cons (.closing (Kind.isCloser_of_closer? hpair)) (ihafter houtside hrest)
      rw [List.cons_append, List.append_assoc]
      exact .cons (.opening hpair) (ihinner hinside hlast)

/-! ### What a reader has to close -/

def Hole.closer : Hole → Kind
  | item _ _ => .bracketClose
  | property _ _ _ => .braceClose

@[simp] theorem Hole.closer_fill (hole : Hole) (value : Option Value) :
    (hole.fill value).closer = hole.closer := by
  cases hole <;> cases value <;> rfl

namespace Focus

/-- The bracket that closes the container that is being read. -/
def closer? : Focus → Option Kind
  | part container _ | separator container | skip _ container _ => some container.closer
  | colon _ _ _ => some .braceClose
  | _ => none

/-- How many brackets are open in what is skipped. -/
def depth : Focus → Nat
  | skip depth _ _ | skipParameter depth => depth
  | _ => 0

end Focus

namespace Reader

open Report

variable {setting : Setting} {lexeme : Lexeme} {first last reader : Reader}
  {pending next : List Kind}

/-- The brackets that close the open containers, the innermost first. -/
def closers (reader : Reader) : List Kind :=
  reader.focus.closer?.toList ++ reader.holes.map Hole.closer

@[simp] theorem closers_mk (focus : Focus) (holes : List Hole) (reports : List Diagnostic) :
    closers ⟨focus, holes, reports⟩ = focus.closer?.toList ++ holes.map Hole.closer := rfl

@[simp] theorem closers_deliver (value : Option Value) (holes : List Hole)
    (reports : List Diagnostic) :
    (deliver value holes reports).closers = holes.map Hole.closer := by
  cases holes with
  | nil => rfl
  | cons hole rest => cases value <;> simp [deliver, Focus.closer?]

@[simp] theorem depth_focus_deliver (value : Option Value) (holes : List Hole)
    (reports : List Diagnostic) : (deliver value holes reports).focus.depth = 0 := by
  cases holes with
  | nil => rfl
  | cons hole rest => cases value <;> rfl

/-- No bracket has been reported, and those that have to be closed belong to what is skipped and,
around it, to the open containers; or the rest of the body is ignored. -/
structure Matches (pending : List Kind) (reader : Reader) : Prop where
  spares : Since Diagnostic.SparesBrackets [] reader.reports
  pending_eq : reader.isStopped = true ∨
    ∃ skipped, skipped.length = reader.focus.depth ∧ pending = skipped ++ reader.closers

theorem not_mem_ofBrackets {problem : Problem} (hproblem : problem ∈ Problem.misplacements) :
    problem ∉ Problem.ofBrackets := by
  have hspares : ∀ problem ∈ Problem.misplacements, problem ∉ Problem.ofBrackets := by decide
  exact hspares problem hproblem

theorem sparesBrackets_instead {problem : Problem} (hproblem : problem ∈ Problem.misplacements)
    (lexeme : Lexeme) : (instead problem lexeme).SparesBrackets :=
  not_mem_ofBrackets hproblem

theorem sparesBrackets_noValue (lexeme : Lexeme) : (noValue lexeme).SparesBrackets := by
  have hspares : ∀ problem ∈ Problem.ofNoValue, problem ∉ Problem.ofBrackets := by decide
  exact hspares _ (problem_noValue_mem lexeme)

theorem sparesBrackets_noProperty (lexeme : Lexeme) : (noProperty lexeme).SparesBrackets := by
  unfold noProperty
  split
  · exact sparesBrackets_noValue lexeme
  · exact sparesBrackets_instead (by decide) lexeme

theorem sparesBrackets_noPart (container : Container) (lexeme : Lexeme) :
    (noPart container lexeme).SparesBrackets := by
  cases container <;> exact sparesBrackets_instead (by decide) lexeme

theorem sparesBrackets_tooDeep (limit : Nat) (lexeme : Lexeme) :
    (tooDeep limit lexeme).SparesBrackets := by
  simp [Diagnostic.SparesBrackets, tooDeep, Diagnostic.withDetail, Diagnostic.ofToken,
    Diagnostic.plain, Problem.ofBrackets]

theorem sparesBrackets_openComment (lexeme : Lexeme) :
    (openComment lexeme).SparesBrackets := by
  simp [Diagnostic.SparesBrackets, openComment, Diagnostic.ofToken, Diagnostic.plain,
    Problem.ofBrackets]

theorem sparesBrackets_missing {problem : Problem} (hproblem : problem ∈ Problem.misplacements)
    (offset : Nat) : (missing problem offset).SparesBrackets :=
  not_mem_ofBrackets hproblem

theorem sparesBrackets_trailingComma (comma : Token) :
    (trailingComma comma).SparesBrackets := by
  simp [Diagnostic.SparesBrackets, trailingComma, Diagnostic.withFix, Diagnostic.ofToken,
    Diagnostic.plain, Problem.ofBrackets]

namespace Matches

/-- The same brackets are open as before. -/
theorem same (hmatches : first.Matches pending) (hrunning : first.isStopped = false)
    (hdepth : last.focus.depth = first.focus.depth) (hclosers : last.closers = first.closers)
    (hspares : Since Diagnostic.SparesBrackets [] last.reports) : last.Matches pending := by
  refine ⟨hspares, Or.inr ?_⟩
  rcases hmatches.pending_eq with hstopped | ⟨skipped, hskipped, hpending⟩
  · rw [hrunning] at hstopped
    contradiction
  · exact ⟨skipped, hskipped.trans hdepth.symm, hpending.trans (by rw [hclosers])⟩

variable {container : Container} {holes : List Hole} {reports : List Diagnostic}
  {depth : Nat}

/-- What is skipped leaves the open containers as they are. -/
theorem exists_skipped (hpasses : lexeme.kind.Passes pending next) {skipped closers : List Kind}
    (hpending : pending = skipped ++ closers)
    (hgoes : ¬(skipped.length = 0 ∧ KindSet.valueRecovery.contains lexeme.kind = true)) :
    ∃ others, others.length = pass lexeme skipped.length ∧ next = others ++ closers := by
  by_cases hcloser : lexeme.kind.IsCloser
  · have hhead := hpasses.eq_of_isCloser hcloser
    cases skipped with
    | nil => exact (hgoes ⟨rfl, Kind.valueRecovery_of_isCloser hcloser⟩).elim
    | cons kind inner =>
        rw [hpending] at hhead
        injection hhead with _ hnext
        refine ⟨inner, ?_, hnext.symm⟩
        rcases hcloser with hkind | hkind <;> simp [pass, hkind]
  · cases hpair : lexeme.kind.closer? with
    | none =>
        refine ⟨skipped, ?_, (hpasses.eq_of_token hpair hcloser).trans hpending⟩
        unfold pass
        cases hkind : lexeme.kind <;> rw [hkind] at hpair hcloser <;>
          first | rfl | contradiction | simp [Kind.IsCloser] at hcloser
    | some closer =>
        refine ⟨closer :: skipped, ?_, ?_⟩
        · rcases Kind.isOpener_iff.mp (Option.isSome_of_eq_some hpair) with hkind | hkind <;>
            simp [pass, hkind]
        · rw [hpasses.eq_of_opener hpair, hpending, List.cons_append]

/-- Where nothing is skipped, a closing bracket closes the innermost container. -/
theorem eq_closer (hmatches : first.Matches pending) (hrunning : first.isStopped = false)
    (hdepth : first.focus.depth = 0) (hpasses : lexeme.kind.Passes pending next)
    (hcloser : lexeme.kind.IsCloser) : first.closers = lexeme.kind :: next := by
  rcases hmatches.pending_eq with hstopped | ⟨skipped, hskipped, hpending⟩
  · rw [hrunning] at hstopped
    contradiction
  · rw [hdepth, List.length_eq_zero_iff] at hskipped
    rw [← hpasses.eq_of_isCloser hcloser, hpending, hskipped, List.nil_append]

/-- No closing bracket faces a container of the other kind. -/
theorem closer_eq (hmatches : first.Matches pending) (hrunning : first.isStopped = false)
    (hdepth : first.focus.depth = 0) (hcontainer : first.focus.closer? = some container.closer)
    (hpasses : lexeme.kind.Passes pending next)
    (hrecovery : KindSet.valueRecovery.contains lexeme.kind = true)
    (hcomma : lexeme.kind ≠ .comma) : lexeme.kind = container.closer := by
  have hclosers := hmatches.eq_closer hrunning hdepth hpasses
    (Kind.isCloser_of_valueRecovery hrecovery hcomma)
  rw [closers, hcontainer] at hclosers
  injection hclosers with hkind _
  exact hkind.symm

theorem turn (hmatches : first.Matches pending) (hpasses : lexeme.kind.Passes pending next)
    (hturn : Turn setting lexeme first last) : last.Matches pending := by
  have hspares := hmatches.spares
  cases hturn with
  | item hrecovery => exact hmatches.same rfl rfl rfl hspares
  | missingValue hrecovery =>
      refine hmatches.same rfl (depth_focus_deliver _ _ _) (closers_deliver _ _ _) ?_
      rw [deliver_reports]
      exact hspares.add (sparesBrackets_instead (by decide) lexeme)
  | noProperty hcut hrecovery hkind =>
      exact hmatches.same rfl rfl rfl (hspares.add (sparesBrackets_noProperty lexeme))
  | missingComma hrecovery hbegins =>
      exact hmatches.same rfl rfl rfl (hspares.add (sparesBrackets_instead (by decide) lexeme))
  | noPart hrecovery hbegins =>
      exact hmatches.same rfl rfl rfl (hspares.add (sparesBrackets_instead (by decide) lexeme))
  | resume hrecovery => exact hmatches.same rfl rfl rfl hspares
  | resumePart hrecovery => exact hmatches.same rfl rfl rfl hspares
  | mismatched hrecovery hcomma hcloser =>
      exact (hcloser (hmatches.closer_eq rfl rfl rfl hpasses hrecovery hcomma)).elim
  | mismatchedPart hrecovery hcomma hcloser =>
      exact (hcloser (hmatches.closer_eq rfl rfl rfl hpasses hrecovery hcomma)).elim
  | missingColon hcut hkind hfirst =>
      exact hmatches.same rfl rfl rfl (hspares.add (sparesBrackets_instead (by decide) lexeme))
  | noPair hcut hkind hfirst =>
      exact hmatches.same rfl rfl rfl (hspares.add (sparesBrackets_instead (by decide) lexeme))
  | noName hcut hkind =>
      exact hmatches.same rfl rfl rfl (hspares.add (sparesBrackets_instead (by decide) lexeme))
  | noMarker hcut hkind =>
      refine hmatches.same rfl (depth_focus_deliver _ _ _) (closers_deliver _ _ _) ?_
      rw [deliver_reports]
      exact hspares.add (sparesBrackets_instead (by decide) lexeme)
  | resumeParameter hrecovery =>
      refine hmatches.same rfl (depth_focus_deliver _ _ _) (closers_deliver _ _ _) ?_
      rw [deliver_reports]
      exact hspares

theorem shift_token (hmatches : first.Matches pending) (hpasses : lexeme.kind.Passes pending next)
    (hopener : lexeme.kind.closer? = none) (hcloser : ¬lexeme.kind.IsCloser) (last : Reader)
    (hrunning : first.isStopped = false) (hdepth : last.focus.depth = first.focus.depth)
    (hclosers : last.closers = first.closers)
    (hspares : Since Diagnostic.SparesBrackets [] last.reports) : last.Matches next := by
  rw [hpasses.eq_of_token hopener hcloser]
  exact hmatches.same hrunning hdepth hclosers hspares

/-- A closing bracket ends the innermost container. -/
theorem shift_closer (hmatches : first.Matches pending)
    (hpasses : lexeme.kind.Passes pending next) (hrunning : first.isStopped = false)
    (hdepth : first.focus.depth = 0) (hcontainer : first.focus.closer? = some container.closer)
    (hkind : lexeme.kind = container.closer) (value : Option Value)
    (hspares : Since Diagnostic.SparesBrackets [] reports) :
    (deliver value first.holes reports).Matches next := by
  have hcloser : lexeme.kind.IsCloser := hkind ▸ container.closer_isCloser
  have hclosers := hmatches.eq_closer hrunning hdepth hpasses hcloser
  rw [closers, hcontainer] at hclosers
  injection hclosers with _ hnext
  refine ⟨by rwa [deliver_reports], Or.inr ⟨[], (depth_focus_deliver _ _ _).symm, ?_⟩⟩
  rw [closers_deliver, List.nil_append]
  exact hnext.symm

theorem shift_opener (hmatches : (⟨.value, holes, reports⟩ : Reader).Matches pending)
    (hpasses : lexeme.kind.Passes pending next)
    (hkind : lexeme.kind = .braceOpen ∨ lexeme.kind = .bracketOpen) :
    (⟨.part (.ofOpener lexeme.toToken) none, holes, reports⟩ : Reader).Matches next := by
  have hpair : lexeme.kind.closer? = some (Container.ofOpener lexeme.toToken).closer := by
    rcases hkind with hkind | hkind <;>
      simp [Container.ofOpener, hkind, Container.closer, Kind.closer?]
  rcases hmatches.pending_eq with hstopped | ⟨skipped, hskipped, hpending⟩
  · contradiction
  · obtain rfl := List.length_eq_zero_iff.mp hskipped
    refine ⟨hmatches.spares, Or.inr ⟨[], rfl, ?_⟩⟩
    rw [hpasses.eq_of_opener hpair, hpending]
    rfl

theorem shift_pass (hmatches : first.Matches pending) (hpasses : lexeme.kind.Passes pending next)
    (hrunning : first.isStopped = false) (hdepth : first.focus.depth = depth)
    (hgoes : ¬(depth = 0 ∧ KindSet.valueRecovery.contains lexeme.kind = true))
    (hpass : last.focus.depth = pass lexeme depth) (hclosers : last.closers = first.closers)
    (hreports : last.reports = first.reports) : last.Matches next := by
  rcases hmatches.pending_eq with hstopped | ⟨skipped, hskipped, hpending⟩
  · rw [hrunning] at hstopped
    contradiction
  · obtain rfl := hskipped.trans hdepth
    obtain ⟨others, hothers, hnext⟩ := exists_skipped hpasses hpending hgoes
    refine ⟨hreports ▸ hmatches.spares, Or.inr ⟨others, hothers.trans hpass.symm, ?_⟩⟩
    rw [hnext, hclosers]

theorem plain_of_scalar? {content : Scalar} (hcontent : lexeme.scalar? = some content) :
    lexeme.kind.closer? = none ∧ ¬lexeme.kind.IsCloser := by
  unfold Lexeme.scalar? at hcontent
  cases hkind : lexeme.kind <;> rw [hkind] at hcontent <;>
    first | contradiction | exact ⟨rfl, by simp [Kind.IsCloser]⟩

theorem plain_of_not_valueFirst
    (hrecovery : KindSet.valueRecovery.contains lexeme.kind = false)
    (hfirst : KindSet.valueFirst.contains lexeme.kind = false) :
    lexeme.kind.closer? = none ∧ ¬lexeme.kind.IsCloser := by
  cases hkind : lexeme.kind <;> rw [hkind] at hrecovery hfirst <;>
    first | contradiction | exact ⟨rfl, by simp [Kind.IsCloser]⟩

theorem shift (hmatches : first.Matches pending) (hpasses : lexeme.kind.Passes pending next)
    (hshift : Shift setting lexeme first last) : last.Matches next := by
  have hspares := hmatches.spares
  -- most tokens are no brackets, and the reader takes them without skipping
  have htoken {kind : Kind} (hkind : lexeme.kind = kind)
      (hplain : kind.closer? = none ∧ kind ≠ .braceClose ∧ kind ≠ .bracketClose) :=
    hmatches.shift_token hpasses (hkind ▸ hplain.1) (hkind ▸ not_or.mpr hplain.2) last
  cases hshift with
  | cut hcut => exact ⟨hspares, Or.inl rfl⟩
  | tooDeep hkind hexceeded => exact ⟨hspares.add (sparesBrackets_tooDeep _ lexeme), Or.inl rfl⟩
  | opening hkind hroom => exact hmatches.shift_opener hpasses hkind
  | parameterOpen hkind =>
      exact htoken hkind (by decide) rfl rfl rfl hspares
  | scalar hcontent =>
      obtain ⟨hopener, hcloser⟩ := plain_of_scalar? hcontent
      refine hmatches.shift_token hpasses hopener hcloser _ rfl (depth_focus_deliver _ _ _)
        (closers_deliver _ _ _) ?_
      rwa [deliver_reports]
  | noValue hcut hrecovery hfirst =>
      obtain ⟨hopener, hcloser⟩ := plain_of_not_valueFirst hrecovery hfirst
      refine hmatches.shift_token hpasses hopener hcloser _ rfl (depth_focus_deliver _ _ _)
        (closers_deliver _ _ _) ?_
      rw [deliver_reports]
      exact hspares.add (sparesBrackets_noValue lexeme)
  | name hkind => exact htoken hkind (by decide) rfl rfl rfl hspares
  | colon hkind => exact htoken hkind (by decide) rfl rfl rfl hspares
  | parameterName hkind => exact htoken hkind (by decide) rfl rfl rfl hspares
  | parameterClose hkind =>
      refine htoken hkind (by decide) rfl (depth_focus_deliver _ _ _)
        (closers_deliver _ _ _) ?_
      rwa [deliver_reports]
  | comma hkind => exact htoken hkind (by decide) rfl rfl rfl hspares
  | extraComma hkind =>
      exact htoken hkind (by decide) rfl rfl rfl
        (hspares.add (sparesBrackets_noPart _ lexeme))
  | close hkind => exact hmatches.shift_closer hpasses rfl rfl rfl hkind _ hspares
  | closePart hkind =>
      rename_i container comma holes reports
      refine hmatches.shift_closer hpasses rfl rfl rfl hkind _ ?_
      cases comma with
      | none => exact hspares
      | some comma => exact hspares.add (sparesBrackets_trailingComma comma)
  | pass hgoes => exact hmatches.shift_pass hpasses rfl rfl hgoes rfl rfl rfl
  | passParameter hgoes =>
      refine hmatches.shift_pass hpasses rfl rfl (fun hends => hgoes ⟨hends.1, ?_⟩) rfl rfl rfl
      rw [KindSet.parameterRecovery, KindSet.contains_union, hends.2, Bool.true_or]
  | brokenMarker hkind =>
      refine htoken hkind (by decide) rfl (depth_focus_deliver _ _ _)
        (closers_deliver _ _ _) ?_
      rwa [deliver_reports]
  | excess hcut =>
      exact ⟨hspares.add (sparesBrackets_instead (by decide) lexeme), Or.inl rfl⟩
  | stopped => exact ⟨hspares, Or.inl rfl⟩

theorem step (hmatches : reader.Matches pending) (hpasses : lexeme.kind.Passes pending next) :
    (reader.step setting lexeme).Matches next := by
  unfold Reader.step
  split
  next htrivia =>
    obtain ⟨hopener, hcloser⟩ := Kind.plain_of_isTrivia htrivia
    rw [hpasses.eq_of_token hopener hcloser]
    unfold ignore
    split
    · exact ⟨hmatches.spares.add (sparesBrackets_openComment lexeme), hmatches.pending_eq⟩
    · exact hmatches
  · exact take_induction (Matches pending) (Matches next)
      (fun _ _ hturn hfirst => hfirst.turn hpasses hturn)
      (fun _ _ hshift hfirst => hfirst.shift hpasses hshift) hmatches

/-- Once the tokens have closed all brackets, so has the reader. -/
theorem run {lexemes : List Lexeme} (hmatches : reader.Matches pending)
    (hcloses : Closes pending lexemes) : (reader.run setting lexemes).Matches [] := by
  induction hcloses generalizing reader with
  | nil => exact hmatches
  | cons hfirst hrest ih => exact ih (hmatches.step hfirst)

/-! ### The end of the body -/

theorem closers_eq_nil (hmatches : reader.Matches []) (hrunning : reader.isStopped = false) :
    reader.closers = [] := by
  rcases hmatches.pending_eq with hstopped | ⟨skipped, _, hpending⟩
  · rw [hrunning] at hstopped
    contradiction
  · exact (List.append_eq_nil_iff.mp hpending.symm).2

theorem spares_endBefore {diagnostic : Diagnostic} (hdiagnostic : diagnostic.SparesBrackets)
    (hspares : Since Diagnostic.SparesBrackets [] reports) :
    Since Diagnostic.SparesBrackets [] (endBefore setting diagnostic [] reports).reports := by
  unfold endBefore
  split
  · exact hspares
  · exact hspares.add hdiagnostic

/-- No container is open at the end. -/
theorem spares_finish (hmatches : reader.Matches []) (isGroup : Bool) :
    Since Diagnostic.SparesBrackets [] (reader.finish setting isGroup).reports := by
  have hspares := hmatches.spares
  obtain ⟨focus, holes, reports⟩ := reader
  cases focus with
  | value =>
      obtain rfl := List.map_eq_nil_iff.mp (hmatches.closers_eq_nil rfl)
      cases isGroup with
      | false => exact hspares
      | true => exact hspares.add (sparesBrackets_missing (by decide) _)
  | part container comma => exact absurd (hmatches.closers_eq_nil rfl) (List.cons_ne_nil _ _)
  | separator container => exact absurd (hmatches.closers_eq_nil rfl) (List.cons_ne_nil _ _)
  | colon opener members key => exact absurd (hmatches.closers_eq_nil rfl) (List.cons_ne_nil _ _)
  | parameterName marker =>
      obtain rfl := List.map_eq_nil_iff.mp (hmatches.closers_eq_nil rfl)
      exact spares_endBefore (sparesBrackets_missing (by decide) _) hspares
  | parameterClose marker name =>
      obtain rfl := List.map_eq_nil_iff.mp (hmatches.closers_eq_nil rfl)
      exact spares_endBefore (sparesBrackets_missing (by decide) _) hspares
  | skip depth container next =>
      exact absurd (hmatches.closers_eq_nil rfl) (List.cons_ne_nil _ _)
  | skipParameter depth =>
      obtain rfl := List.map_eq_nil_iff.mp (hmatches.closers_eq_nil rfl)
      exact hspares
  | finished root => exact hspares
  | stopped root isCut => exact hspares

end Matches

theorem start_matches : start.Matches [] := ⟨.refl _ _, Or.inr ⟨[], rfl, rfl⟩⟩

end Reader

/-- If the brackets of a body match, then none of them is reported, whatever else is wrong with
the body. -/
theorem sparesBrackets_of_balanced {source : String}
    (hbalanced : Balanced ((significant (lex source)).map Lexeme.piece)) (options : Options) :
    ∀ diagnostic ∈ (options.parse source).diagnostics.toList,
      diagnostic.problem ≠ .mismatchedDelimiter ∧ diagnostic.problem ≠ .unclosedObject ∧
        diagnostic.problem ≠ .unclosedArray := by
  have hcloses : Closes [] (lex source) := by
    apply closes_of_significant
    rw [← List.append_nil (significant (lex source))]
    exact hbalanced.closes rfl .nil
  have hmatches : (Reader.start.run (options.setting source) (lex source)).Matches [] :=
    Reader.start_matches.run hcloses
  obtain ⟨later, hreports, hlater⟩ := hmatches.spares_finish options.isGroup
  intro diagnostic hmem
  have hreported : diagnostic ∈ later ++ [] := hreports ▸ List.mem_reverse.mp hmem
  rw [List.append_nil] at hreported
  simpa [Diagnostic.SparesBrackets, Problem.ofBrackets] using hlater diagnostic hreported

/-- Six things are wrong with the body, and none of them with its brackets. -/
theorem sparesBrackets_of_broken_items :
    Balanced ((significant (lex "[[,] \"a\": [1], \x7b\"b\" 2\x7d x]")).map Lexeme.piece) ∧
      ∀ diagnostic ∈ ((Options.groupWithin none).parse
          "[[,] \"a\": [1], \x7b\"b\" 2\x7d x]").diagnostics.toList,
        diagnostic.problem ≠ .mismatchedDelimiter ∧ diagnostic.problem ≠ .unclosedObject ∧
          diagnostic.problem ≠ .unclosedArray := by
  let comma : Kind × List Char := (.comma, [','])
  let pair : List (Kind × List Char) := [(.string, ['"', 'b', '"']), (.number, ['2'])]
  let tail : List (Kind × List Char) :=
    comma :: (.braceOpen, ['{']) :: (pair ++ (.braceClose, ['}']) :: [(.identifier, ['x'])])
  let items : List (Kind × List Char) :=
    (.bracketOpen, ['[']) :: ([comma] ++ (.bracketClose, [']']) ::
      (.string, ['"', 'a', '"']) :: (.colon, [':']) ::
        (.bracketOpen, ['[']) :: ([(.number, ['1'])] ++ (.bracketClose, [']']) :: tail))
  have hpieces : (significant (lex "[[,] \"a\": [1], \x7b\"b\" 2\x7d x]")).map Lexeme.piece =
      bracketed items := by
    decide +kernel
  have htail : Balanced tail :=
    .plain (by decide) (.group rfl (.plain (by decide) (.plain (by decide) .nil))
      (.plain (by decide) .nil))
  have hitems : Balanced items :=
    .group rfl (.plain (by decide) .nil)
      (.plain (by decide) (.plain (by decide) (.group rfl (.plain (by decide) .nil) htail)))
  have hbalanced : Balanced (bracketed items) := .group rfl hitems .nil
  exact ⟨hpieces ▸ hbalanced, sparesBrackets_of_balanced (hpieces ▸ hbalanced) _⟩

end QueryBody
