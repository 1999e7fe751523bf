import QueryBody.Proofs.Moves
import QueryBody.Proofs.Tiling
import Mathlib.Tactic

/-!
# Reports in order

The diagnostics of a body come in the order of its text, no two of them at one place.
Each stands at a token or at the end of the body, and what it refers to is an opening
bracket before it.
-/

namespace QueryBody

/-- The bracket is a token that opens an object or an array. -/
def Lexeme.Opens (lexeme : Lexeme) : Prop := lexeme.kind = .braceOpen ∨ lexeme.kind = .bracketOpen

namespace Lexeme.Opens

variable {lexeme : Lexeme}

theorem isTrivia (hopens : lexeme.Opens) : lexeme.kind.isTrivia = false := by
  rcases hopens with hkind | hkind <;> rw [hkind] <;> rfl

theorem valueRecovery (hopens : lexeme.Opens) :
    KindSet.valueRecovery.contains lexeme.kind = false := by
  rcases hopens with hkind | hkind <;> rw [hkind] <;> rfl

theorem valueFirst (hopens : lexeme.Opens) :
    KindSet.valueFirst.contains lexeme.kind = true := by
  rcases hopens with hkind | hkind <;> rw [hkind] <;> rfl

/-- No body is cut off in a bracket. -/
theorem isCutIn (hopens : lexeme.Opens) (setting : Setting) : setting.isCutIn lexeme = false := by
  rcases hopens with hkind | hkind <;> simp [Setting.isCutIn, Lexeme.isOpen, hkind]

end Lexeme.Opens

namespace Diagnostic

/-- The diagnostic has the range of its token, or none and stands at the end of the body.  The
other places that it is about are opening brackets before it. -/
structure IsPlaced (lexemes : List Lexeme) (size : Nat) (diagnostic : Diagnostic) : Prop where
  span : (∃ lexeme ∈ lexemes, diagnostic.token = some lexeme.toToken ∧
      diagnostic.span = lexeme.span) ∨
    diagnostic.token = none ∧ diagnostic.span = .point size
  related : ∀ other ∈ diagnostic.related, ∃ opening ∈ lexemes, opening.Opens ∧
    other.span = opening.span ∧ opening.span.start < diagnostic.offset

/-- The diagnostic is about this token and no other place. -/
structure IsAbout (place : Token) (diagnostic : Diagnostic) : Prop where
  token : diagnostic.token = some place
  span : diagnostic.span = place.span
  related : diagnostic.related = []

variable {lexemes : List Lexeme} {size : Nat} {lexeme : Lexeme} {diagnostic : Diagnostic}

theorem IsAbout.isPlaced (habout : diagnostic.IsAbout lexeme.toToken) (hmem : lexeme ∈ lexemes) :
    diagnostic.IsPlaced lexemes size :=
  ⟨Or.inl ⟨lexeme, hmem, habout.token, habout.span⟩, by simp [habout.related]⟩

theorem IsAbout.offset_eq {token : Token} (habout : diagnostic.IsAbout token) :
    diagnostic.offset = token.span.start := by
  rw [offset, habout.span]

theorem isAbout_ofToken (problem : Problem) (token : Token) :
    (ofToken problem token).IsAbout token := ⟨rfl, rfl, rfl⟩

theorem IsAbout.withDetail {token : Token} (habout : diagnostic.IsAbout token) (detail : String) :
    (diagnostic.withDetail detail).IsAbout token := ⟨habout.token, habout.span, habout.related⟩

theorem isPlaced_of_atEnd {diagnostic : Diagnostic} (htoken : diagnostic.token = none)
    (hspan : diagnostic.span = .point size) (hrelated : diagnostic.related = []) :
    diagnostic.IsPlaced lexemes size := ⟨Or.inr ⟨htoken, hspan⟩, by simp [hrelated]⟩

end Diagnostic

namespace Report

open Diagnostic

theorem instead_isAbout (problem : Problem) (lexeme : Lexeme) :
    (instead problem lexeme).IsAbout lexeme.toToken := (isAbout_ofToken _ _).withDetail _

theorem noValue_isAbout (lexeme : Lexeme) : (noValue lexeme).IsAbout lexeme.toToken := by
  unfold noValue
  dsimp only
  split
  · exact isAbout_ofToken _ _
  · split
    · exact (isAbout_ofToken _ _).withDetail _
    · exact isAbout_ofToken _ _
  · exact (isAbout_ofToken _ _).withDetail _
  · exact (isAbout_ofToken _ _).withDetail _
  · exact (isAbout_ofToken _ _).withDetail _
  · exact (isAbout_ofToken _ _).withDetail _
  · exact instead_isAbout _ _

theorem noProperty_isAbout (lexeme : Lexeme) : (noProperty lexeme).IsAbout lexeme.toToken := by
  unfold noProperty
  split
  · exact noValue_isAbout lexeme
  · exact instead_isAbout _ _

theorem noPart_isAbout (container : Container) (lexeme : Lexeme) :
    (noPart container lexeme).IsAbout lexeme.toToken := by
  cases container <;> exact instead_isAbout _ _

theorem tooDeep_isAbout (limit : Nat) (lexeme : Lexeme) :
    (tooDeep limit lexeme).IsAbout lexeme.toToken := (isAbout_ofToken _ _).withDetail _

theorem openComment_isAbout (lexeme : Lexeme) : (openComment lexeme).IsAbout lexeme.toToken :=
  isAbout_ofToken _ _

/-- The reports, the latest first, are placed, come one after the other and reach no further than
an offset. -/
structure InOrder (lexemes : List Lexeme) (size reach : Nat) (reports : List Diagnostic) :
    Prop where
  ordered : reports.Pairwise fun later earlier => earlier.offset < later.offset
  placed : ∀ diagnostic ∈ reports, diagnostic.IsPlaced lexemes size
  reached : ∀ diagnostic ∈ reports, diagnostic.offset ≤ reach

namespace InOrder

variable {lexemes : List Lexeme} {size reach further : Nat} {reports : List Diagnostic}
  {diagnostic : Diagnostic}

theorem nil : InOrder lexemes size reach [] := ⟨.nil, by simp, by simp⟩

theorem mono (horder : InOrder lexemes size reach reports) (hle : reach ≤ further) :
    InOrder lexemes size further reports :=
  ⟨horder.ordered, horder.placed, fun diagnostic hmem => (horder.reached diagnostic hmem).trans hle⟩

/-- A report at the offset that the earlier ones reach comes after them, or one of them is there
already. -/
theorem add (horder : InOrder lexemes size reach reports)
    (hplaced : diagnostic.IsPlaced lexemes size) (hoffset : diagnostic.offset = reach) :
    InOrder lexemes size reach (add diagnostic reports) := by
  cases reports with
  | nil =>
      exact ⟨List.pairwise_singleton _ _, by simpa [Report.add] using hplaced,
        by simpa [Report.add] using hoffset.le⟩
  | cons latest rest =>
      simp only [Report.add]
      split
      · exact horder
      next hapart =>
        have hlatest := horder.reached latest List.mem_cons_self
        have hlater : ∀ earlier ∈ latest :: rest, earlier.offset < diagnostic.offset := by
          intro earlier hearlier
          rcases List.mem_cons.mp hearlier with rfl | hrest
          · omega
          · have hbefore := List.rel_of_pairwise_cons horder.ordered hrest
            omega
        refine ⟨.cons hlater horder.ordered, ?_, ?_⟩
        · exact List.forall_mem_cons.mpr ⟨hplaced, horder.placed⟩
        · exact List.forall_mem_cons.mpr ⟨hoffset.le, horder.reached⟩

theorem addAbout {lexeme : Lexeme} (horder : InOrder lexemes size lexeme.span.start reports)
    (hmem : lexeme ∈ lexemes) (habout : diagnostic.IsAbout lexeme.toToken) :
    InOrder lexemes size lexeme.span.start (Report.add diagnostic reports) :=
  horder.add (habout.isPlaced hmem) habout.offset_eq

end InOrder
end Report

/-! ### Open brackets -/

def Hole.opener : Hole → Token
  | item opener _ => opener
  | property opener _ _ => opener

@[simp] theorem Hole.opener_fill (hole : Hole) (value : Option Value) :
    (hole.fill value).opener = hole.opener := by
  cases hole <;> cases value <;> rfl

@[simp] theorem Container.opener_ofOpener (opener : Token) :
    (Container.ofOpener opener).opener = opener := by
  unfold Container.ofOpener
  split <;> rfl

def Focus.opener? : Focus → Option Token
  | .part container _ | .separator container | .skip _ container _ => some container.opener
  | .colon opener _ _ => some opener
  | _ => none

namespace Reader

/-- The brackets that are open, the innermost first. -/
def openers (reader : Reader) : List Token :=
  reader.focus.opener?.toList ++ reader.holes.map Hole.opener

@[simp] theorem openers_mk (focus : Focus) (holes : List Hole) (reports : List Diagnostic) :
    openers ⟨focus, holes, reports⟩ = focus.opener?.toList ++ holes.map Hole.opener := rfl

@[simp] theorem openers_deliver (value : Option Value) (holes : List Hole)
    (reports : List Diagnostic) :
    (deliver value holes reports).openers = holes.map Hole.opener := by
  cases holes with
  | nil => rfl
  | cons hole rest => cases value <;> simp [deliver, Focus.opener?]

variable {setting : Setting} {lexemes : List Lexeme} {size reach : Nat} {lexeme : Lexeme}
  {first last : Reader}

theorem Turn.openers_subset (hturn : Turn setting lexeme first last) :
    last.openers ⊆ first.openers := by
  cases hturn <;> simp [Focus.opener?, Hole.opener, Container.opener]

/-- Only an opening bracket opens anything. -/
theorem Shift.mem_openers (hshift : Shift setting lexeme first last) {opener : Token}
    (hmem : opener ∈ last.openers) :
    opener ∈ first.openers ∨ opener = lexeme.toToken ∧ lexeme.Opens := by
  cases hshift with
  | opening hkind hroom =>
      simp only [openers_mk, Focus.opener?, Container.opener_ofOpener, Option.toList_some,
        List.singleton_append, List.mem_cons] at hmem
      rcases hmem with rfl | hold
      · exact Or.inr ⟨rfl, hkind⟩
      · exact Or.inl hold
  | close hkind => exact Or.inl (List.mem_append_right _ (by simpa using hmem))
  | closePart hkind => exact Or.inl (List.mem_append_right _ (by simpa using hmem))
  | scalar hcontent => exact Or.inl (by simpa [Focus.opener?] using hmem)
  | noValue hcut hrecovery hfirst => exact Or.inl (by simpa [Focus.opener?] using hmem)
  | parameterClose hkind => exact Or.inl (by simpa [Focus.opener?] using hmem)
  | brokenMarker hkind => exact Or.inl (by simpa [Focus.opener?] using hmem)
  | cut hcut => simp [Focus.opener?] at hmem
  | tooDeep hkind hexceeded => simp [Focus.opener?] at hmem
  | excess hcut => simp [Focus.opener?] at hmem
  | _ => exact Or.inl hmem

/-- The open brackets are opening brackets before an offset. -/
def OpenedBefore (lexemes : List Lexeme) (reach : Nat) (reader : Reader) : Prop :=
  ∀ opener ∈ reader.openers, ∃ opening ∈ lexemes, opening.Opens ∧ opening.toToken = opener ∧
    opening.span.start < reach

theorem OpenedBefore.mono {reader : Reader} {further : Nat}
    (hopened : reader.OpenedBefore lexemes reach) (hle : reach ≤ further) :
    reader.OpenedBefore lexemes further := by
  intro opener hmem
  obtain ⟨opening, hopening, hopens, hsame, hstart⟩ := hopened opener hmem
  exact ⟨opening, hopening, hopens, hsame, hstart.trans_le hle⟩

theorem OpenedBefore.turn (hturn : Turn setting lexeme first last)
    (hopened : first.OpenedBefore lexemes reach) : last.OpenedBefore lexemes reach :=
  fun opener hmem => hopened opener (hturn.openers_subset hmem)

theorem OpenedBefore.shift (hmem : lexeme ∈ lexemes)
    (hspan : lexeme.span.start < lexeme.span.stop) (hshift : Shift setting lexeme first last)
    (hopened : first.OpenedBefore lexemes lexeme.span.start) :
    last.OpenedBefore lexemes lexeme.span.stop := by
  intro opener hopener
  rcases hshift.mem_openers hopener with hold | ⟨rfl, hopens⟩
  · exact hopened.mono hspan.le opener hold
  · exact ⟨lexeme, hmem, hopens, rfl, hspan⟩

/-! ### One token -/

/-- A report that a container has not ended where it should. -/
theorem isPlaced_started {container : Container} {diagnostic : Diagnostic}
    (hplaced : diagnostic.IsPlaced lexemes size) (hrelated : diagnostic.related = [])
    {opening : Lexeme} (hmem : opening ∈ lexemes) (hopens : opening.Opens)
    (hopener : opening.toToken = container.opener)
    (hstart : opening.span.start < diagnostic.offset) :
    (Report.started container diagnostic).IsPlaced lexemes size := by
  refine ⟨hplaced.span, ?_⟩
  intro other hother
  simp only [Report.started, Diagnostic.relatedTo, hrelated, List.nil_append,
    List.mem_singleton] at hother
  subst hother
  exact ⟨opening, hmem, hopens, congrArg Token.span hopener.symm, hstart⟩

theorem isPlaced_mismatched {reader : Reader} {container : Container} (hmem : lexeme ∈ lexemes)
    (hopened : reader.OpenedBefore lexemes lexeme.span.start)
    (hfocus : reader.focus.opener? = some container.opener) :
    (Report.mismatched container lexeme).IsPlaced lexemes size := by
  obtain ⟨opening, hopening, hopens, hsame, hstart⟩ :=
    hopened container.opener (by simp [openers, hfocus])
  have habout : ((Diagnostic.ofToken .mismatchedDelimiter lexeme.toToken).withDetail
      lexeme.kind.describe).IsAbout lexeme.toToken :=
    (Diagnostic.isAbout_ofToken _ _).withDetail _
  exact isPlaced_started (habout.isPlaced hmem) habout.related hopening hopens hsame
    (habout.offset_eq ▸ hstart)

/-- Before a token is taken there are only reports at it. -/
theorem inOrder_turn (hmem : lexeme ∈ lexemes) (hturn : Turn setting lexeme first last)
    (hopened : first.OpenedBefore lexemes lexeme.span.start)
    (horder : Report.InOrder lexemes size lexeme.span.start first.reports) :
    Report.InOrder lexemes size lexeme.span.start last.reports := by
  cases hturn with
  | item hrecovery => exact horder
  | missingValue hrecovery =>
      simpa using horder.addAbout hmem (Report.instead_isAbout .expectedValue lexeme)
  | noProperty hcut hrecovery hkind => exact horder.addAbout hmem (Report.noProperty_isAbout _)
  | missingComma hrecovery hbegins => exact horder.addAbout hmem (Report.instead_isAbout _ _)
  | noPart hrecovery hbegins => exact horder.addAbout hmem (Report.instead_isAbout _ _)
  | resume hrecovery => exact horder
  | resumePart hrecovery => exact horder
  | mismatched hrecovery hcomma hcloser =>
      simpa using horder.add (isPlaced_mismatched hmem hopened rfl) rfl
  | mismatchedPart hrecovery hcomma hcloser =>
      simpa using horder.add (isPlaced_mismatched hmem hopened rfl) rfl
  | missingColon hcut hkind hfirst => exact horder.addAbout hmem (Report.instead_isAbout _ _)
  | noPair hcut hkind hfirst => exact horder.addAbout hmem (Report.instead_isAbout _ _)
  | noName hcut hkind => exact horder.addAbout hmem (Report.instead_isAbout _ _)
  | noMarker hcut hkind =>
      simpa using horder.addAbout hmem (Report.instead_isAbout .expectedParameterClose lexeme)
  | resumeParameter hrecovery => simpa using horder

/-- Nothing has been reported after the comma that a container may end with. -/
def CommaIsLast (lexemes : List Lexeme) (size reach : Nat) (reader : Reader) : Prop :=
  ∀ container comma, reader.focus = .part container (some comma) →
    (∃ lexeme ∈ lexemes, lexeme.toToken = comma) ∧ comma.span.start ≤ reach ∧
      Report.InOrder lexemes size comma.span.start reader.reports

theorem CommaIsLast.of_ne {reader : Reader}
    (hother : ∀ container comma, reader.focus ≠ .part container (some comma)) :
    reader.CommaIsLast lexemes size reach :=
  fun container comma hfocus => (hother container comma hfocus).elim

theorem commaIsLast_deliver (value : Option Value) (holes : List Hole)
    (reports : List Diagnostic) : (deliver value holes reports).CommaIsLast lexemes size reach := by
  apply CommaIsLast.of_ne
  cases holes with
  | nil => simp [deliver]
  | cons hole rest => cases value <;> simp [deliver]

theorem Turn.commaIsLast (hturn : Turn setting lexeme first last) :
    last.CommaIsLast lexemes size reach := by
  cases hturn with
  | missingValue hrecovery => exact commaIsLast_deliver _ _ _
  | mismatched hrecovery hcomma hcloser => exact commaIsLast_deliver _ _ _
  | mismatchedPart hrecovery hcomma hcloser => exact commaIsLast_deliver _ _ _
  | noMarker hcut hkind => exact commaIsLast_deliver _ _ _
  | resumeParameter hrecovery => exact commaIsLast_deliver _ _ _
  | _ => exact .of_ne (by simp)

theorem inOrder_reportComma {container : Container} {comma : Option Token} {holes : List Hole}
    {reports : List Diagnostic} (horder : Report.InOrder lexemes size reach reports)
    (hlast : CommaIsLast lexemes size reach ⟨.part container comma, holes, reports⟩) :
    Report.InOrder lexemes size reach (reportComma comma reports) := by
  cases comma with
  | none => exact horder
  | some comma =>
      obtain ⟨⟨lexeme, hmem, rfl⟩, hle, hbefore⟩ := hlast container comma rfl
      have habout : (Report.trailingComma lexeme.toToken).IsAbout lexeme.toToken := ⟨rfl, rfl, rfl⟩
      exact (hbefore.addAbout hmem habout).mono hle

/-- A token is taken with a report at it or at the comma before it, or none. -/
theorem inOrder_shift (hmem : lexeme ∈ lexemes) (hshift : Shift setting lexeme first last)
    (hlast : first.CommaIsLast lexemes size lexeme.span.start)
    (horder : Report.InOrder lexemes size lexeme.span.start first.reports) :
    Report.InOrder lexemes size lexeme.span.start last.reports := by
  cases hshift with
  | tooDeep hkind hexceeded => exact horder.addAbout hmem (Report.tooDeep_isAbout _ _)
  | scalar hcontent => simpa using horder
  | noValue hcut hrecovery hfirst =>
      simpa using horder.addAbout hmem (Report.noValue_isAbout lexeme)
  | parameterClose hkind => simpa using horder
  | extraComma hkind => exact horder.addAbout hmem (Report.noPart_isAbout _ _)
  | close hkind => simpa using horder
  | closePart hkind => simpa using inOrder_reportComma horder hlast
  | brokenMarker hkind => simpa using horder
  | excess hcut => exact horder.addAbout hmem (Report.instead_isAbout _ _)
  | _ => exact horder

theorem Shift.commaIsLast (hmem : lexeme ∈ lexemes)
    (hspan : lexeme.span.start < lexeme.span.stop) (hshift : Shift setting lexeme first last)
    (horder : Report.InOrder lexemes size lexeme.span.start last.reports) :
    last.CommaIsLast lexemes size lexeme.span.stop := by
  have hcomma : ∀ container holes reports,
      Report.InOrder lexemes size lexeme.span.start reports →
        CommaIsLast lexemes size lexeme.span.stop
          ⟨.part container (some lexeme.toToken), holes, reports⟩ := by
    intro container holes reports hreports other comma hfocus
    cases hfocus
    exact ⟨⟨lexeme, hmem, rfl⟩, hspan.le, hreports⟩
  cases hshift with
  | comma hkind => exact hcomma _ _ _ horder
  | extraComma hkind => exact hcomma _ _ _ horder
  | scalar hcontent => exact commaIsLast_deliver _ _ _
  | noValue hcut hrecovery hfirst => exact commaIsLast_deliver _ _ _
  | parameterClose hkind => exact commaIsLast_deliver _ _ _
  | close hkind => exact commaIsLast_deliver _ _ _
  | closePart hkind => exact commaIsLast_deliver _ _ _
  | brokenMarker hkind => exact commaIsLast_deliver _ _ _
  | _ => exact .of_ne (by simp)

/-! ### The whole body -/

/-- The reports are in order, and all open brackets stand before an offset. -/
structure Orderly (lexemes : List Lexeme) (size reach : Nat) (reader : Reader) : Prop where
  inOrder : Report.InOrder lexemes size reach reader.reports
  opened : reader.OpenedBefore lexemes reach

theorem orderly_take (setting : Setting) {reader : Reader} (hmem : lexeme ∈ lexemes)
    (hspan : lexeme.span.start < lexeme.span.stop)
    (horderly : reader.Orderly lexemes size lexeme.span.start)
    (hlast : reader.CommaIsLast lexemes size lexeme.span.start) :
    (reader.take setting lexeme).Orderly lexemes size lexeme.span.stop ∧
      (reader.take setting lexeme).CommaIsLast lexemes size lexeme.span.stop := by
  refine take_induction
    (fun reader => reader.Orderly lexemes size lexeme.span.start ∧
      reader.CommaIsLast lexemes size lexeme.span.start)
    (fun reader => reader.Orderly lexemes size lexeme.span.stop ∧
      reader.CommaIsLast lexemes size lexeme.span.stop) ?_ ?_ ⟨horderly, hlast⟩
  · rintro first last hturn ⟨hbefore, _⟩
    exact ⟨⟨inOrder_turn hmem hturn hbefore.opened hbefore.inOrder, hbefore.opened.turn hturn⟩,
      hturn.commaIsLast⟩
  · rintro first last hshift ⟨hbefore, hcomma⟩
    have horder := inOrder_shift hmem hshift hcomma hbefore.inOrder
    exact ⟨⟨horder.mono hspan.le, hbefore.opened.shift hmem hspan hshift⟩,
      hshift.commaIsLast hmem hspan horder⟩

theorem Orderly.mono {reader : Reader} {further : Nat}
    (horderly : reader.Orderly lexemes size reach) (hle : reach ≤ further) :
    reader.Orderly lexemes size further :=
  ⟨horderly.inOrder.mono hle, horderly.opened.mono hle⟩

theorem CommaIsLast.mono {reader : Reader} {further : Nat}
    (hlast : reader.CommaIsLast lexemes size reach) (hle : reach ≤ further) :
    reader.CommaIsLast lexemes size further := by
  intro container comma hfocus
  obtain ⟨hmem, hbefore, horder⟩ := hlast container comma hfocus
  exact ⟨hmem, hbefore.trans hle, horder⟩

theorem ignore_of_closed {reader : Reader} (hclosed : lexeme.kind ≠ .unterminatedComment) :
    reader.ignore setting lexeme = reader := by
  simp [ignore, hclosed]

theorem orderly_ignore {reader : Reader} (hmem : lexeme ∈ lexemes)
    (horderly : reader.Orderly lexemes size lexeme.span.start) :
    (reader.ignore setting lexeme).Orderly lexemes size lexeme.span.start := by
  unfold ignore
  split
  · exact ⟨horderly.inOrder.addAbout hmem (Report.openComment_isAbout lexeme), horderly.opened⟩
  · exact horderly

theorem orderly_step (setting : Setting) {reader : Reader} (hmem : lexeme ∈ lexemes)
    (hspan : lexeme.span.start < lexeme.span.stop)
    (horderly : reader.Orderly lexemes size lexeme.span.start)
    (hlast : reader.CommaIsLast lexemes size lexeme.span.start) :
    (reader.step setting lexeme).Orderly lexemes size lexeme.span.stop ∧
      (lexeme.kind ≠ .unterminatedComment →
        (reader.step setting lexeme).CommaIsLast lexemes size lexeme.span.stop) := by
  unfold step
  split
  · refine ⟨(orderly_ignore hmem horderly).mono hspan.le, ?_⟩
    intro hclosed
    rw [ignore_of_closed hclosed]
    exact hlast.mono hspan.le
  · have htaken := orderly_take setting hmem hspan horderly hlast
    exact ⟨htaken.1, fun _ => htaken.2⟩

/-- A comment without an end may separate a comma from the closing bracket, but it is the last
token, and then nothing closes. -/
theorem orderly_run {reader : Reader} {rest : List Lexeme} {stop : Nat}
    (htiles : Tiles reach stop rest) (hsubset : rest ⊆ lexemes)
    (hclosed : ∀ front lexeme back, rest = front ++ lexeme :: back →
      lexeme.kind = .unterminatedComment → back = [])
    (horderly : reader.Orderly lexemes size reach)
    (hlast : reader.CommaIsLast lexemes size reach) :
    (reader.run setting rest).Orderly lexemes size stop := by
  induction rest generalizing reader reach with
  | nil => exact horderly.mono htiles.le
  | cons lexeme rest ih =>
      obtain ⟨rfl, hspan, hrest⟩ := htiles
      have hmem : lexeme ∈ lexemes := hsubset List.mem_cons_self
      obtain ⟨hstep, hcomma⟩ := orderly_step setting hmem hspan horderly hlast
      rw [run_cons]
      by_cases hopen : lexeme.kind = .unterminatedComment
      · obtain rfl := hclosed [] lexeme rest rfl hopen
        exact hstep.mono hrest.le
      · refine ih hrest (fun later hlater => hsubset (List.mem_cons_of_mem _ hlater)) ?_ hstep
          (hcomma hopen)
        intro front later back hsplit hkind
        exact hclosed (lexeme :: front) later back (by rw [hsplit, List.cons_append]) hkind

theorem isPlaced_missing (problem : Problem) (size : Nat) :
    (Report.missing problem size).IsPlaced lexemes size :=
  Diagnostic.isPlaced_of_atEnd rfl rfl rfl

theorem inOrder_endIn {container : Container} {holes : List Hole} {reports : List Diagnostic}
    (hopened : ∃ opening ∈ lexemes, opening.Opens ∧ opening.toToken = container.opener ∧
      opening.span.start < setting.size)
    (horder : Report.InOrder lexemes setting.size setting.size reports) :
    Report.InOrder lexemes setting.size setting.size
      (endIn setting container holes reports).reports := by
  unfold endIn
  split
  · exact horder
  · obtain ⟨opening, hmem, hopens, hsame, hstart⟩ := hopened
    exact horder.add (isPlaced_started (isPlaced_missing _ _) rfl hmem hopens hsame hstart) rfl

theorem inOrder_endWithout {holes : List Hole} {reports : List Diagnostic}
    (hopened : OpenedBefore lexemes setting.size ⟨.value, holes, reports⟩)
    (horder : Report.InOrder lexemes setting.size setting.size reports) :
    Report.InOrder lexemes setting.size setting.size
      (endWithout setting holes reports).reports := by
  cases holes with
  | nil => exact horder
  | cons hole rest =>
      refine inOrder_endIn ?_ horder
      rw [Hole.opener_fill]
      exact hopened hole.opener (by simp [Focus.opener?])

theorem inOrder_endBefore {holes : List Hole} {reports : List Diagnostic}
    {diagnostic : Diagnostic} (hplaced : diagnostic.IsPlaced lexemes setting.size)
    (hoffset : diagnostic.offset = setting.size)
    (hopened : OpenedBefore lexemes setting.size ⟨.value, holes, reports⟩)
    (horder : Report.InOrder lexemes setting.size setting.size reports) :
    Report.InOrder lexemes setting.size setting.size
      (endBefore setting diagnostic holes reports).reports := by
  unfold endBefore
  split
  · exact horder
  · exact inOrder_endWithout hopened (horder.add hplaced hoffset)

theorem inOrder_finish {reader : Reader}
    (horderly : reader.Orderly lexemes setting.size setting.size) (isGroup : Bool) :
    Report.InOrder lexemes setting.size setting.size
      (reader.finish setting isGroup).reports := by
  obtain ⟨focus, holes, reports⟩ := reader
  obtain ⟨horder, hopened⟩ := horderly
  cases focus with
  | value =>
      cases holes with
      | nil =>
          cases isGroup with
          | false => exact horder
          | true => exact horder.add (isPlaced_missing _ _) rfl
      | cons hole rest =>
          exact inOrder_endBefore (Diagnostic.isPlaced_of_atEnd rfl rfl rfl) rfl hopened horder
  | part container comma => exact inOrder_endIn (hopened _ (by simp [Focus.opener?])) horder
  | separator container => exact inOrder_endIn (hopened _ (by simp [Focus.opener?])) horder
  | colon opener members key =>
      have hopener := hopened opener (by simp [Focus.opener?])
      simp only [finish, endAfterName]
      split
      · exact inOrder_endIn hopener horder
      · exact inOrder_endIn hopener (horder.add (isPlaced_missing _ _) rfl)
  | parameterName marker => exact inOrder_endBefore (isPlaced_missing _ _) rfl hopened horder
  | parameterClose marker name =>
      exact inOrder_endBefore (isPlaced_missing _ _) rfl hopened horder
  | skip depth container next =>
      exact inOrder_endIn (hopened _ (by simp [Focus.opener?])) horder
  | skipParameter depth => exact inOrder_endWithout hopened horder
  | finished root => exact horder
  | stopped root isCut => exact horder

theorem inOrder_conclusion (setting : Setting) (source : String) (isGroup : Bool)
    (hsize : setting.size = Utf8.size source.toList) :
    Report.InOrder (lex source) setting.size setting.size
      ((start.run setting (lex source)).finish setting isGroup).reports := by
  apply inOrder_finish
  have htiles : Tiles 0 setting.size (lex source) := hsize ▸ tiles_lex source
  refine orderly_run htiles (List.Subset.refl _) ?_
    ⟨.nil, by simp [OpenedBefore, start, Focus.opener?]⟩ (.of_ne (by simp [start]))
  intro front lexeme back hlex hkind
  exact eq_nil_of_unterminatedComment hlex hkind

end Reader

/-- The diagnostics of a body stand at strictly increasing offsets.  Each has the range of a token,
or no token and the empty range at the end of the body, which only the last one can have; the
places that it refers to are opening brackets before it. -/
theorem diagnostics_in_order (options : Options) (source : String) :
    (options.parse source).diagnostics.toList.Pairwise
        (fun first second => first.offset < second.offset) ∧
      (∀ diagnostic ∈ (options.parse source).diagnostics.toList,
        diagnostic.IsPlaced (lex source) (Utf8.size source.toList)) ∧
      ∀ front diagnostic back,
        (options.parse source).diagnostics.toList = front ++ diagnostic :: back →
          diagnostic.token = none → back = [] := by
  have horder := Reader.inOrder_conclusion (options.setting source) source options.isGroup rfl
  have hpairwise : (options.parse source).diagnostics.toList.Pairwise
      fun first second => first.offset < second.offset :=
    List.pairwise_reverse.mpr horder.ordered
  have hplaced : ∀ diagnostic ∈ (options.parse source).diagnostics.toList,
      diagnostic.IsPlaced (lex source) (Utf8.size source.toList) :=
    fun diagnostic hmem => horder.placed diagnostic (List.mem_reverse.mp hmem)
  refine ⟨hpairwise, hplaced, ?_⟩
  intro front diagnostic back hsplit hnone
  -- what has no token stands at the end, and no diagnostic stands behind the end
  have hend : diagnostic.offset = Utf8.size source.toList := by
    rcases (hplaced diagnostic (by simp [hsplit])).span with ⟨_, _, hsome, _⟩ | ⟨_, hspan⟩
    · rw [hnone] at hsome
      contradiction
    · rw [Diagnostic.offset, hspan]
      rfl
  rw [hsplit] at hpairwise
  cases back with
  | nil => rfl
  | cons later back =>
      have hlater : diagnostic.offset < later.offset :=
        List.rel_of_pairwise_cons (List.pairwise_append.mp hpairwise).2.1 List.mem_cons_self
      have hmem : later ∈ (options.parse source).diagnostics.toList := by simp [hsplit]
      have hreached := horder.reached later (List.mem_reverse.mp hmem)
      rw [hend] at hlater
      exact absurd hlater (not_lt.mpr hreached)

end QueryBody
