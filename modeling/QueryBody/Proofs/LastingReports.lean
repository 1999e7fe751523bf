import QueryBody.Proofs.AppendedTokens
import QueryBody.Proofs.Expectation
import QueryBody.Proofs.LaterReports
import QueryBody.Proofs.Truncation
import Mathlib.Tactic

/-!
# Reports that last

While a body arrives, what has been reported about a token before the last one stays
reported.  The last token may yet become another one; what a reader reports when it
takes that token is about the token itself, unless it is a closing bracket, and a
closing bracket stays what it is.
-/

namespace QueryBody

theorem filter_isPrefix {α : Type} {entries : List α} {p : α → Bool}
    (hdown : entries.Pairwise fun earlier later => p later = true → p earlier = true) :
    entries.filter p <+: entries := by
  induction entries with
  | nil => exact List.prefix_rfl
  | cons entry rest ih =>
      rw [List.pairwise_cons] at hdown
      cases hentry : p entry with
      | true =>
          rw [List.filter_cons_of_pos hentry]
          exact (List.prefix_cons_inj entry).mpr (ih hdown.2)
      | false =>
          have hnone : rest.filter p = [] := by
            rw [List.filter_eq_nil_iff]
            intro later hlater hholds
            rw [hdown.1 later hlater hholds] at hentry
            contradiction
          rw [List.filter_cons_of_neg (by simp [hentry]), hnone]
          exact List.nil_prefix

/-- The diagnostic is about a token that ends before an offset. -/
def Diagnostic.endsBefore (diagnostic : Diagnostic) (offset : Nat) : Bool :=
  diagnostic.token.any (·.span.stop < offset)

namespace Report

/-- The reports are earlier ones and others about this token. -/
def OnlyAbout (token : Token) (earlier reports : List Diagnostic) : Prop :=
  ∃ others, reports = others ++ earlier ∧ ∀ diagnostic ∈ others, diagnostic.token = some token

namespace OnlyAbout

variable {token : Token} {earlier reports : List Diagnostic} {diagnostic : Diagnostic}

theorem refl (token : Token) (reports : List Diagnostic) : OnlyAbout token reports reports :=
  Since.refl _ _

theorem add (honly : OnlyAbout token earlier reports)
    (htoken : diagnostic.token = some token) :
    OnlyAbout token earlier (Report.add diagnostic reports) := Since.add honly htoken

theorem filter_eq (honly : OnlyAbout token earlier reports) {offset : Nat}
    (hstop : offset ≤ token.span.stop) :
    reports.filter (·.endsBefore offset) = earlier.filter (·.endsBefore offset) := by
  obtain ⟨others, rfl, hothers⟩ := honly
  have hnone : others.filter (·.endsBefore offset) = [] := by
    rw [List.filter_eq_nil_iff]
    intro diagnostic hmem
    simp [Diagnostic.endsBefore, hothers diagnostic hmem, hstop]
  rw [List.filter_append, hnone, List.nil_append]

end OnlyAbout
end Report

namespace Reader

variable {setting : Setting} {lexeme : Lexeme} {earlier : List Diagnostic} {first last : Reader}

theorem Turn.onlyAbout (hturn : Turn setting lexeme first last)
    (honly : Report.OnlyAbout lexeme.toToken earlier first.reports) :
    Report.OnlyAbout lexeme.toToken earlier last.reports := by
  cases hturn with
  | item hrecovery => exact honly
  | missingValue hrecovery => simpa using honly.add (Report.instead_isAbout _ _).token
  | noProperty hcut hrecovery hkind => exact honly.add (Report.noProperty_isAbout _).token
  | missingComma hrecovery hbegins => exact honly.add (Report.instead_isAbout _ _).token
  | noPart hrecovery hbegins => exact honly.add (Report.instead_isAbout _ _).token
  | resume hrecovery => exact honly
  | resumePart hrecovery => exact honly
  | mismatched hrecovery hcomma hcloser => simpa using honly.add rfl
  | mismatchedPart hrecovery hcomma hcloser => simpa using honly.add rfl
  | missingColon hcut hkind hfirst => exact honly.add (Report.instead_isAbout _ _).token
  | noPair hcut hkind hfirst => exact honly.add (Report.instead_isAbout _ _).token
  | noName hcut hkind => exact honly.add (Report.instead_isAbout _ _).token
  | noMarker hcut hkind => simpa using honly.add (Report.instead_isAbout _ _).token
  | resumeParameter hrecovery => simpa using honly

/-- Only at a closing bracket is something else reported than the token itself. -/
theorem Shift.onlyAbout (hshift : Shift setting lexeme first last)
    (hcloser : ∀ container : Container, lexeme.kind ≠ container.closer)
    (honly : Report.OnlyAbout lexeme.toToken earlier first.reports) :
    Report.OnlyAbout lexeme.toToken earlier last.reports := by
  cases hshift with
  | tooDeep hkind hexceeded => exact honly.add (Report.tooDeep_isAbout _ _).token
  | noValue hcut hrecovery hfirst => simpa using honly.add (Report.noValue_isAbout _).token
  | extraComma hkind => exact honly.add (Report.noPart_isAbout _ _).token
  | close hkind => exact absurd hkind (hcloser _)
  | closePart hkind => exact absurd hkind (hcloser _)
  | excess hcut => exact honly.add (Report.instead_isAbout _ _).token
  | scalar hcontent => simpa using honly
  | parameterClose hkind => simpa using honly
  | brokenMarker hkind => simpa using honly
  | _ => exact honly

theorem onlyAbout_step (setting : Setting) (reader : Reader)
    (hcloser : ∀ container : Container, lexeme.kind ≠ container.closer) :
    Report.OnlyAbout lexeme.toToken reader.reports (reader.step setting lexeme).reports := by
  have hrefl := Report.OnlyAbout.refl lexeme.toToken reader.reports
  unfold step
  split
  · unfold ignore
    split
    · exact hrefl.add rfl
    · exact hrefl
  · refine take_induction
      (fun turned => Report.OnlyAbout lexeme.toToken reader.reports turned.reports)
      (fun taken => Report.OnlyAbout lexeme.toToken reader.reports taken.reports) ?_ ?_ hrefl
    · intro first last hturn honly
      exact hturn.onlyAbout honly
    · intro first last hshift honly
      exact hshift.onlyAbout hcloser honly

theorem step_closer {short long : Setting} (hlimit : short.nestingLimit = long.nestingLimit)
    (container : Container) (hkind : lexeme.kind = container.closer) (reader : Reader) :
    reader.step short lexeme = reader.step long lexeme := by
  have hcut (setting : Setting) : setting.isCutIn lexeme = false :=
    isCutIn_of_valueRecovery (hkind ▸ (closer_mem_valueRecovery container).1)
  have hmarker (setting : Setting) : setting.isCutInMarker lexeme = false := by
    cases container <;> simp [Setting.isCutInMarker, hcut, hkind, Container.closer]
  have hsignificant : lexeme.kind.isTrivia = false := by
    rw [hkind]
    cases container <;> rfl
  rw [step_of_not_isTrivia hsignificant, step_of_not_isTrivia hsignificant]
  refine take_congr hlimit ?_ fun _ => ?_
  · rw [hcut, hcut]
  · rw [hmarker, hmarker]

end Reader

/-! ### A body that goes on -/

variable {options : Options} {source : String} {front : List Lexeme} {last : Lexeme}

theorem run_front_append (hlex : lex source = front ++ [last]) (options : Options)
    (more : String) :
    Reader.start.run (options.setting source) front =
      Reader.start.run (options.setting (source ++ more)) front := by
  have hstops := (stops_of_lex hlex).2
  have hsize : Utf8.size source.toList ≤ Utf8.size (source ++ more).toList := by
    rw [String.toList_append, Utf8.size_append]
    omega
  have hcut {body : String} (hbody : Utf8.size source.toList ≤ Utf8.size body.toList) :
      ∀ lexeme ∈ front, (options.setting body).isCutIn lexeme = false ∧
        (options.setting body).isCutInMarker lexeme = false := by
    intro lexeme hmem
    have hne : ¬lexeme.span.stop = (options.setting body).size := by
      have hlt := hstops lexeme hmem
      simp only [Options.setting]
      omega
    simp [Setting.isCutIn, Setting.isCutInMarker, hne]
  have hlimit : (options.setting source).nestingLimit =
      (options.setting (source ++ more)).nestingLimit := rfl
  refine Reader.run_congr hlimit ?_ ?_ Reader.start
  · intro lexeme hmem
    obtain ⟨hshort, hshortMarker⟩ := hcut le_rfl lexeme hmem
    obtain ⟨hlong, hlongMarker⟩ := hcut hsize lexeme hmem
    exact ⟨hshort.trans hlong.symm, hshortMarker.trans hlongMarker.symm⟩
  · intro lexeme hmem hkind
    obtain ⟨before, after, rfl⟩ := List.append_of_mem hmem
    rw [List.append_assoc, List.cons_append] at hlex
    have hnil := eq_nil_of_unterminatedComment hlex hkind
    simp at hnil

/-- Some reports are there whether the body goes on or not, and they are all those about tokens
before the last one. -/
theorem exists_lasting (hlex : lex source = front ++ [last]) (options : Options)
    (more : String) :
    ∃ lasting,
      lasting <:+ (Reader.start.run (options.setting source) (lex source)).reports ∧
      lasting <:+
        (Reader.start.run (options.setting (source ++ more)) (lex (source ++ more))).reports ∧
      (Reader.start.run (options.setting source) (lex source)).reports.filter
          (·.endsBefore (Utf8.size source.toList)) =
        lasting.filter (·.endsBefore (Utf8.size source.toList)) := by
  have hfront := run_front_append hlex options more
  by_cases hcloser : ∃ container : Container, last.kind = container.closer
  · obtain ⟨container, hkind⟩ := hcloser
    have hlimit : (options.setting source).nestingLimit =
        (options.setting (source ++ more)).nestingLimit := rfl
    have hwhole : Reader.start.run (options.setting source) (lex source) =
        Reader.start.run (options.setting (source ++ more)) (lex source) := by
      rw [hlex, Reader.run_append, Reader.run_append, hfront, Reader.run_cons, Reader.run_cons,
        Reader.step_closer hlimit container hkind]
      rfl
    have hends : ∀ lexeme ∈ (lex source).getLast?, ∀ c,
        Lexer.endsBefore lexeme.kind c = true := by
      intro lexeme hlexeme c
      obtain rfl : last = lexeme := by simpa [hlex] using hlexeme
      rw [hkind]
      cases container <;> rfl
    obtain ⟨later, hlonger⟩ :=
      exists_lex_append (List.append_nil (lex source)).symm (Or.inr hends) more
    refine ⟨_, List.suffix_rfl, ?_, rfl⟩
    rw [hwhole, hlonger, Reader.run_append]
    exact Reader.suffix_run _ _ _
  · have honly := Reader.onlyAbout_step (options.setting source)
      (Reader.start.run (options.setting source) front) (not_exists.mp hcloser)
    obtain ⟨later, hlonger⟩ := exists_lex_append hlex (Or.inl (List.cons_ne_nil _ _)) more
    refine ⟨(Reader.start.run (options.setting source) front).reports, ?_, ?_, ?_⟩
    · rw [hlex, Reader.run_append]
      exact Reader.suffix_run _ _ _
    · rw [hlonger, Reader.run_append, hfront]
      exact Reader.suffix_run _ _ _
    · rw [hlex, Reader.run_append, Reader.run_cons, Reader.run_nil]
      exact honly.filter_eq (stops_of_lex hlex).1.ge

theorem endsBefore_of_offset_lt {earlier later : Diagnostic}
    (hearlier : earlier.IsPlaced (lex source) (Utf8.size source.toList))
    (hlater : later.IsPlaced (lex source) (Utf8.size source.toList))
    (hlt : earlier.offset < later.offset)
    (hends : later.endsBefore (Utf8.size source.toList) = true) :
    earlier.endsBefore (Utf8.size source.toList) = true := by
  have htiles := tiles_lex source
  rcases hlater.span with ⟨second, hsecond, htoken, hspan⟩ | ⟨hnone, _⟩
  · have hstop : second.span.stop < Utf8.size source.toList := by
      simpa [Diagnostic.endsBefore, htoken] using hends
    rw [Diagnostic.offset, Diagnostic.offset, hspan] at hlt
    have hbounds := htiles.mem hsecond
    rcases hearlier.span with ⟨first, hfirst, hfirstToken, hfirstSpan⟩ | ⟨_, hend⟩
    · rw [hfirstSpan] at hlt
      have hle := htiles.stop_le hfirst hsecond hlt
      have hfirstStop : first.span.stop < Utf8.size source.toList := by omega
      simpa [Diagnostic.endsBefore, hfirstToken] using hfirstStop
    · rw [hend] at hlt
      simp only [Span.point] at hlt
      omega
  · simp [Diagnostic.endsBefore, hnone] at hends

theorem toList_diagnostics_parse (hraw : options.isGroup = false)
    (hfragments : options.allowsFragments = true) (source : String) :
    (options.parse source).diagnostics.toList =
      (Reader.start.run (options.setting source) (lex source)).reports.reverse := by
  have hsetting : (options.setting source).allowsFragments = true := hfragments
  rw [Options.parse, hraw]
  exact congrArg List.reverse (Reader.finish_reports_of_fragments hsetting _)

/-- What a fragment reports about tokens before its last one, it reports first and unchanged
however it goes on. -/
theorem diagnostics_isPrefix_append (hraw : options.isGroup = false)
    (hfragments : options.allowsFragments = true) (source more : String) :
    (options.parse source).diagnostics.toList.filter
        (·.endsBefore (Utf8.size source.toList)) <+:
      (options.parse (source ++ more)).diagnostics.toList := by
  have hshort := toList_diagnostics_parse hraw hfragments source
  have hlong := toList_diagnostics_parse hraw hfragments (source ++ more)
  rcases List.eq_nil_or_concat (lex source) with hnil | ⟨front, last, hlex⟩
  · rw [hshort, hnil]
    exact List.nil_prefix
  obtain ⟨lasting, hinShort, hinLong, hfilter⟩ :=
    exists_lasting (by simpa using hlex) options more
  have horder := Reader.inOrder_conclusion (options.setting source) source options.isGroup rfl
  rw [hraw, Reader.finish_reports_of_fragments hfragments] at horder
  have hdown : lasting.reverse.Pairwise fun earlier later =>
      later.endsBefore (Utf8.size source.toList) = true →
        earlier.endsBefore (Utf8.size source.toList) = true := by
    rw [List.pairwise_reverse]
    refine (horder.ordered.sublist hinShort.sublist).imp_of_mem ?_
    intro later earlier hlater hearlier hlt
    exact endsBefore_of_offset_lt (horder.placed _ (hinShort.subset hearlier))
      (horder.placed _ (hinShort.subset hlater)) hlt
  calc (options.parse source).diagnostics.toList.filter (·.endsBefore (Utf8.size source.toList))
      = lasting.reverse.filter (·.endsBefore (Utf8.size source.toList)) := by
        rw [hshort, List.filter_reverse, hfilter, List.filter_reverse]
    _ <+: lasting.reverse := filter_isPrefix hdown
    _ <+: (options.parse (source ++ more)).diagnostics.toList := by
        rw [hlong]
        exact List.reverse_prefix.mpr hinLong

/-- The word at the end is cut off first and missing a colon later; the missing comma stays. -/
theorem diagnostics_isPrefix_append_cut_word :
    ((Options.fragmentWithin (some 2)).parse "[1 2, \x7b\"a\" tr").diagnostics.size = 1 ∧
      ((Options.fragmentWithin (some 2)).parse "[1 2, \x7b\"a\" tr").diagnostics.toList.filter
          (·.endsBefore (Utf8.size "[1 2, \x7b\"a\" tr".toList)) <+:
        ((Options.fragmentWithin (some 2)).parse
          ("[1 2, \x7b\"a\" tr" ++ "ue")).diagnostics.toList := by
  have hsize :
      ((Options.fragmentWithin (some 2)).parse "[1 2, \x7b\"a\" tr").diagnostics.size = 1 := by
    decide +kernel
  exact ⟨hsize, diagnostics_isPrefix_append rfl rfl "[1 2, \x7b\"a\" tr" "ue"⟩

end QueryBody
