import QueryBody.Proofs.Truncation
import QueryBody.Proofs.UncutFragments
import QueryBody.Query
import Mathlib.Tactic

/-!
# Queries that are cut off

No sentence is the beginning of another one, and the part of a token that is broken off
ends a sentence only if it is a number.  So a query that stops before the end of its root
is always rejected, unless the root is a number.
-/

namespace QueryBody

/-! ### Where sentences end -/

/-- A sentence ends with a closing token, or it is a scalar. -/
theorem Spells.last {value : Value} {front : List Lexeme} {last : Lexeme}
    (hspells : Spells value (front ++ [last])) :
    front = [] ∧ (∃ content, last.scalar? = some content) ∨
      last.kind ∈ [Kind.parameterClose, .bracketClose, .braceClose] := by
  generalize hlexemes : front ++ [last] = lexemes at hspells
  cases hspells with
  | scalar hcontent =>
      obtain ⟨rfl, hsame⟩ := List.append_inj' (hlexemes.trans (List.nil_append _).symm) rfl
      obtain rfl := List.singleton_inj.mp hsame
      exact Or.inl ⟨rfl, _, hcontent⟩
  | parameter hopening hname hclosing =>
      rename_i opening name closing
      obtain ⟨_, hsame⟩ :=
        List.append_inj' (hlexemes.trans (rfl : _ = [opening, name] ++ [closing])) rfl
      obtain rfl := List.singleton_inj.mp hsame
      exact Or.inr (by simp [hclosing])
  | array hopening hclosing hrow hparts =>
      obtain ⟨_, hsame⟩ := List.append_inj' hlexemes rfl
      obtain rfl := List.singleton_inj.mp hsame
      exact Or.inr (by simp [hclosing])
  | object hopening hclosing hrow hnames hparts =>
      obtain ⟨_, hsame⟩ := List.append_inj' hlexemes rfl
      obtain rfl := List.singleton_inj.mp hsame
      exact Or.inr (by simp [hclosing])

theorem Spells.type_of_number {value : Value} {first : Lexeme} {rest : List Lexeme}
    (hspells : Spells value (first :: rest)) (hkind : first.kind = .number) :
    value.type = .number := by
  cases hspells with
  | scalar hcontent =>
      simp only [Lexeme.scalar?, hkind, Option.some.injEq] at hcontent
      exact hcontent ▸ rfl
  | parameter hopening _ _ => simp [hkind] at hopening
  | array hopening _ _ _ => simp [hkind] at hopening
  | object hopening _ _ _ _ => simp [hkind] at hopening

theorem Spells.eq_nil_of_append {value other : Value} {front back : List Lexeme}
    (hspells : Spells value front) (hwhole : Spells other (front ++ back))
    (hsignificant : ∀ lexeme ∈ back, lexeme.kind.isTrivia = false) : back = [] := by
  let setting : Setting := ⟨false, none, 0⟩
  have hcut : ∀ lexemes : List Lexeme, ∀ lexeme ∈ lexemes, setting.isCutIn lexeme = false :=
    fun _ lexeme _ => Reader.isCutIn_of_isCutInMarker (Setting.isCutInMarker_of_strict rfl lexeme)
  have hroom : ∀ depth, Allows setting.nestingLimit depth := by simp [setting, Allows]
  have hfirst := hspells.delivers (hcut front) [] [] (hroom _)
  have hboth := hwhole.delivers (hcut (front ++ back)) [] [] (hroom _)
  rw [Reader.run_append, hfirst] at hboth
  cases back with
  | nil => rfl
  | cons lexeme rest =>
      -- the first token after the root would be reported
      have hreports := congrArg Reader.reports hboth
      rw [Reader.run_cons, Reader.step_of_not_isTrivia (hsignificant lexeme List.mem_cons_self)]
        at hreports
      have hexcess : ((Reader.deliver (some value) [] []).take setting lexeme).reports = [] :=
        Reader.reports_eq_nil_of_suffix (Reader.suffix_run _ _ rest)
          (hreports.trans (Reader.deliver_reports _ _ _))
      simp only [Reader.deliver, Reader.take, hcut [lexeme] lexeme List.mem_cons_self,
        Bool.false_eq_true, if_false] at hexcess
      exact (Report.add_ne_nil _ [] hexcess).elim

/-! ### Beginnings of sentences -/

theorem Lexer.brokenKind_eq_number {kind : Kind} {part : List Char}
    (hkind : checked (brokenKind kind part) part = .number) : kind = .number := by
  have hbroken : brokenKind kind part = .number := by
    unfold checked at hkind
    split at hkind
    · split at hkind <;> contradiction
    next hnumber => exact hnumber
    · exact hkind
  have hword := wordKind_mem part
  unfold brokenKind at hbroken
  split at hbroken
  case h_2 | h_3 | h_4 | h_5 => simp [hbroken] at hword
  case h_10 => exact hbroken
  all_goals first | contradiction | (split at hbroken <;> contradiction)

/-- Of the parts of a token only that of a number ends a sentence. -/
theorem Reader.BrokenInto.type_of_spells {token last : Lexeme} {part : List Char}
    {front back : List Lexeme} {value other : Value} (hinto : Reader.BrokenInto token part last)
    (hlast : last.kind = Lexer.checked (Lexer.brokenKind token.kind part) part)
    (hsignificant : last.kind.isTrivia = false) (hspells : Spells other (front ++ [last]))
    (hwhole : Spells value (front ++ significant (token :: back))) : value.type = .number := by
  cases hinto with
  | trivia htrivia =>
      rw [htrivia] at hsignificant
      contradiction
  | changing hopen hkept hrecovery =>
      have hnumber := hspells.number_of_isOpen hopen
      obtain ⟨lexeme, hsingle, _, hkind⟩ := (hnumber ▸ hspells).token_of_number
      obtain ⟨rfl, hsame⟩ := List.append_inj' (hsingle.trans (List.nil_append _).symm) rfl
      obtain rfl := List.singleton_inj.mp hsame
      rw [List.nil_append, significant_cons_of_not_isTrivia hkept] at hwhole
      exact hwhole.type_of_number (Lexer.brokenKind_eq_number (hlast ▸ hkind))
  | slash hcomment hpart hkind =>
      have hsound := hspells.allSound last (by simp)
      rw [hkind] at hsound
      contradiction
  | word hname hkind =>
      have hmem := hkind ▸ Lexer.wordKind_mem part
      rcases hspells.last with ⟨rfl, _⟩ | hclosing
      · -- no sentence begins with a bare word
        rw [List.nil_append, significant_cons_of_not_isTrivia (by rw [hname]; rfl)] at hwhole
        obtain ⟨first, rest, hfirst, hbegins⟩ := hwhole.begins
        obtain ⟨rfl, _⟩ := List.cons.inj hfirst
        rw [hname] at hbegins
        contradiction
      · simp only [List.mem_cons, List.not_mem_nil, or_false] at hmem hclosing
        rcases hclosing with hclosing | hclosing | hclosing <;> simp [hclosing] at hmem
  | brace hmarker hpart hkind =>
      rcases hspells.last with ⟨_, content, hcontent⟩ | hclosing
      · simp [Lexeme.scalar?, hkind] at hcontent
      · simp [hkind] at hclosing

/-- Where the text of the root ends: with the last token of the body that is neither white space
nor a comment. -/
def rootStop (source : String) : Nat :=
  ((significant (lex source)).getLast?.map (·.span.stop)).getD 0

theorem rootStop_le {source taken : String} {before : List Lexeme}
    (hsame : significant (lex source) = significant before)
    (hsubset : before ⊆ lex taken) : rootStop source ≤ Utf8.size taken.toList := by
  rw [rootStop, hsame]
  cases hlast : (significant before).getLast? with
  | none => exact Nat.zero_le _
  | some last =>
      have hmem : last ∈ lex taken :=
        hsubset (List.mem_filter.mp (List.mem_of_getLast? hlast)).1
      exact ((tiles_lex taken).mem hmem).2.2

variable {limit : Option Nat} {source taken : String} {value other : Value}

theorem not_isSentence_of_beginning (hsentence : IsSentence limit (lex source) value)
    (hnumber : value.type ≠ .number) (htaken : taken.toList <+: source.toList)
    (hshort : Utf8.size taken.toList < rootStop source) :
    ¬IsSentence limit (lex taken) other := by
  intro hbeginning
  have hsound := allSound_of_isSentence hsentence
  -- if the tokens taken spell a value by themselves, the body has no others
  have hwhole : ∀ before after, lex source = before ++ after → before ⊆ lex taken →
      ¬Spells other (significant before) := by
    intro before after hlex hsubset hspells
    have hboth := hsentence.spells
    rw [hlex, significant_append] at hboth
    have hnil := hspells.eq_nil_of_append hboth
      (fun lexeme hmem => by simpa using (List.mem_filter.mp hmem).2)
    have hsame : significant (lex source) = significant before := by
      rw [hlex, significant_append, hnil, List.append_nil]
    exact absurd (rootStop_le hsame hsubset) (not_le.mpr hshort)
  obtain ⟨back, hback⟩ := htaken
  have htext : (lex source).flatMap Lexeme.text = taken.toList ++ back := by
    rw [flatMap_lex, hback]
  rcases exists_boundary htext with ⟨before, after, hlex, hends⟩ |
    ⟨before, token, after, part, rest, hlex, htoken, hpart, hrest, hbroken⟩
  · have hlexTaken := lex_of_whole hsound hlex hends
    exact hwhole before after hlex (hlexTaken ▸ List.Subset.refl _)
      (hlexTaken ▸ hbeginning.spells)
  · obtain ⟨after, last, hlex, hlexTaken, hkind, hinto⟩ :=
      exists_lex_of_broken hsound ⟨after, rest, hlex, htoken, hpart, hrest, hbroken⟩
    have hspells := hbeginning.spells
    rw [hlexTaken, significant_append] at hspells
    cases htrivia : last.kind.isTrivia with
    | true =>
        rw [significant_cons_of_isTrivia htrivia, significant_nil, List.append_nil] at hspells
        exact hwhole before (token :: after) hlex
          (hlexTaken ▸ List.subset_append_left _ _) hspells
    | false =>
        rw [significant_cons_of_not_isTrivia htrivia, significant_nil] at hspells
        have hboth := hsentence.spells
        rw [hlex, significant_append] at hboth
        exact hnumber (hinto.type_of_spells hkind htrivia hspells hboth)

/-! ### Queries -/

theorem checkQuery_eq_ok_iff {body : Body} :
    checkQuery source = .ok body ↔
      (Options.groupWithin (some 512)).parse source = body ∧ body.IsSilent := by
  have hsilent : (Options.group.parse source).hasError = false ↔
      (Options.group.parse source).IsSilent := by
    simp [Body.hasError, Diagnostics.isEmpty, Body.IsSilent]
  unfold checkQuery
  dsimp only
  split
  next herror =>
    constructor
    · intro hok
      contradiction
    · rintro ⟨rfl, hquiet⟩
      rw [hsilent.mpr hquiet] at herror
      contradiction
  next hquiet =>
    rw [Bool.not_eq_true, hsilent] at hquiet
    constructor
    · rintro ⟨rfl⟩
      exact ⟨rfl, hquiet⟩
    · rintro ⟨rfl, _⟩
      rfl

/-- A query that is cut off before the end of its root is rejected, unless the root is a
number. -/
theorem checkQuery_beginning {body : Body} (haccepted : checkQuery source = .ok body)
    (hnumber : ∀ value, body.root = some value → value.type ≠ .number)
    (htaken : taken.toList <+: source.toList)
    (hshort : Utf8.size taken.toList < rootStop source) :
    ∃ errors, checkQuery taken = .error errors := by
  obtain ⟨rfl, hsilent⟩ := checkQuery_eq_ok_iff.mp haccepted
  obtain ⟨value, hsentence⟩ := isSentence_of_isSilent hsilent
  have hroot : ((Options.groupWithin (some 512)).parse source).root = some value := by
    rw [parse_of_isSentence hsentence]
  cases hcheck : checkQuery taken with
  | error errors => exact ⟨errors, rfl⟩
  | ok other =>
      obtain ⟨rfl, hquiet⟩ := checkQuery_eq_ok_iff.mp hcheck
      obtain ⟨found, hbeginning⟩ := isSentence_of_isSilent hquiet
      exact absurd hbeginning
        (not_isSentence_of_beginning hsentence (hnumber value hroot) htaken hshort)

theorem checkQuery_beginning_in_string :
    Utf8.size "[1, \"a]".toList < rootStop "[1, \"a] \"] // ids" ∧
      ∃ errors, checkQuery "[1, \"a]" = .error errors := by
  have hsilent : ((Options.groupWithin (some 512)).parse "[1, \"a] \"] // ids").IsSilent := by
    unfold Body.IsSilent
    decide +kernel
  have htype : ((Options.groupWithin (some 512)).parse "[1, \"a] \"] // ids").root.map
      Value.type = some .array := by
    decide +kernel
  have hnumber : ∀ value,
      ((Options.groupWithin (some 512)).parse "[1, \"a] \"] // ids").root = some value →
        value.type ≠ .number := by
    intro value hroot hkind
    simp [hroot, hkind] at htype
  have hshort : Utf8.size "[1, \"a]".toList < rootStop "[1, \"a] \"] // ids" := by
    have hstop : rootStop "[1, \"a] \"] // ids" = 10 := by decide +kernel
    rw [hstop]
    decide
  exact ⟨hshort, checkQuery_beginning (checkQuery_eq_ok_iff.mpr ⟨rfl, hsilent⟩) hnumber
    (by decide) hshort⟩

end QueryBody
