import QueryBody.Proofs.Completion
import QueryBody.Proofs.Expectation
import QueryBody.Proofs.Stages
import QueryBody.Body
import Mathlib.Tactic

/-!
# Broken parts

A mistake in a part of a container ends with the part, if the brackets in the part match.
The parts of the container are what each part comes to on its own.
-/

namespace QueryBody

/-- Tokens by their kinds and texts, in which the brackets match. -/
inductive Balanced : List (Kind × List Char) → Prop
  | nil : Balanced []
  | token {piece : Kind × List Char} {rest : List (Kind × List Char)}
      (hopener : piece.1.closer? = none) (hcloser : ¬piece.1.IsCloser) (hrest : Balanced rest) :
      Balanced (piece :: rest)
  | group {opening closing : Kind × List Char} {inner rest : List (Kind × List Char)}
      (hpair : opening.1.closer? = some closing.1) (hinner : Balanced inner)
      (hrest : Balanced rest) : Balanced (opening :: (inner ++ closing :: rest))

theorem Balanced.plain {piece : Kind × List Char} {rest : List (Kind × List Char)}
    (hplain : piece.1.closer? = none ∧ piece.1 ≠ .braceClose ∧ piece.1 ≠ .bracketClose)
    (hrest : Balanced rest) : Balanced (piece :: rest) :=
  .token hplain.1 (not_or.mpr hplain.2) hrest

/-- A body that must be complete and may nest without limit. -/
def Setting.unlimited : Setting := ⟨false, none, 0⟩

theorem Setting.allowsFragments_unlimited : unlimited.allowsFragments = false := rfl

theorem Setting.nestingLimit_unlimited : unlimited.nestingLimit = none := rfl

namespace Kind

variable {kind closer : Kind}

theorem valueRecovery_of_isCloser (hcloser : kind.IsCloser) :
    KindSet.valueRecovery.contains kind = true := by
  rcases hcloser with rfl | rfl <;> rfl

theorem isCloser_of_closer? (hpair : kind.closer? = some closer) : closer.IsCloser := by
  cases kind <;> cases hpair
  · exact Or.inl rfl
  · exact Or.inr rfl

theorem not_valueRecovery_of_closer? (hpair : kind.closer? = some closer) :
    KindSet.valueRecovery.contains kind = false := by
  cases kind <;> cases hpair <;> rfl

theorem not_valueRecovery (hcloser : ¬kind.IsCloser) (hcomma : kind ≠ .comma) :
    KindSet.valueRecovery.contains kind = false := by
  rw [IsCloser, not_or] at hcloser
  simp [KindSet.contains, KindSet.valueRecovery, hcloser, hcomma]

end Kind

namespace Stage

open Reader Setting

variable {closer : Kind}

/-- Tokens of these kinds and texts lead from one stage to the next and add parts to the
container. -/
def Leads (closer : Kind) (pieces : List (Kind × List Char)) (stage next : Stage)
    (added : List Part) : Prop :=
  ∀ ⦃lexemes : List Lexeme⦄, lexemes.map Lexeme.piece = pieces → ∀ ⦃parts holes reader⦄,
    At closer parts holes stage reader →
      At closer (added ++ parts) holes next (lexemes.foldl (take .unlimited) reader)

theorem Leads.nil (stage : Stage) : Leads closer [] stage stage [] := by
  intro lexemes hpieces parts holes reader hat
  rw [List.map_eq_nil_iff] at hpieces
  rw [hpieces]
  exact hat

theorem Leads.cons {piece : Kind × List Char} {pieces : List (Kind × List Char)}
    {stage mid next : Stage} {first second : List Part}
    (hfirst : Takes .unlimited closer piece stage mid first)
    (hrest : Leads closer pieces mid next second) :
    Leads closer (piece :: pieces) stage next (second ++ first) := by
  intro lexemes hpieces parts holes reader hat
  obtain ⟨lexeme, rest, rfl, hpiece, hpieces⟩ := List.map_eq_cons_iff.mp hpieces
  rw [List.foldl_cons, List.append_assoc]
  exact hrest hpieces (hfirst hpiece hat)

theorem Leads.append {front back : List (Kind × List Char)} {stage mid next : Stage}
    {first second : List Part} (hfront : Leads closer front stage mid first)
    (hback : Leads closer back mid next second) :
    Leads closer (front ++ back) stage next (second ++ first) := by
  intro lexemes hpieces parts holes reader hat
  obtain ⟨fore, aft, rfl, hfore, haft⟩ := List.map_eq_append_iff.mp hpieces
  rw [List.foldl_append, List.append_assoc]
  exact hback haft (hfront hfore hat)

/-- Between two commas, or a comma and a bracket, the tokens come to these parts, the latest
first. -/
def Yields (closer : Kind) (pieces : List (Kind × List Char)) (parts : List Part) : Prop :=
  ∃ last added, last.depth = 0 ∧ Leads closer pieces .part last added ∧ parts = last.rest ++ added

theorem Yields.exists_close {inner : List (Kind × List Char)} {parts : List Part}
    {closing : Kind × List Char} (hyields : Yields closing.1 inner parts)
    (hcloser : closing.1.IsCloser) {lexemes : List Lexeme}
    (hpieces : lexemes.map Lexeme.piece = inner ++ [closing]) {holes : List Hole}
    {reader : Reader} (hat : At closing.1 [] holes .part reader) :
    ∃ (container : Container) (reports : List Diagnostic), container.Has closing.1 parts ∧
      lexemes.foldl (take .unlimited) reader = deliver (some container.value) holes reports := by
  obtain ⟨last, added, hdepth, hleads, rfl⟩ := hyields
  obtain ⟨front, back, rfl, hfront, hback⟩ := List.map_eq_append_iff.mp hpieces
  obtain ⟨bracket, rfl, hbracket⟩ := List.map_eq_singleton_iff.mp hback
  have hlast := hleads hfront hat
  rw [List.append_nil] at hlast
  rw [List.foldl_append, List.foldl_cons, List.foldl_nil]
  exact exists_take_closer allowsFragments_unlimited hdepth
    (Kind.valueRecovery_of_isCloser hcloser) (congrArg Prod.fst hbracket) hlast

/-- A container in a part is a value of the part, whatever is wrong in it. -/
theorem leads_group {opening closing : Kind × List Char} {inner : List (Kind × List Char)}
    {stage : Stage} {name : Option String} {parts : List Part}
    (hpair : opening.1.closer? = some closing.1)
    (hopens : Opens .unlimited closer opening stage name)
    (hinner : Yields closing.1 inner parts) :
    Leads closer (opening :: (inner ++ [closing])) stage .separator
      (Part.filling name (some (Part.datum closing.1 parts))) := by
  intro lexemes hpieces before holes reader hat
  obtain ⟨first, rest, rfl, rfl, hrest⟩ := List.map_eq_cons_iff.mp hpieces
  obtain ⟨hole, reports, hhas, hname, htake⟩ := hopens rfl hat
  obtain ⟨container, reports, hcontainer, hclose⟩ :=
    hinner.exists_close (Kind.isCloser_of_closer? hpair) hrest
      (at_opened hpair (hole :: holes) reports)
  rw [List.foldl_cons, htake, hclose, ← hcontainer.datum_value]
  exact at_deliver_some hhas hname container.value reports

theorem exists_takes_token {piece : Kind × List Char} (hopener : piece.1.closer? = none)
    (hcloser : ¬piece.1.IsCloser) (stage : Stage) :
    ∃ next added, next.depth = stage.depth ∧ Takes .unlimited closer piece stage next added := by
  by_cases hcomma : piece.1 = .comma
  · cases hdepth : stage.depth with
    | zero => exact ⟨.part, stage.rest, rfl, takes_comma allowsFragments_unlimited hdepth hcomma⟩
    | succ depth =>
        have hpass : ∀ lexeme : Lexeme, lexeme.piece = piece →
            Reader.pass lexeme (depth + 1) = depth + 1 := by
          rintro lexeme rfl
          have hkind : lexeme.kind = .comma := hcomma
          simp [Reader.pass, hkind]
        obtain ⟨next, hnext, htakes⟩ := exists_takes_inside allowsFragments_unlimited hdepth hpass
        exact ⟨next, [], hnext, htakes⟩
  · have hrecovery := Kind.not_valueRecovery hcloser hcomma
    cases responds hrecovery allowsFragments_unlimited nestingLimit_unlimited stage with
    | opens name hisOpener => rw [hopener] at hisOpener; contradiction
    | takes next added hdepth htakes =>
        refine ⟨next, added, ?_, htakes⟩
        rw [hdepth, Kind.rise, hopener]
        rfl

/-- Tokens in which the brackets match lead from every stage to one outside all brackets that
they open, and what they add depends on nothing else. -/
theorem exists_leads {pieces : List (Kind × List Char)} (hbalanced : Balanced pieces)
    (closer : Kind) (stage : Stage) :
    ∃ next added, next.depth = stage.depth ∧ Leads closer pieces stage next added := by
  induction hbalanced generalizing closer stage with
  | nil => exact ⟨stage, [], rfl, .nil stage⟩
  | token hopener hcloser hrest ih =>
      obtain ⟨mid, first, hmid, htakes⟩ := exists_takes_token hopener hcloser stage
      obtain ⟨next, second, hnext, hleads⟩ := ih closer mid
      exact ⟨next, second ++ first, hnext.trans hmid, hleads.cons htakes⟩
  | @group opening closing inner rest hpair hinner hrest ihinner ihrest =>
      have hgroup : opening :: (inner ++ closing :: rest) =
          opening :: (inner ++ [closing]) ++ rest := by simp
      rw [hgroup]
      have hrecovery := Kind.not_valueRecovery_of_closer? hpair
      cases responds hrecovery allowsFragments_unlimited nestingLimit_unlimited stage with
      | opens name _ hdepth hopens =>
          obtain ⟨last, added, hlast, hleads⟩ := ihinner closing.1 .part
          obtain ⟨next, second, hnext, hafter⟩ := ihrest closer .separator
          exact ⟨next, _, hnext.trans hdepth.symm,
            (leads_group hpair hopens ⟨last, added, hlast, hleads, rfl⟩).append hafter⟩
      | takes mid first hmid htakes =>
          -- the group is inside a broken part, so its closing bracket is only counted
          obtain ⟨last, added, hlast, hleads⟩ := ihinner closer mid
          have hinside : last.depth = stage.depth + 1 := by
            rw [hlast, hmid, Kind.rise, hpair]
            rfl
          have hpass : ∀ lexeme : Lexeme, lexeme.piece = closing →
              Reader.pass lexeme (stage.depth + 1) = stage.depth := by
            rintro lexeme rfl
            rcases Kind.isCloser_of_closer? hpair with hkind | hkind <;>
              simp [Reader.pass, show lexeme.kind = _ from hkind]
          obtain ⟨out, hout, hpassed⟩ := exists_takes_inside allowsFragments_unlimited hinside hpass
          obtain ⟨next, second, hnext, hafter⟩ := ihrest closer out
          have hbracket := (Leads.nil out).cons hpassed
          exact ⟨next, _, hnext.trans hout, ((hleads.append hbracket).cons htakes).append hafter⟩

theorem exists_yields {pieces : List (Kind × List Char)} (hbalanced : Balanced pieces)
    (closer : Kind) : ∃ parts, Yields closer pieces parts := by
  obtain ⟨last, added, hdepth, hleads⟩ := exists_leads hbalanced closer .part
  exact ⟨_, last, added, hdepth, hleads, rfl⟩

theorem Yields.append {front back : List (Kind × List Char)} {first second : List Part}
    {comma : Kind × List Char} (hcomma : comma.1 = .comma) (hfront : Yields closer front first)
    (hback : Yields closer back second) :
    Yields closer (front ++ comma :: back) (second ++ first) := by
  obtain ⟨last, added, hdepth, hleads, rfl⟩ := hfront
  obtain ⟨final, more, hfinal, hafter, rfl⟩ := hback
  have htakes : Takes unlimited closer comma last .part last.rest :=
    takes_comma allowsFragments_unlimited hdepth hcomma
  refine ⟨final, _, hfinal, hleads.append (hafter.cons htakes), ?_⟩
  simp

theorem yields_nil : Yields closer [] [] := ⟨.part, [], rfl, .nil .part, rfl⟩

/-- Parts between commas come to what each of them comes to. -/
theorem yields_intercalate {comma : Kind × List Char} (hcomma : comma.1 = .comma)
    {items : List (List (Kind × List Char))} {lists : List (List Part)}
    (hitems : List.Forall₂ (Yields closer) items lists) :
    Yields closer ([comma].intercalate items) lists.reverse.flatten := by
  induction hitems with
  | nil => exact yields_nil
  | @cons item parts items lists hitem hrest ih =>
      cases hrest with
      | nil => simpa using hitem
      | cons hnext hmore =>
          rw [List.intercalate_cons_cons, List.append_assoc, List.singleton_append,
            List.reverse_cons, List.flatten_append, List.flatten_singleton]
          exact hitem.append hcomma ih

end Stage

/-! ### From the tokens to the root -/

/-- The tokens between the tokens of the grammar add no more than a report. -/
theorem Reader.exists_run_eq (setting : Setting) (source : String) :
    ∃ reports, (start.run setting (lex source)) =
      { start.run setting (significant (lex source)) with reports := reports } := by
  by_cases hclosed : ∀ lexeme ∈ lex source, lexeme.kind ≠ .unterminatedComment
  · exact ⟨_, run_significant (Or.inr hclosed) start⟩
  · push Not at hclosed
    obtain ⟨comment, hmem, hkind⟩ := hclosed
    obtain ⟨front, back, hlex⟩ := List.append_of_mem hmem
    obtain rfl : back = [] := eq_nil_of_unterminatedComment hlex hkind
    have hfront : ∀ lexeme ∈ front, lexeme.kind ≠ .unterminatedComment := by
      intro lexeme hfront hcomment
      obtain ⟨first, second, rfl⟩ := List.append_of_mem hfront
      rw [List.append_assoc, List.cons_append] at hlex
      have hnil := eq_nil_of_unterminatedComment hlex hcomment
      simp at hnil
    have htrivia : comment.kind.isTrivia = true := by rw [hkind]; rfl
    rw [hlex, run_append, run_significant (Or.inr hfront), significant_append,
      significant_cons_of_isTrivia htrivia, significant_nil, List.append_nil, run_cons, run_nil,
      step, if_pos htrivia, ignore]
    split
    · exact ⟨_, rfl⟩
    · exact ⟨_, rfl⟩

theorem Reader.run_eq_foldl {setting : Setting} (hstrict : setting.allowsFragments = false)
    (hunlimited : setting.nestingLimit = none) {lexemes : List Lexeme}
    (hgrammar : ∀ lexeme ∈ lexemes, lexeme.kind.isTrivia = false) (reader : Reader) :
    reader.run setting lexemes = lexemes.foldl (take .unlimited) reader := by
  induction lexemes generalizing reader with
  | nil => rfl
  | cons lexeme rest ih =>
      have htake : reader.take setting lexeme = reader.take .unlimited lexeme := by
        refine take_congr hunlimited ?_ fun _ => ?_
        · rw [Setting.isCutIn_of_strict hstrict,
            Setting.isCutIn_of_strict Setting.allowsFragments_unlimited]
        · rw [Setting.isCutInMarker_of_strict hstrict,
            Setting.isCutInMarker_of_strict Setting.allowsFragments_unlimited]
      rw [run_cons, step_of_not_isTrivia (hgrammar lexeme List.mem_cons_self), htake,
        List.foldl_cons]
      exact ih (fun later hlater => hgrammar later (List.mem_cons_of_mem lexeme hlater)) _

namespace Stage

open Reader Setting

theorem Yields.datum_parse {options : Options} (hstrict : options.allowsFragments = false)
    (hunlimited : options.nestingLimit = none) {opening closing : Kind × List Char}
    {inner : List (Kind × List Char)} {parts : List Part}
    (hpair : opening.1.closer? = some closing.1) (hyields : Yields closing.1 inner parts)
    {source : String}
    (hsource : (significant (lex source)).map Lexeme.piece = opening :: inner ++ [closing]) :
    (options.parse source).datum? = some (Part.datum closing.1 parts) := by
  let setting := options.setting source
  obtain ⟨first, rest, hlexemes, rfl, hrest⟩ := List.map_eq_cons_iff.mp hsource
  have hopener : first.kind = .braceOpen ∨ first.kind = .bracketOpen :=
    Kind.isOpener_iff.mp (Option.isSome_of_eq_some hpair)
  have hopened : start.take .unlimited first = ⟨.part (.ofOpener first.toToken) none, [], []⟩ :=
    (Shift.opening hopener rfl).take_eq allowsFragments_unlimited
  obtain ⟨container, reports, hcontainer, hclose⟩ :=
    hyields.exists_close (Kind.isCloser_of_closer? hpair) hrest (at_opened hpair [] [])
  have hrun : start.run setting (significant (lex source)) =
      ⟨.finished (some container.value), [], reports⟩ := by
    have hplain : setting.allowsFragments = false := hstrict
    have hlimit : setting.nestingLimit = none := hunlimited
    rw [run_eq_foldl hplain hlimit fun lexeme hmem => isTrivia_of_mem_significant hmem,
      hlexemes, List.foldl_cons, hopened, hclose]
    rfl
  obtain ⟨others, hall⟩ := exists_run_eq setting source
  rw [hrun] at hall
  rw [Body.datum?, Options.parse, hall, ← hcontainer.datum_value]
  rfl

theorem exists_forall₂_yields {items : List (List (Kind × List Char))}
    (hitems : ∀ item ∈ items, Balanced item) (closer : Kind) :
    ∃ lists, List.Forall₂ (Yields closer) items lists := by
  induction items with
  | nil => exact ⟨[], .nil⟩
  | cons item rest ih =>
      obtain ⟨parts, hparts⟩ := exists_yields (hitems item List.mem_cons_self) closer
      obtain ⟨lists, hlists⟩ := ih fun later hmem => hitems later (List.mem_cons_of_mem item hmem)
      exact ⟨parts :: lists, .cons hparts hlists⟩

/-- Every item on its own, between two brackets, comes to its parts. -/
theorem forall₂_datum_parse {options : Options} (hstrict : options.allowsFragments = false)
    (hunlimited : options.nestingLimit = none) {opening closing : Kind × List Char}
    (hpair : opening.1.closer? = some closing.1) {items : List (List (Kind × List Char))}
    {lists : List (List Part)} (hyields : List.Forall₂ (Yields closing.1) items lists)
    {alone : List String}
    (halone : List.Forall₂ (fun source item =>
      (significant (lex source)).map Lexeme.piece = opening :: item ++ [closing]) alone items) :
    List.Forall₂ (fun source parts =>
      (options.parse source).datum? = some (Part.datum closing.1 parts)) alone lists := by
  induction halone generalizing lists with
  | nil =>
      cases hyields
      exact .nil
  | cons hsource hrest ih =>
      cases hyields with
      | cons hitem hitems =>
          exact .cons (hitem.datum_parse hstrict hunlimited hpair hsource) (ih hitems)

end Stage

namespace Part

theorem datum_bracketClose (lists : List (List Part)) :
    datum .bracketClose lists.reverse.flatten =
      .array (lists.map fun parts => parts.reverse.filterMap item?).flatten := by
  simp [datum, List.reverse_flatten, List.filterMap_flatten, Function.comp_def]

theorem datum_braceClose (lists : List (List Part)) :
    datum .braceClose lists.reverse.flatten =
      .object (Slots.ofList
        (lists.map fun parts => Slots.ofList (parts.reverse.filterMap slot?)).flatten) := by
  have hslots := Slots.ofList_flatten (lists.map fun parts => parts.reverse.filterMap slot?)
  rw [List.map_map] at hslots
  simp only [Function.comp_def] at hslots
  rw [hslots]
  simp [datum, List.reverse_flatten, List.filterMap_flatten, Function.comp_def]

end Part

/-- Tokens between the brackets of an array. -/
def bracketed (inner : List (Kind × List Char)) : List (Kind × List Char) :=
  (.bracketOpen, ['[']) :: inner ++ [(.bracketClose, [']'])]

/-- Tokens between the braces of an object. -/
def braced (inner : List (Kind × List Char)) : List (Kind × List Char) :=
  (.braceOpen, ['{']) :: inner ++ [(.braceClose, ['}'])]

/-- Items with a comma between any two of them. -/
def separated (items : List (List (Kind × List Char))) : List (Kind × List Char) :=
  [(Kind.comma, [','])].intercalate items

/-- What is wrong with an item does not reach the other ones.  If the brackets match in every
item, then an array has the items that each of them comes to on its own, and an object has the
slots that those of each on its own fill one after the other. -/
theorem datum_parse_separated {options : Options} (hstrict : options.allowsFragments = false)
    (hunlimited : options.nestingLimit = none) {items : List (List (Kind × List Char))}
    (hitems : ∀ item ∈ items, Balanced item) {whole : String} {alone : List String} :
    ((significant (lex whole)).map Lexeme.piece = bracketed (separated items) →
      List.Forall₂ (fun source item =>
        (significant (lex source)).map Lexeme.piece = bracketed item) alone items →
        ∃ data : List (List Datum),
          List.Forall₂ (fun source items =>
            (options.parse source).datum? = some (.array items)) alone data ∧
          (options.parse whole).datum? = some (.array data.flatten)) ∧
      ((significant (lex whole)).map Lexeme.piece = braced (separated items) →
        List.Forall₂ (fun source item =>
          (significant (lex source)).map Lexeme.piece = braced item) alone items →
          ∃ slots : List (List (String × Option Datum)),
            List.Forall₂ (fun source slots =>
              (options.parse source).datum? = some (.object slots)) alone slots ∧
            (options.parse whole).datum? = some (.object (Slots.ofList slots.flatten))) := by
  constructor
  · intro hwhole halone
    obtain ⟨lists, hlists⟩ := Stage.exists_forall₂_yields hitems .bracketClose
    refine ⟨lists.map fun parts => parts.reverse.filterMap Part.item?, ?_, ?_⟩
    · rw [List.forall₂_map_right_iff]
      exact Stage.forall₂_datum_parse hstrict hunlimited rfl hlists halone
    · rw [← Part.datum_bracketClose]
      exact (Stage.yields_intercalate rfl hlists).datum_parse hstrict hunlimited rfl hwhole
  · intro hwhole halone
    obtain ⟨lists, hlists⟩ := Stage.exists_forall₂_yields hitems .braceClose
    refine ⟨lists.map fun parts => Slots.ofList (parts.reverse.filterMap Part.slot?), ?_, ?_⟩
    · rw [List.forall₂_map_right_iff]
      exact Stage.forall₂_datum_parse hstrict hunlimited rfl hlists halone
    · rw [← Part.datum_braceClose]
      exact (Stage.yields_intercalate rfl hlists).datum_parse hstrict hunlimited rfl hwhole

/-- The colon is missing in the first item, and the second one has a broken object; neither
changes what the other one comes to. -/
theorem datum_parse_separated_of_broken_items :
    ∃ slots : List (List (String × Option Datum)),
      List.Forall₂ (fun source slots =>
          ((Options.groupWithin none).parse source).datum? = some (.object slots))
        ["\x7b\"a\" 1\x7d", "\x7b\"a\": [x, 2]\x7d"] slots ∧
      ((Options.groupWithin none).parse "\x7b\"a\" 1, \"a\": [x, 2]\x7d").datum? =
        some (.object (Slots.ofList slots.flatten)) := by
  let name : Kind × List Char := (.string, ['"', 'a', '"'])
  let inner : List (Kind × List Char) := [(.identifier, ['x']), (.comma, [',']), (.number, ['2'])]
  let items : List (List (Kind × List Char)) :=
    [[name, (.number, ['1'])],
      [name, (.colon, [':']), (.bracketOpen, ['['])] ++ inner ++ [(.bracketClose, [']'])]]
  have hinner : Balanced inner :=
    .plain (by decide) (.plain (by decide) (.plain (by decide) .nil))
  have hitems : ∀ item ∈ items, Balanced item := by
    intro item hmem
    rcases List.mem_cons.mp hmem with rfl | hmem
    · exact .plain (by decide) (.plain (by decide) .nil)
    · rw [List.mem_singleton] at hmem
      subst hmem
      exact .plain (by decide) (.plain (by decide) (.group rfl hinner .nil))
  have hwhole : (significant (lex "\x7b\"a\" 1, \"a\": [x, 2]\x7d")).map Lexeme.piece =
      braced (separated items) := by
    decide +kernel
  have hfirst : (significant (lex "\x7b\"a\" 1\x7d")).map Lexeme.piece = braced items[0] := by
    decide +kernel
  have hsecond :
      (significant (lex "\x7b\"a\": [x, 2]\x7d")).map Lexeme.piece = braced items[1] := by
    decide +kernel
  have hstrict : (Options.groupWithin none).allowsFragments = false := rfl
  exact (datum_parse_separated hstrict rfl hitems).2 hwhole (.cons hfirst (.cons hsecond .nil))

end QueryBody
