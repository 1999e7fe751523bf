import QueryBody.Proofs.Sentence
import Mathlib.Tactic

/-!
# Sentences are read as their values

A reader that waits for a value and takes the tokens of a sentence delivers the value
that the sentence spells, wherever it stands, unless the body is cut off in one of
the tokens.
-/

namespace QueryBody

namespace Lexeme

/-- What a scalar token cannot be. -/
theorem kind_of_scalar? {lexeme : Lexeme} {content : Scalar}
    (hcontent : lexeme.scalar? = some content) :
    lexeme.kind = .string ∨ lexeme.kind = .number ∨ lexeme.kind = .trueWord ∨
      lexeme.kind = .falseWord ∨ lexeme.kind = .nullWord := by
  unfold scalar? at hcontent
  split at hcontent <;> simp_all

end Lexeme

/-- The first token of a sentence is one that values begin with. -/
theorem Spells.begins {value : Value} {lexemes : List Lexeme} (hspells : Spells value lexemes) :
    ∃ lexeme rest, lexemes = lexeme :: rest ∧ KindSet.valueFirst.contains lexeme.kind = true := by
  cases hspells with
  | scalar hcontent =>
      refine ⟨_, _, rfl, ?_⟩
      rcases Lexeme.kind_of_scalar? hcontent with hkind | hkind | hkind | hkind | hkind <;>
        rw [hkind] <;> rfl
  | parameter hopening _ _ => exact ⟨_, _, rfl, by rw [hopening]; rfl⟩
  | array hopening _ _ _ => exact ⟨_, _, rfl, by rw [hopening]; rfl⟩
  | object hopening _ _ _ _ => exact ⟨_, _, rfl, by rw [hopening]; rfl⟩

theorem KindSet.valueRecovery_of_valueFirst {kind : Kind}
    (hfirst : KindSet.valueFirst.contains kind = true) :
    KindSet.valueRecovery.contains kind = false := by
  cases kind <;> first | rfl | contradiction

theorem Kind.not_isTrivia_of_valueFirst {kind : Kind}
    (hfirst : KindSet.valueFirst.contains kind = true) : kind.isTrivia = false := by
  cases kind <;> first | rfl | contradiction

namespace Reader

variable {setting : Setting}

theorem step_of_not_isTrivia {lexeme : Lexeme} (hsignificant : lexeme.kind.isTrivia = false)
    (reader : Reader) : reader.step setting lexeme = reader.take setting lexeme := by
  simp [step, hsignificant]

/-- An item of an array is read as any value with the array around it. -/
theorem take_part_array {lexeme : Lexeme} (hfirst : KindSet.valueFirst.contains lexeme.kind = true)
    (opener : Token) (items : List Value) (comma : Option Token) (holes : List Hole)
    (reports : List Diagnostic) :
    take setting ⟨.part (.array opener items) comma, holes, reports⟩ lexeme =
      take setting ⟨.value, .item opener items :: holes, reports⟩ lexeme := by
  simp [take, part, KindSet.valueRecovery_of_valueFirst hfirst]

theorem take_value_opener {lexeme : Lexeme} {holes : List Hole}
    (hcut : setting.isCutIn lexeme = false)
    (hopener : lexeme.kind = .braceOpen ∨ lexeme.kind = .bracketOpen)
    (hallows : Allows setting.nestingLimit (holes.length + 1)) (reports : List Diagnostic) :
    take setting ⟨.value, holes, reports⟩ lexeme =
      ⟨.part (.ofOpener lexeme.toToken) none, holes, reports⟩ := by
  have hroom := (setting.exceeded?_eq_none_iff holes.length).mpr hallows
  rcases hopener with hkind | hkind <;>
    simp [take, value, hcut, hkind, openContainer, hroom, KindSet.valueRecovery,
      KindSet.contains]

theorem take_value_scalar {lexeme : Lexeme} {content : Scalar}
    (hcut : setting.isCutIn lexeme = false) (hcontent : lexeme.scalar? = some content)
    (holes : List Hole) (reports : List Diagnostic) :
    take setting ⟨.value, holes, reports⟩ lexeme =
      deliver (some (.scalar lexeme.toToken content)) holes reports := by
  rcases Lexeme.kind_of_scalar? hcontent with hkind | hkind | hkind | hkind | hkind <;>
    simp [take, value, hcut, hkind, hcontent, KindSet.valueRecovery, KindSet.contains]

theorem take_value_parameterOpen {lexeme : Lexeme} (hcut : setting.isCutIn lexeme = false)
    (hkind : lexeme.kind = .parameterOpen) (holes : List Hole) (reports : List Diagnostic) :
    take setting ⟨.value, holes, reports⟩ lexeme =
      ⟨.parameterName lexeme.toToken, holes, reports⟩ := by
  simp [take, value, hcut, hkind, KindSet.valueRecovery, KindSet.contains]

theorem take_parameterName {lexeme : Lexeme} (hcut : setting.isCutIn lexeme = false)
    (hkind : lexeme.kind = .identifier) (marker : Token) (holes : List Hole)
    (reports : List Diagnostic) :
    take setting ⟨.parameterName marker, holes, reports⟩ lexeme =
      ⟨.parameterClose marker lexeme.word, holes, reports⟩ := by
  simp [take, parameterName, hcut, hkind]

theorem take_parameterClose {lexeme : Lexeme} (hcut : setting.isCutIn lexeme = false)
    (hkind : lexeme.kind = .parameterClose) (marker : Token) (name : String)
    (holes : List Hole) (reports : List Diagnostic) :
    take setting ⟨.parameterClose marker name, holes, reports⟩ lexeme =
      deliver (some (.scalar marker (.parameter name))) holes reports := by
  simp [take, parameterClose, Setting.isCutInMarker, hcut, hkind]

theorem take_separator_comma {lexeme : Lexeme} (hkind : lexeme.kind = .comma)
    (container : Container) (holes : List Hole) (reports : List Diagnostic) :
    take setting ⟨.separator container, holes, reports⟩ lexeme =
      ⟨.part container (some lexeme.toToken), holes, reports⟩ := by
  simp [take, separator, endPart, hkind, KindSet.valueRecovery, KindSet.contains]

theorem closer_mem_valueRecovery (container : Container) :
    KindSet.valueRecovery.contains container.closer = true ∧ container.closer ≠ .comma := by
  cases container <;> exact ⟨rfl, Kind.noConfusion⟩

theorem take_separator_closer {lexeme : Lexeme} {container : Container}
    (hkind : lexeme.kind = container.closer) (holes : List Hole) (reports : List Diagnostic) :
    take setting ⟨.separator container, holes, reports⟩ lexeme =
      deliver (some container.value) holes reports := by
  have hcloser := closer_mem_valueRecovery container
  unfold take separator endPart close
  simp [hkind, hcloser, reportComma]

theorem take_part_closer {lexeme : Lexeme} {container : Container}
    (hkind : lexeme.kind = container.closer) (comma : Option Token) (holes : List Hole)
    (reports : List Diagnostic) :
    take setting ⟨.part container comma, holes, reports⟩ lexeme =
      deliver (some container.value) holes (reportComma comma reports) := by
  have hcloser := closer_mem_valueRecovery container
  unfold take part emptyPart close
  simp [hkind, hcloser]

theorem take_part_name {lexeme : Lexeme} (hcut : setting.isCutIn lexeme = false)
    (hkind : lexeme.kind = .string) (opener : Token) (members : List Member)
    (comma : Option Token) (holes : List Hole) (reports : List Diagnostic) :
    take setting ⟨.part (.object opener members) comma, holes, reports⟩ lexeme =
      ⟨.colon opener members lexeme.key, holes, reports⟩ := by
  simp [take, part, property, hcut, hkind, KindSet.valueRecovery, KindSet.contains]

theorem take_colon {lexeme : Lexeme} (hcut : setting.isCutIn lexeme = false)
    (hkind : lexeme.kind = .colon) (opener : Token) (members : List Member) (key : Key)
    (holes : List Hole) (reports : List Diagnostic) :
    take setting ⟨.colon opener members key, holes, reports⟩ lexeme =
      ⟨.value, .property opener members key :: holes, reports⟩ := by
  simp [take, colon, hcut, hkind]

/-- The reader delivers the value wherever a value is waited for. -/
def Delivers (setting : Setting) (value : Value) (lexemes : List Lexeme) : Prop :=
  ∀ holes reports, Allows setting.nestingLimit (holes.length + value.nesting) →
    run setting ⟨.value, holes, reports⟩ lexemes = deliver (some value) holes reports

/-- The reader after some parts of a container: before its first part or after a part. -/
def afterParts (container : Container) (holes : List Hole) (reports : List Diagnostic) : Reader :=
  if container.isEmpty then ⟨.part container none, holes, reports⟩
  else ⟨.separator container, holes, reports⟩

theorem take_afterParts_closer {lexeme : Lexeme} {container : Container}
    (hkind : lexeme.kind = container.closer) (holes : List Hole) (reports : List Diagnostic) :
    take setting (afterParts container holes reports) lexeme =
      deliver (some container.value) holes reports := by
  unfold afterParts
  split
  · exact take_part_closer hkind none holes reports
  · exact take_separator_closer hkind holes reports

theorem afterParts_of_not_isEmpty {container : Container} (hne : container.isEmpty = false)
    (holes : List Hole) (reports : List Diagnostic) :
    afterParts container holes reports = ⟨.separator container, holes, reports⟩ := by
  simp [afterParts, hne]

/-- Parts in a row are read one after the other if each of them is. -/
theorem run_row {α : Type} {spelling : α → List Lexeme} (build : List α → Container)
    {holes : List Hole} {reports : List Diagnostic} {parts : List α} {inner : List Lexeme}
    (hempty : (build []).isEmpty = true)
    (hbuild : ∀ front part, (build (front ++ [part])).isEmpty = false)
    (hrow : Row spelling parts inner)
    (hpart : ∀ part ∈ parts, ∀ front comma,
      run setting ⟨.part (build front) comma, holes, reports⟩ (spelling part) =
        ⟨.separator (build (front ++ [part])), holes, reports⟩) :
    run setting ⟨.part (build []) none, holes, reports⟩ inner =
      afterParts (build parts) holes reports := by
  induction hrow with
  | nil => simp [afterParts, hempty]
  | first part =>
      rw [hpart part List.mem_cons_self [] none]
      exact (afterParts_of_not_isEmpty (hbuild [] part) holes reports).symm
  | next hparts hne hcomma part ih =>
      rename_i front lexemes comma
      have hfront : (build front).isEmpty = false := by
        obtain ⟨init, last, rfl⟩ := (List.eq_nil_or_concat' front).resolve_left hne
        exact hbuild init last
      have hsignificant : comma.kind.isTrivia = false := by
        rw [hcomma]
        rfl
      rw [run_append, ih fun part hmem => hpart part (List.mem_append_left _ hmem),
        afterParts_of_not_isEmpty hfront, run_cons, step_of_not_isTrivia hsignificant,
        take_separator_comma hcomma, hpart part (by simp) front]
      exact (afterParts_of_not_isEmpty (hbuild front part) holes reports).symm

theorem run_item {part : Writing} (hspells : Spells part.value part.lexemes)
    (hdelivers : Delivers setting part.value part.lexemes) {holes : List Hole}
    (hallows : Allows setting.nestingLimit (holes.length + 1 + part.value.nesting))
    (opener : Token) (items : List Value) (comma : Option Token) (reports : List Diagnostic) :
    run setting ⟨.part (.array opener items) comma, holes, reports⟩ part.lexemes =
      ⟨.separator (.array opener (part.value :: items)), holes, reports⟩ := by
  obtain ⟨lexeme, rest, hlexemes, hfirst⟩ := hspells.begins
  have hsignificant := Kind.not_isTrivia_of_valueFirst hfirst
  have hitem := hdelivers (.item opener items :: holes) reports hallows
  rw [hlexemes, run_cons, step_of_not_isTrivia hsignificant] at hitem ⊢
  rw [take_part_array hfirst, hitem]
  rfl

theorem run_property {part : Property} (hname : part.name.kind = .string)
    (hcolon : part.colon.kind = .colon)
    (hcut : ∀ lexeme ∈ part.lexemes, setting.isCutIn lexeme = false)
    (hdelivers : Delivers setting part.writing.value part.writing.lexemes) {holes : List Hole}
    (hallows : Allows setting.nestingLimit (holes.length + 1 + part.writing.value.nesting))
    (opener : Token) (members : List Member) (comma : Option Token)
    (reports : List Diagnostic) :
    run setting ⟨.part (.object opener members) comma, holes, reports⟩ part.lexemes =
      ⟨.separator (.object opener (part.member :: members)), holes, reports⟩ := by
  have hnameTrivia : part.name.kind.isTrivia = false := by rw [hname]; rfl
  have hcolonTrivia : part.colon.kind.isTrivia = false := by rw [hcolon]; rfl
  have hnameCut := hcut part.name (by simp [Property.lexemes])
  have hcolonCut := hcut part.colon (by simp [Property.lexemes])
  rw [Property.lexemes, run_cons, step_of_not_isTrivia hnameTrivia,
    take_part_name hnameCut hname, run_cons, step_of_not_isTrivia hcolonTrivia,
    take_colon hcolonCut hcolon,
    hdelivers (.property opener members part.name.key :: holes) reports hallows]
  rfl

/-- An opening bracket, the parts and the closing bracket. -/
theorem delivers_container {opening closing : Lexeme} (container : Container)
    {inner : List Lexeme} {holes : List Hole} {reports : List Diagnostic}
    (hopening : opening.kind = .braceOpen ∨ opening.kind = .bracketOpen)
    (hclosing : closing.kind = container.closer)
    (hcut : setting.isCutIn opening = false)
    (hallows : Allows setting.nestingLimit (holes.length + 1))
    (hinner :
      run setting ⟨.part (.ofOpener opening.toToken) none, holes, reports⟩ inner =
        afterParts container holes reports) :
    run setting ⟨.value, holes, reports⟩ (opening :: inner ++ [closing]) =
      deliver (some container.value) holes reports := by
  have hopeningTrivia : opening.kind.isTrivia = false := by
    rcases hopening with hkind | hkind <;> rw [hkind] <;> rfl
  have hclosingTrivia : closing.kind.isTrivia = false := by
    rw [hclosing]
    cases container <;> rfl
  rw [List.cons_append, run_cons, step_of_not_isTrivia hopeningTrivia,
    take_value_opener hcut hopening hallows, run_append, hinner, run_cons, run_nil,
    step_of_not_isTrivia hclosingTrivia, take_afterParts_closer hclosing]

theorem ofOpener_of_brace {opener : Token} (hkind : opener.kind = .braceOpen) :
    Container.ofOpener opener = .object opener [] := by
  simp [Container.ofOpener, hkind]

theorem ofOpener_of_bracket {opener : Token} (hkind : opener.kind = .bracketOpen) :
    Container.ofOpener opener = .array opener [] := by
  simp [Container.ofOpener, hkind]

/-! ### Values -/

theorem delivers_scalar {lexeme : Lexeme} {content : Scalar}
    (hcontent : lexeme.scalar? = some content) (hcut : setting.isCutIn lexeme = false) :
    Delivers setting (.scalar lexeme.toToken content) [lexeme] := by
  intro holes reports _
  have hsignificant : lexeme.kind.isTrivia = false := by
    rcases Lexeme.kind_of_scalar? hcontent with hkind | hkind | hkind | hkind | hkind <;>
      rw [hkind] <;> rfl
  rw [run_cons, run_nil, step_of_not_isTrivia hsignificant, take_value_scalar hcut hcontent]

theorem delivers_parameter {opening name closing : Lexeme}
    (hopening : opening.kind = .parameterOpen) (hname : name.kind = .identifier)
    (hclosing : closing.kind = .parameterClose)
    (hcut : ∀ lexeme ∈ [opening, name, closing], setting.isCutIn lexeme = false) :
    Delivers setting (.scalar opening.toToken (.parameter name.word)) [opening, name, closing] := by
  intro holes reports _
  have hopeningTrivia : opening.kind.isTrivia = false := by rw [hopening]; rfl
  have hnameTrivia : name.kind.isTrivia = false := by rw [hname]; rfl
  have hclosingTrivia : closing.kind.isTrivia = false := by rw [hclosing]; rfl
  rw [run_cons, run_cons, run_cons, run_nil, step_of_not_isTrivia hopeningTrivia,
    step_of_not_isTrivia hnameTrivia, step_of_not_isTrivia hclosingTrivia,
    take_value_parameterOpen (hcut opening (by simp)) hopening,
    take_parameterName (hcut name (by simp)) hname,
    take_parameterClose (hcut closing (by simp)) hclosing]

/-- The items of an array are read after its bracket. -/
theorem run_items {parts : List Writing} {inner : List Lexeme} {holes : List Hole}
    (hrow : Row Writing.lexemes parts inner)
    (hparts : ∀ part ∈ parts, Spells part.value part.lexemes)
    (hdelivers : ∀ part ∈ parts, Delivers setting part.value part.lexemes)
    (hallows : ∀ part ∈ parts, Allows setting.nestingLimit (holes.length + 1 + part.value.nesting))
    (opener : Token) (reports : List Diagnostic) :
    run setting ⟨.part (.array opener []) none, holes, reports⟩ inner =
      afterParts (.array opener (parts.map Writing.value).reverse) holes reports := by
  let build (parts : List Writing) : Container :=
    .array opener (parts.map Writing.value).reverse
  apply run_row build rfl (by simp [build, Container.isEmpty]) hrow
  intro part hpart front comma
  simp only [build]
  rw [run_item (hparts part hpart) (hdelivers part hpart) (hallows part hpart)]
  simp

/-- The properties of an object are read after its bracket. -/
theorem run_properties {parts : List Property} {inner : List Lexeme} {holes : List Hole}
    (hrow : Row Property.lexemes parts inner)
    (hnames : ∀ part ∈ parts, part.name.kind = .string ∧ part.colon.kind = .colon)
    (hcut : ∀ lexeme ∈ inner, setting.isCutIn lexeme = false)
    (hdelivers : ∀ part ∈ parts, Delivers setting part.writing.value part.writing.lexemes)
    (hallows : ∀ part ∈ parts,
      Allows setting.nestingLimit (holes.length + 1 + part.writing.value.nesting))
    (opener : Token) (reports : List Diagnostic) :
    run setting ⟨.part (.object opener []) none, holes, reports⟩ inner =
      afterParts (.object opener (parts.map Property.member).reverse) holes reports := by
  let build (parts : List Property) : Container :=
    .object opener (parts.map Property.member).reverse
  apply run_row build rfl (by simp [build, Container.isEmpty]) hrow
  intro part hpart front comma
  have hlexemes : ∀ lexeme ∈ part.lexemes, setting.isCutIn lexeme = false :=
    fun lexeme hmem => hcut lexeme (hrow.mem_lexemes hpart hmem)
  simp only [build]
  rw [run_property (hnames part hpart).1 (hnames part hpart).2 hlexemes (hdelivers part hpart)
    (hallows part hpart)]
  simp

theorem delivers_array {opening closing : Lexeme} {parts : List Writing} {inner : List Lexeme}
    (hopening : opening.kind = .bracketOpen) (hclosing : closing.kind = .bracketClose)
    (hrow : Row Writing.lexemes parts inner)
    (hparts : ∀ part ∈ parts, Spells part.value part.lexemes)
    (hcut : ∀ lexeme ∈ opening :: inner ++ [closing], setting.isCutIn lexeme = false)
    (hdelivers : ∀ part ∈ parts, Delivers setting part.value part.lexemes) :
    Delivers setting (.array opening.toToken (parts.map Writing.value))
      (opening :: inner ++ [closing]) := by
  intro holes reports hallows
  have hopen : Allows setting.nestingLimit (holes.length + 1) :=
    hallows.mono (by simp only [Value.nesting]; omega)
  have hrooms : ∀ part ∈ parts,
      Allows setting.nestingLimit (holes.length + 1 + part.value.nesting) := by
    intro part hpart
    have hnesting : part.value.nesting ≤ Value.itemsNesting (parts.map Writing.value) :=
      Value.nesting_le_itemsNesting (List.mem_map_of_mem hpart)
    exact hallows.mono (by simp only [Value.nesting]; omega)
  have hrun := run_items hrow hparts hdelivers hrooms opening.toToken reports
  have hcontainer := delivers_container (.array opening.toToken (parts.map Writing.value).reverse)
    (Or.inr hopening) hclosing (hcut opening (by simp)) hopen
    (by rw [ofOpener_of_bracket hopening]; exact hrun)
  simpa [Container.value] using hcontainer

theorem delivers_object {opening closing : Lexeme} {parts : List Property} {inner : List Lexeme}
    (hopening : opening.kind = .braceOpen) (hclosing : closing.kind = .braceClose)
    (hrow : Row Property.lexemes parts inner)
    (hnames : ∀ part ∈ parts, part.name.kind = .string ∧ part.colon.kind = .colon)
    (hcut : ∀ lexeme ∈ opening :: inner ++ [closing], setting.isCutIn lexeme = false)
    (hdelivers : ∀ part ∈ parts, Delivers setting part.writing.value part.writing.lexemes) :
    Delivers setting (.object opening.toToken (parts.map Property.member))
      (opening :: inner ++ [closing]) := by
  intro holes reports hallows
  have hopen : Allows setting.nestingLimit (holes.length + 1) :=
    hallows.mono (by simp only [Value.nesting]; omega)
  have hrooms : ∀ part ∈ parts,
      Allows setting.nestingLimit (holes.length + 1 + part.writing.value.nesting) := by
    intro part hpart
    have hnesting : part.writing.value.nesting ≤
        Value.membersNesting (parts.map Property.member) :=
      Value.nesting_le_membersNesting (List.mem_map_of_mem (f := Property.member) hpart)
    exact hallows.mono (by simp only [Value.nesting]; omega)
  have hrun := run_properties hrow hnames (fun lexeme hmem => hcut lexeme (by simp [hmem]))
    hdelivers hrooms opening.toToken reports
  have hcontainer := delivers_container
    (.object opening.toToken (parts.map Property.member).reverse)
    (Or.inl hopening) hclosing (hcut opening (by simp)) hopen
    (by rw [ofOpener_of_brace hopening]; exact hrun)
  simpa [Container.value] using hcontainer

end Reader

/-- A sentence is read as the value that it spells. -/
theorem Spells.delivers {setting : Setting} {value : Value} {lexemes : List Lexeme}
    (hspells : Spells value lexemes)
    (hcut : ∀ lexeme ∈ lexemes, setting.isCutIn lexeme = false) :
    Reader.Delivers setting value lexemes := by
  induction hspells with
  | scalar hcontent => exact Reader.delivers_scalar hcontent (hcut _ List.mem_cons_self)
  | parameter hopening hname hclosing =>
      exact Reader.delivers_parameter hopening hname hclosing hcut
  | array hopening hclosing hrow hparts ih =>
      apply Reader.delivers_array hopening hclosing hrow hparts hcut
      intro part hpart
      apply ih part hpart
      intro lexeme hmem
      exact hcut lexeme (by simp [hrow.mem_lexemes hpart hmem])
  | object hopening hclosing hrow hnames hparts ih =>
      apply Reader.delivers_object hopening hclosing hrow hnames hcut
      intro part hpart
      apply ih part hpart
      intro lexeme hmem
      have hproperty : lexeme ∈ part.lexemes := by simp [Property.lexemes, hmem]
      exact hcut lexeme (by simp [hrow.mem_lexemes hpart hproperty])

end QueryBody
