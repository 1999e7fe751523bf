import QueryBody.Proofs.BrokenToken
import QueryBody.Proofs.Moves
import QueryBody.Proofs.Numbering
import QueryBody.Proofs.Tiling
import QueryBody.Body
import Mathlib.Tactic

/-!
# Where values come from

Every value and every property name is written by tokens of the body.  The values are
numbered in the order of the tokens with which they begin, also where parts of the body
are given up or left out.
-/

namespace QueryBody

/-- The text of a token says a scalar. -/
inductive Lexeme.Says (lexeme : Lexeme) : Scalar → Prop
  | null (hkind : lexeme.kind = .nullWord) (htext : lexeme.word = "null") : Says lexeme .null
  | true (hkind : lexeme.kind = .trueWord) (htext : lexeme.word = "true") :
      Says lexeme (.bool Bool.true)
  | false (hkind : lexeme.kind = .falseWord) (htext : lexeme.word = "false") :
      Says lexeme (.bool Bool.false)
  | number (hkind : lexeme.kind = .number) : Says lexeme (.number (Numeral.read lexeme.text))
  | string {text : List Char} (hkind : lexeme.kind = .string)
      (htext : unescape lexeme.content = .ok text) : Says lexeme (.string (String.ofList text))

theorem Lexer.eq_of_wordKind {word : List Char} {kind : Kind} (hkind : wordKind word = kind)
    (hvalue : kind ≠ .identifier) : (word, kind) ∈ valueWords := by
  unfold wordKind at hkind
  split at hkind
  next pair found hfind =>
    have hsame := List.find?_some hfind
    have hpair := List.mem_of_find?_eq_some hfind
    simp only [decide_eq_true_eq] at hsame
    subst hkind
    exact hsame ▸ hpair
  · exact absurd hkind.symm hvalue

theorem word_of_mem_lex {source : String} {lexeme : Lexeme} (hmem : lexeme ∈ lex source)
    (hkind : lexeme.kind ∈ [Kind.trueWord, .falseWord, .nullWord]) :
    (lexeme.text, lexeme.kind) ∈ Lexer.valueWords := by
  simp only [List.mem_cons, List.not_mem_nil, or_false] at hkind
  obtain ⟨c, text, m, hbegun, htext, hsame⟩ := exists_begun?_of_mem_lex hmem
    (by rcases hkind with hkind | hkind | hkind <;> rw [hkind] <;> rfl)
  rw [htext]
  apply Lexer.eq_of_wordKind
  · rw [hsame]
    apply Lexer.wordKind_of_begun? hbegun
    rw [← hsame]
    rcases hkind with hkind | hkind | hkind <;> rw [hkind] <;> decide
  · rcases hkind with hkind | hkind | hkind <;> rw [hkind] <;> decide

/-- What is read of a token is what its text says. -/
theorem means_of_scalar? {source : String} {lexeme : Lexeme} (hmem : lexeme ∈ lex source)
    {content : Scalar} (hcontent : lexeme.scalar? = some content) : lexeme.Says content := by
  have hword := word_of_mem_lex hmem
  unfold Lexeme.scalar? at hcontent
  split at hcontent
  next hkind =>
    cases hcontent
    have hmeans := Lexeme.Says.string hkind (unescape_content_of_mem_lex hmem hkind)
    rwa [String.ofList_toList] at hmeans
  next hkind =>
    cases hcontent
    exact .number hkind
  next hkind =>
    cases hcontent
    rw [hkind] at hword
    have htext : lexeme.text = ['t', 'r', 'u', 'e'] := by
      simpa [Lexer.valueWords] using hword (by decide)
    exact .true hkind (by rw [Lexeme.word, htext])
  next hkind =>
    cases hcontent
    rw [hkind] at hword
    have htext : lexeme.text = ['f', 'a', 'l', 's', 'e'] := by
      simpa [Lexer.valueWords] using hword (by decide)
    exact .false hkind (by rw [Lexeme.word, htext])
  next hkind =>
    cases hcontent
    rw [hkind] at hword
    have htext : lexeme.text = ['n', 'u', 'l', 'l'] := by
      simpa [Lexer.valueWords] using hword (by decide)
    exact .null hkind (by rw [Lexeme.word, htext])
  · contradiction

/-- What a value is, apart from its parts. -/
inductive Head
  | scalar (content : Scalar)
  | array
  | object

/-- What a value is, apart from its parts, and the token it begins with. -/
structure Label where
  token : Token
  head : Head

/-- The label is written by tokens of a body. -/
inductive Label.WrittenIn (lexemes : List Lexeme) : Label → Prop
  | scalar {lexeme : Lexeme} {content : Scalar} (hmem : lexeme ∈ lexemes)
      (hmeans : lexeme.Says content) : WrittenIn lexemes ⟨lexeme.toToken, .scalar content⟩
  | parameter {front back : List Lexeme} {opening name closing : Lexeme}
      (hlexemes : lexemes = front ++ opening :: name :: closing :: back)
      (hopening : opening.kind = .parameterOpen) (hname : name.kind = .identifier)
      (hclosing : closing.kind = .parameterClose) :
      WrittenIn lexemes ⟨opening.toToken, .scalar (.parameter name.word)⟩
  | array {lexeme : Lexeme} (hmem : lexeme ∈ lexemes) (hkind : lexeme.kind = .bracketOpen) :
      WrittenIn lexemes ⟨lexeme.toToken, .array⟩
  | object {lexeme : Lexeme} (hmem : lexeme ∈ lexemes) (hkind : lexeme.kind = .braceOpen) :
      WrittenIn lexemes ⟨lexeme.toToken, .object⟩

theorem Label.WrittenIn.append {lexemes : List Lexeme} {label : Label}
    (hwritten : label.WrittenIn lexemes) (more : List Lexeme) :
    label.WrittenIn (lexemes ++ more) := by
  cases hwritten with
  | scalar hmem hmeans => exact .scalar (List.mem_append_left more hmem) hmeans
  | parameter hlexemes hopening hname hclosing =>
      rename_i front back opening name closing
      have happended : lexemes ++ more = front ++ opening :: name :: closing :: (back ++ more) := by
        rw [hlexemes, List.append_assoc]
        rfl
      exact .parameter happended hopening hname hclosing
  | array hmem hkind => exact .array (List.mem_append_left more hmem) hkind
  | object hmem hkind => exact .object (List.mem_append_left more hmem) hkind

def Key.label (key : Key) : Label := ⟨key.token, .scalar (.string key.text)⟩

namespace Value

/-- The label of a value without its parts. -/
def label : Value → Label
  | scalar token content => ⟨token, .scalar content⟩
  | array opener _ => ⟨opener, .array⟩
  | object opener _ => ⟨opener, .object⟩

mutual

/-- The labels of a value and of all its parts, in the order of the body. -/
def labels : Value → List Label
  | scalar token content => [⟨token, .scalar content⟩]
  | array opener items => ⟨opener, .array⟩ :: itemLabels items
  | object opener members => ⟨opener, .object⟩ :: memberLabels members

def itemLabels : List Value → List Label
  | [] => []
  | item :: rest => labels item ++ itemLabels rest

def memberLabels : List Member → List Label
  | [] => []
  | .bare key :: rest => key.label :: memberLabels rest
  | .pair key value :: rest => key.label :: labels value ++ memberLabels rest

end

mutual

theorem map_label_places (parent : Option Nat) (id : Nat) :
    ∀ value : Value, (places parent id value).map (·.value.label) = value.labels
  | scalar _ _ => rfl
  | array opener items => by
      rw [places, List.map_cons, map_label_itemPlaces id (id + 1) items, labels, label]
  | object opener members => by
      rw [places, List.map_cons, map_label_memberPlaces id (id + 1) members, labels, label]

theorem map_label_itemPlaces (parent next : Nat) :
    ∀ items : List Value, (itemPlaces parent next items).map (·.value.label) = itemLabels items
  | [] => rfl
  | item :: rest => by
      rw [itemPlaces, List.map_append, map_label_places (some parent) next item,
        map_label_itemPlaces parent (next + item.size) rest, itemLabels]

theorem map_label_memberPlaces (parent next : Nat) :
    ∀ members : List Member,
      (memberPlaces parent next members).map (·.value.label) = memberLabels members
  | [] => rfl
  | .bare key :: rest => by
      rw [memberPlaces, List.map_cons, map_label_memberPlaces parent (next + 1) rest, memberLabels]
      rfl
  | .pair key value :: rest => by
      rw [memberPlaces, List.cons_append, List.map_cons, List.map_append,
        map_label_places (some parent) (next + 1) value,
        map_label_memberPlaces parent (next + 1 + value.size) rest, memberLabels]
      rfl

end

theorem itemLabels_append (first second : List Value) :
    itemLabels (first ++ second) = itemLabels first ++ itemLabels second := by
  induction first with
  | nil => rfl
  | cons item rest ih => simp only [List.cons_append, itemLabels, ih, List.append_assoc]

theorem memberLabels_append (first second : List Member) :
    memberLabels (first ++ second) = memberLabels first ++ memberLabels second := by
  induction first with
  | nil => rfl
  | cons member rest ih =>
      cases member with
      | bare key => simp only [List.cons_append, memberLabels, ih]
      | pair key value => simp only [List.cons_append, memberLabels, ih, List.append_assoc]

end Value

/-! ### Labels of what is under construction -/

def Container.labels (container : Container) : List Label := container.value.labels

namespace Hole

/-- The labels of the containers around a place and of their parts, the outermost first.  The
name of a property that waits for its value is among them. -/
def labels : List Hole → List Label
  | [] => []
  | hole :: rest => labels rest ++ (hole.fill none).labels

theorem labels_fill_some (hole : Hole) (value : Value) :
    (hole.fill (some value)).labels = (hole.fill none).labels ++ value.labels := by
  cases hole with
  | item opener items =>
      simp [fill, Container.labels, Container.value, Value.labels, Value.itemLabels_append,
        Value.itemLabels]
  | property opener members key =>
      simp [fill, Container.labels, Container.value, Value.labels, Value.memberLabels_append,
        Value.memberLabels, Member.of]

theorem labels_discard (hole : Hole) : hole.discard.labels.Sublist (hole.fill none).labels := by
  cases hole with
  | item opener items => exact List.Sublist.refl _
  | property opener members key =>
      simp [discard, fill, Container.labels, Container.value, Value.labels,
        Value.memberLabels_append, Member.of]

end Hole

namespace Container

theorem labels_enclose (container : Container) (holes : List Hole) :
    (container.enclose holes).labels = Hole.labels holes ++ container.labels := by
  induction holes generalizing container with
  | nil => rfl
  | cons hole rest ih =>
      rw [enclose, ih, Hole.labels_fill_some, Hole.labels, List.append_assoc]
      rfl

/-- A body that is cut off keeps some of the labels. -/
theorem labels_cutOff (container : Container) (holes : List Hole) :
    (container.cutOff holes).labels.Sublist (Hole.labels holes ++ container.labels) := by
  induction holes generalizing container with
  | nil => exact List.Sublist.refl _
  | cons hole rest ih =>
      rw [cutOff, Hole.labels, List.append_assoc]
      split
      · refine (ih hole.discard).trans ((List.Sublist.refl _).append ?_)
        exact hole.labels_discard.trans (List.sublist_append_left _ _)
      · have hfill := ih (hole.fill (some container.value))
        rwa [Hole.labels_fill_some] at hfill

end Container

def rootLabels (root : Option Value) : List Label := root.elim [] Value.labels

namespace Hole

theorem labels_abandon (holes : List Hole) : rootLabels (abandon holes) = labels holes := by
  cases holes with
  | nil => rfl
  | cons hole rest => exact Container.labels_enclose _ rest

theorem labels_cutOff (holes : List Hole) :
    (rootLabels (cutOff holes)).Sublist (labels holes) := by
  cases holes with
  | nil => exact List.Sublist.refl _
  | cons hole rest =>
      refine (Container.labels_cutOff _ rest).trans ?_
      exact (List.Sublist.refl _).append hole.labels_discard

end Hole

namespace Reader

variable {setting : Setting} {taken : List Lexeme} {lexeme : Lexeme}

def focusLabels : Focus → List Label
  | .value | .parameterName _ | .parameterClose _ _ | .skipParameter _ => []
  | .part container _ | .separator container | .skip _ container _ => container.labels
  | .colon opener members key => (Container.object opener (.bare key :: members)).labels
  | .finished root | .stopped root _ => rootLabels root

def labels (reader : Reader) : List Label :=
  Hole.labels reader.holes ++ focusLabels reader.focus

/-- A placeholder that is not complete stands at the end of the tokens. -/
inductive Awaits : Focus → List Token → List Lexeme → Prop
  | parameterName {before : List Lexeme} {opening : Lexeme} {tokens : List Token}
      (hkind : opening.kind = .parameterOpen)
      (htokens : tokens.Sublist (before.map Lexeme.toToken)) :
      Awaits (.parameterName opening.toToken) tokens (before ++ [opening])
  | parameterClose {before : List Lexeme} {opening name : Lexeme} {tokens : List Token}
      (hkind : opening.kind = .parameterOpen) (hname : name.kind = .identifier)
      (htokens : tokens.Sublist (before.map Lexeme.toToken)) :
      Awaits (.parameterClose opening.toToken name.word) tokens (before ++ [opening, name])

/-- The reader waits for the rest of a placeholder. -/
def isInParameter (reader : Reader) : Bool :=
  match reader.focus with
  | .parameterName _ | .parameterClose _ _ => true
  | _ => false

/-- What a reader has built is written by the tokens it has taken, in their order. -/
structure Reads (taken : List Lexeme) (reader : Reader) : Prop where
  ordered : (reader.labels.map Label.token).Sublist (taken.map Lexeme.toToken)
  written : ∀ label ∈ reader.labels, label.WrittenIn taken
  awaits : reader.isInParameter = true →
    Awaits reader.focus (reader.labels.map Label.token) taken

theorem Reads.of_sublist {first last : Reader} (hreads : first.Reads taken)
    (hlabels : last.labels.Sublist first.labels) (houtside : last.isInParameter = false) :
    last.Reads taken where
  ordered := (hlabels.map Label.token).trans hreads.ordered
  written label hmem := hreads.written label (hlabels.subset hmem)
  awaits hinside := by rw [houtside] at hinside; contradiction

/-- A token that adds nothing. -/
theorem Reads.pass {first last : Reader} (lexeme : Lexeme) (hreads : first.Reads taken)
    (hlabels : last.labels.Sublist first.labels) (houtside : last.isInParameter = false) :
    last.Reads (taken ++ [lexeme]) where
  ordered := by
    rw [List.map_append]
    exact ((hlabels.map Label.token).trans hreads.ordered).trans (List.sublist_append_left _ _)
  written label hmem := (hreads.written label (hlabels.subset hmem)).append [lexeme]
  awaits hinside := by rw [houtside] at hinside; contradiction

/-- A token that completes a label, which some earlier token may have begun. -/
theorem Reads.push {first last : Reader} {label : Label} {before after : List Lexeme}
    {begins : Lexeme} (hreads : first.Reads taken)
    (hordered : (first.labels.map Label.token).Sublist (before.map Lexeme.toToken))
    (htaken : taken ++ [lexeme] = before ++ begins :: after)
    (hlabels : last.labels = first.labels ++ [label]) (htoken : label.token = begins.toToken)
    (hwritten : label.WrittenIn (taken ++ [lexeme])) (houtside : last.isInParameter = false) :
    last.Reads (taken ++ [lexeme]) where
  ordered := by
    rw [hlabels, htaken, List.map_append, List.map_append, List.map_singleton, htoken]
    exact hordered.append ((List.nil_sublist _).cons_cons begins.toToken)
  written other hmem := by
    rw [hlabels] at hmem
    rcases List.mem_append.mp hmem with hold | hnew
    · exact (hreads.written other hold).append [lexeme]
    · rwa [List.mem_singleton.mp hnew]
  awaits hinside := by rw [houtside] at hinside; contradiction

/-- A token that begins a value or is a name. -/
theorem Reads.begin {first last : Reader} (label : Label) (hreads : first.Reads taken)
    (hlabels : last.labels = first.labels ++ [label]) (htoken : label.token = lexeme.toToken)
    (hwritten : label.WrittenIn (taken ++ [lexeme])) (houtside : last.isInParameter = false) :
    last.Reads (taken ++ [lexeme]) :=
  hreads.push hreads.ordered rfl hlabels htoken hwritten houtside

theorem labels_deliver_none (holes : List Hole) (reports : List Diagnostic) :
    (deliver none holes reports).labels = Hole.labels holes := by
  cases holes with
  | nil => rfl
  | cons hole rest => rfl

theorem labels_deliver_some (value : Value) (holes : List Hole) (reports : List Diagnostic) :
    (deliver (some value) holes reports).labels = Hole.labels holes ++ value.labels := by
  cases holes with
  | nil => rfl
  | cons hole rest =>
      rw [Hole.labels, List.append_assoc, ← Hole.labels_fill_some]
      rfl

theorem isInParameter_deliver (value : Option Value) (holes : List Hole)
    (reports : List Diagnostic) : (deliver value holes reports).isInParameter = false := by
  cases holes with
  | nil => rfl
  | cons hole rest => cases value <;> rfl

theorem Turn.labels_eq {first last : Reader} (hturn : Turn setting lexeme first last) :
    last.labels = first.labels := by
  cases hturn with
  | item => simp [Reader.labels, focusLabels, Hole.labels, Hole.fill]
  | missingValue => exact (labels_deliver_none _ _).trans (List.append_nil _).symm
  | noProperty => rfl
  | missingComma => rfl
  | noPart => rfl
  | resume => rfl
  | resumePart => rfl
  | mismatched => exact labels_deliver_some _ _ _
  | mismatchedPart => exact labels_deliver_some _ _ _
  | missingColon => simp [Reader.labels, focusLabels, Hole.labels, Hole.fill, Member.of]
  | noPair => rfl
  | noName => rfl
  | noMarker => exact (labels_deliver_none _ _).trans (List.append_nil _).symm
  | resumeParameter => exact (labels_deliver_none _ _).trans (List.append_nil _).symm

theorem Turn.isInParameter {first last : Reader} (hturn : Turn setting lexeme first last) :
    last.isInParameter = false := by
  cases hturn <;> first | rfl | exact isInParameter_deliver _ _ _

theorem labels_cutRoot (reader : Reader) :
    (rootLabels reader.cutRoot).Sublist reader.labels := by
  obtain ⟨focus, holes, reports⟩ := reader
  have hhole := Hole.labels_cutOff holes
  cases focus with
  | value | parameterName marker | parameterClose marker name | skipParameter depth =>
      simpa [cutRoot, labels, focusLabels] using hhole
  | part container comma | separator container | skip depth container next =>
      exact container.labels_cutOff holes
  | colon opener members key =>
      refine (Container.labels_cutOff _ holes).trans ((List.Sublist.refl _).append ?_)
      exact (Hole.property opener members key).labels_discard
  | finished root | stopped root isCut => exact List.sublist_append_right _ _

theorem Shift.reads {first last : Reader} (hshift : Shift setting lexeme first last)
    (hmeans : ∀ content, lexeme.scalar? = some content → lexeme.Says content)
    (hreads : first.Reads taken) : last.Reads (taken ++ [lexeme]) := by
  have hlast : lexeme ∈ taken ++ [lexeme] := List.mem_append_right taken List.mem_cons_self
  -- a shift adds at most one label, whose token is after those of the others
  cases hshift with
  | cut => exact hreads.pass lexeme (labels_cutRoot first) rfl
  | tooDeep =>
      apply hreads.pass lexeme ?_ rfl
      simp [labels, focusLabels, Hole.labels_abandon, Hole.labels]
  | opening hkind hroom =>
      rcases hkind with hkind | hkind
      · apply hreads.begin ⟨lexeme.toToken, .object⟩ ?_ rfl (.object hlast hkind) rfl
        simp [labels, focusLabels, ofOpener_of_brace hkind, Container.labels, Container.value,
          Value.labels, Value.memberLabels]
      · apply hreads.begin ⟨lexeme.toToken, .array⟩ ?_ rfl (.array hlast hkind) rfl
        simp [labels, focusLabels, ofOpener_of_bracket hkind, Container.labels, Container.value,
          Value.labels, Value.itemLabels]
  | parameterOpen hkind =>
      have hpassed := hreads.pass lexeme (List.Sublist.refl _) rfl
      exact ⟨hpassed.ordered, hpassed.written, fun _ => .parameterName hkind hreads.ordered⟩
  | scalar hcontent =>
      apply hreads.begin _ ?_ rfl (.scalar hlast (hmeans _ hcontent)) (isInParameter_deliver _ _ _)
      rw [labels_deliver_some]
      simp [labels, focusLabels, Value.labels]
  | noValue =>
      apply hreads.pass lexeme ?_ (isInParameter_deliver _ _ _)
      rw [labels_deliver_none]
      simp [labels, focusLabels]
  | name hkind =>
      rename_i opener members comma holes reports
      have hstring : lexeme.Says (.string lexeme.string) :=
        hmeans _ (by simp [Lexeme.scalar?, hkind])
      apply hreads.begin lexeme.key.label ?_ rfl (.scalar hlast hstring) rfl
      simp [labels, focusLabels, Container.labels, Container.value, Value.labels,
        Value.memberLabels_append, Value.memberLabels]
  | colon =>
      apply hreads.pass lexeme ?_ rfl
      simp [labels, focusLabels, Hole.labels, Hole.fill, Member.of]
  | parameterName hkind =>
      rename_i marker holes reports
      have hpassed : (Reader.mk .value holes reports).Reads (taken ++ [lexeme]) :=
        hreads.pass lexeme (List.Sublist.refl _) rfl
      refine ⟨hpassed.ordered, hpassed.written, fun _ => ?_⟩
      cases hreads.awaits rfl with
      | parameterName hopening htokens =>
          rw [List.append_assoc]
          exact .parameterClose hopening hkind htokens
  | parameterClose hkind =>
      rename_i marker name holes reports
      cases hreads.awaits rfl with
      | parameterClose hopening hname htokens =>
          rename_i before opening word
          have htaken : before ++ [opening, word] ++ [lexeme] = before ++ [opening, word, lexeme] :=
            List.append_assoc _ _ _
          refine hreads.push htokens htaken ?_ rfl (.parameter htaken hopening hname hkind)
            (isInParameter_deliver _ _ _)
          rw [labels_deliver_some]
          simp [labels, focusLabels, Value.labels]
  | comma => exact hreads.pass lexeme (List.Sublist.refl _) rfl
  | extraComma => exact hreads.pass lexeme (List.Sublist.refl _) rfl
  | close =>
      apply hreads.pass lexeme ?_ (isInParameter_deliver _ _ _)
      exact (labels_deliver_some _ _ _).symm ▸ List.Sublist.refl _
  | closePart =>
      apply hreads.pass lexeme ?_ (isInParameter_deliver _ _ _)
      exact (labels_deliver_some _ _ _).symm ▸ List.Sublist.refl _
  | pass => exact hreads.pass lexeme (List.Sublist.refl _) rfl
  | passParameter => exact hreads.pass lexeme (List.Sublist.refl _) rfl
  | brokenMarker =>
      apply hreads.pass lexeme ?_ (isInParameter_deliver _ _ _)
      rw [labels_deliver_none]
      simp [labels, focusLabels]
  | excess =>
      exact hreads.pass lexeme (List.sublist_append_right _ _) rfl
  | stopped => exact hreads.pass lexeme (List.Sublist.refl _) rfl

theorem reads_take {reader : Reader}
    (hmeans : ∀ content, lexeme.scalar? = some content → lexeme.Says content)
    (hreads : reader.Reads taken) : (reader.take setting lexeme).Reads (taken ++ [lexeme]) := by
  refine take_induction (Reads taken) (Reads (taken ++ [lexeme])) ?_ ?_ hreads
  · intro first last hturn hfirst
    exact hfirst.of_sublist (by rw [hturn.labels_eq]) hturn.isInParameter
  · intro first last hshift hfirst
    exact hshift.reads hmeans hfirst

theorem reads_run (setting : Setting) {reader : Reader} {lexemes : List Lexeme}
    (hmeans : ∀ lexeme ∈ lexemes, ∀ content, lexeme.scalar? = some content → lexeme.Says content)
    (hreads : reader.Reads taken) :
    (reader.run setting lexemes).Reads (taken ++ significant lexemes) := by
  induction lexemes generalizing reader taken with
  | nil => simpa [significant] using hreads
  | cons lexeme rest ih =>
      have hrest := fun later hlater => hmeans later (List.mem_cons_of_mem lexeme hlater)
      rw [run_cons, step]
      split
      next htrivia =>
        rw [significant_cons_of_isTrivia htrivia]
        apply ih hrest
        unfold ignore
        split
        · exact ⟨hreads.ordered, hreads.written, hreads.awaits⟩
        · exact hreads
      next htrivia =>
        rw [significant_cons_of_not_isTrivia (by simpa using htrivia), List.append_cons]
        exact ih hrest (reads_take (hmeans lexeme List.mem_cons_self) hreads)

theorem labels_endIn (container : Container) (holes : List Hole) (reports : List Diagnostic) :
    (rootLabels (endIn setting container holes reports).root).Sublist
      (Hole.labels holes ++ container.labels) := by
  unfold endIn
  split
  · exact container.labels_cutOff holes
  · exact (container.labels_enclose holes).symm ▸ List.Sublist.refl _

theorem labels_endWithout (holes : List Hole) (reports : List Diagnostic) :
    (rootLabels (endWithout setting holes reports).root).Sublist (Hole.labels holes) := by
  cases holes with
  | nil => exact List.Sublist.refl _
  | cons hole rest => exact labels_endIn (hole.fill none) rest reports

theorem labels_endBefore (diagnostic : Diagnostic) (holes : List Hole)
    (reports : List Diagnostic) :
    (rootLabels (endBefore setting diagnostic holes reports).root).Sublist
      (Hole.labels holes) := by
  unfold endBefore
  split
  · exact Hole.labels_cutOff holes
  · exact labels_endWithout holes _

/-- At the end of a body some of what has been read may be left out. -/
theorem labels_finish (setting : Setting) (isGroup : Bool) (reader : Reader) :
    (rootLabels (reader.finish setting isGroup).root).Sublist reader.labels := by
  obtain ⟨focus, holes, reports⟩ := reader
  have hnone : (⟨.value, holes, reports⟩ : Reader).labels = Hole.labels holes :=
    List.append_nil _
  cases focus with
  | value =>
      rw [hnone]
      cases holes with
      | nil => exact List.Sublist.refl _
      | cons hole rest => exact labels_endBefore _ _ reports
  | part container comma => exact labels_endIn container holes reports
  | separator container => exact labels_endIn container holes reports
  | colon opener members key =>
      simp only [finish, endAfterName]
      split
      · refine (labels_endIn _ holes reports).trans ((List.Sublist.refl _).append ?_)
        exact (Hole.property opener members key).labels_discard
      · exact labels_endIn _ holes _
  | parameterName marker => exact hnone ▸ labels_endBefore _ holes reports
  | parameterClose marker name => exact hnone ▸ labels_endBefore _ holes reports
  | skip depth container next => exact labels_endIn container holes reports
  | skipParameter depth => exact hnone ▸ labels_endWithout holes reports
  | finished root => exact List.sublist_append_right _ _
  | stopped root isCut => exact List.sublist_append_right _ _

end Reader

/-- The labels of a parsed body are written by its tokens, in their order. -/
theorem labels_parse (options : Options) (source : String) :
    ((rootLabels (options.parse source).root).map Label.token).Sublist
        ((significant (lex source)).map Lexeme.toToken) ∧
      ∀ label ∈ rootLabels (options.parse source).root,
        label.WrittenIn (significant (lex source)) := by
  have hstart : Reader.start.Reads [] := ⟨List.Sublist.refl _, by simp [Reader.start,
    Reader.labels, Reader.focusLabels, Hole.labels], fun hinside => by contradiction⟩
  have hmeans : ∀ lexeme ∈ lex source, ∀ content, lexeme.scalar? = some content →
      lexeme.Says content := fun lexeme hmem _ hcontent => means_of_scalar? hmem hcontent
  have hreads := Reader.reads_run (options.setting source) hmeans hstart
  have hfinish := Reader.labels_finish (options.setting source) options.isGroup
    (Reader.start.run (options.setting source) (lex source))
  exact ⟨(hfinish.map Label.token).trans hreads.ordered,
    fun label hmem => hreads.written label (hfinish.subset hmem)⟩

/-! ### The tree of a body -/

/-- The numbered values of a body fit together, and the tokens of the body write them. -/
structure Tree.IsIntact (tree : Tree) (lexemes : List Lexeme) : Prop where
  empty : tree.rootId? = none → tree.places = []
  /-- The root comes first and has no container. -/
  rooted : ∀ id, tree.rootId? = some id →
    id = 0 ∧ ∃ place, tree.get? id = some place ∧ place.parent = none
  numbered : ∀ id place, tree.get? id = some place → place.id = id
  /-- Everything else is in an array or an object that comes before it. -/
  contained : ∀ place ∈ tree.places, place.id ≠ 0 → ∃ id container,
    place.parent = some id ∧ tree.get? id = some container ∧ container.IsContainer ∧ id < place.id
  /-- What a container keeps is in that container. -/
  stored : ∀ container ∈ tree.places, ∀ id ∈ container.stored,
    ∃ place, tree.get? id = some place ∧ place.parent = some container.id
  once : (tree.places.flatMap Place.stored).Nodup
  named : ∀ container ∈ tree.places, ∀ entries, container.content = .object entries →
    ∀ key entry, (key, entry) ∈ entries →
      ∃ place, tree.get? entry.name = some place ∧ place.content = .scalar (.string key)
  written : ∀ place ∈ tree.places, place.value.label.WrittenIn (significant lexemes)
  ordered : tree.places.Pairwise fun first second =>
    first.token.span.start < second.token.span.start
  bounded : tree.size ≤ lexemes.length
  rootward : ∀ place ∈ tree.places, place.id ≠ 0 → (tree.ancestors place).getLast? = some 0

theorem Value.token_label (value : Value) : value.label.token = value.token := by
  cases value <;> rfl

theorem Tree.map_label_places (tree : Tree) :
    tree.places.map (·.value.label) = rootLabels tree.root := by
  obtain ⟨root⟩ := tree
  cases root with
  | none => rfl
  | some value => exact value.map_label_places none 0

theorem Tree.places_of_rootId? {tree : Tree} (hnone : tree.rootId? = none) : tree.places = [] := by
  rw [Tree.rootId?, Option.map_eq_none_iff] at hnone
  rw [Tree.places, hnone]

theorem Tree.get?_of_rootId? {tree : Tree} {id : Nat} (hid : tree.rootId? = some id) :
    id = 0 ∧ ∃ place, tree.get? id = some place ∧ place.parent = none := by
  rw [Tree.rootId?, Option.map_eq_some_iff] at hid
  obtain ⟨value, hroot, rfl⟩ := hid
  have hfirst : (⟨0, none, value⟩ : Place) ∈ tree.places := by
    rw [Tree.places, hroot]
    exact Value.mem_places none 0 value
  exact ⟨rfl, _, Tree.get?_of_mem hfirst, rfl⟩

/-- The tokens of the places are tokens of the body, in their order. -/
theorem tokens_parse (options : Options) (source : String) :
    ((options.parse source).tree.places.map Place.token).Sublist
      ((lex source).map Lexeme.toToken) := by
  have hsame : (options.parse source).tree.places.map Place.token =
      (rootLabels (options.parse source).root).map Label.token := by
    have hlabels := (options.parse source).tree.map_label_places
    rw [Body.tree] at hlabels
    rw [Body.tree, ← hlabels, List.map_map]
    exact List.map_congr_left fun place _ => place.value.token_label.symm
  rw [hsame]
  exact (labels_parse options source).1.trans (List.filter_sublist.map Lexeme.toToken)

/-- The tree of every body is intact, whatever is wrong with the body and wherever it is cut
off. -/
theorem isIntact_tree (options : Options) (source : String) :
    (options.parse source).tree.IsIntact (lex source) where
  empty := Tree.places_of_rootId?
  rooted := fun _ hid => Tree.get?_of_rootId? hid
  numbered := fun _ _ hget => Tree.id_of_get? hget
  contained := by
    intro place hmem hinner
    obtain ⟨container, hcontainer, hkind, hparent, hbefore⟩ := Tree.contained_of_mem hmem hinner
    exact ⟨container.id, container, hparent, Tree.get?_of_mem hcontainer, hkind, hbefore⟩
  stored := by
    intro container hmem id hid
    obtain ⟨value, hvalue⟩ := Place.exists_of_mem_stored hid
    exact ⟨_, Tree.get?_of_mem (Tree.places_subset hmem hvalue), rfl⟩
  once := Tree.nodup_stored _
  named := by
    intro container hmem entries hcontent key entry hentry
    obtain ⟨token, hname⟩ := Place.exists_name hcontent hentry
    exact ⟨_, Tree.get?_of_mem (Tree.places_subset hmem hname), rfl⟩
  written := by
    intro place hmem
    apply (labels_parse options source).2
    have hlabel := List.mem_map_of_mem (f := fun place => place.value.label) hmem
    rwa [Tree.map_label_places] at hlabel
  ordered := by
    have hlexemes : ((lex source).map Lexeme.toToken).Pairwise fun first second =>
        first.span.start < second.span.start :=
      List.pairwise_map.mpr (tiles_lex source).pairwise
    have hplaces := hlexemes.sublist (tokens_parse options source)
    rwa [List.pairwise_map] at hplaces
  bounded := by
    have hlength := (tokens_parse options source).length_le
    rwa [List.length_map, List.length_map] at hlength
  rootward := fun _ hmem hinner => Tree.getLast?_ancestors hmem hinner

end QueryBody
