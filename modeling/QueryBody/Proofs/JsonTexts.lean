import QueryBody.Proofs.Acceptance
import QueryBody.Proofs.JsonGrammar
import QueryBody.Proofs.SortedEntries
import QueryBody.Proofs.StringToken
import QueryBody.Proofs.TemplateTokens
import QueryBody.Proofs.Unescaping
import Mathlib.Tactic

/-!
# JSON texts are accepted

A JSON text is cut into the tokens of a value whose JSON view is what the text denotes.
Every production of the grammar of JSON is one lemma; blanks may stand on both sides of
every token, since no token of a value runs into them.
-/

namespace QueryBody
namespace JsonText

open Lexer

/-! ### Strings -/

namespace IsHexDigit

variable {c : Char} {value : Nat}

theorem plain (hdigit : IsHexDigit c value) : c ≠ '"' ∧ c ≠ '\\' := by
  have hvalue := hdigit.hexValue?_eq
  constructor <;> (rintro rfl; contradiction)

end IsHexDigit

namespace IsSpelling

variable {content : List Char} {text : String}

end IsSpelling

/-! ### Blanks -/

variable {depth : Nat} {json : Json}

/-- The tokens spell a value that nests at most so deep and has this JSON view. -/
structure Denotes (depth : Nat) (json : Json) (part : Writing) : Prop where
  spells : Spells part.value part.lexemes
  json : part.value.datum.json? = some json
  nesting : part.value.nesting ≤ depth

/-- The tokens of a property spell the key of a pair and denote its value. -/
structure DenotesPair (depth : Nat) (pair : Pair) (part : Property) : Prop where
  name : part.name.kind = .string
  colon : part.colon.kind = .colon
  key : part.name.string = pair.key
  value : Denotes depth pair.value.json part.writing

theorem DenotesPair.views {pair : Pair} {part : Property} (hpart : DenotesPair depth pair part) :
    Datum.ViewsAs (part.name.string, some part.writing.value.datum)
      (pair.key, pair.value.json) :=
  ⟨hpart.key, _, rfl, hpart.value.json⟩

end JsonText

open JsonText

end QueryBody
