import QueryBody.Token.Kind

/-!
# Sets of token kinds

The sets that the grammar uses: what a value may begin with, and where reading
resumes after a broken item or placeholder.
-/

namespace QueryBody

structure KindSet where
  members : List Kind

namespace KindSet

def empty : KindSet := ⟨[]⟩

def contains (set : KindSet) (kind : Kind) : Bool := kind ∈ set.members

def union (first second : KindSet) : KindSet := ⟨first.members ++ second.members⟩

@[simp] theorem contains_union (first second : KindSet) (kind : Kind) :
    (first.union second).contains kind = (first.contains kind || second.contains kind) := by
  simp [contains, union]

/-- The members of a set in the order of kinds. -/
def toList (set : KindSet) : List Kind := Kind.all.filter set.contains

/-- The names of the members between braces. -/
def text (set : KindSet) : String :=
  "\x7b" ++ ", ".intercalate (set.toList.map Kind.name) ++ "\x7d"

/-- What a value begins with. -/
def valueFirst : KindSet :=
  ⟨[.braceOpen, .bracketOpen, .string, .number, .trueWord, .falseWord, .nullWord, .parameterOpen]⟩

/-- Where reading resumes after a broken item. -/
def valueRecovery : KindSet := ⟨[.comma, .braceClose, .bracketClose]⟩

/-- Where reading resumes after a broken placeholder. -/
def parameterRecovery : KindSet := valueRecovery.union ⟨[.parameterClose]⟩

end KindSet
end QueryBody
