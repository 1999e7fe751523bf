/-!
# Options of a parse

A body is complete or a fragment.  A fragment may be cut off anywhere: what is
missing at its end is no mistake.
-/

namespace QueryBody

structure Options where
  /-- The body is a group that must hold exactly one value, so an empty body is a mistake. -/
  isGroup : Bool := false
  /-- Whether fragments are allowed; by default they are unless the body is a group. -/
  fragments : Option Bool := none
  /-- The greatest nesting of objects and arrays. -/
  nestingLimit : Option Nat := some 512
  deriving DecidableEq, Repr

namespace Options

/-- A body that must be complete. -/
def group : Options := { isGroup := true }

def allowsFragments (options : Options) : Bool := options.fragments.getD !options.isGroup

end Options
end QueryBody
