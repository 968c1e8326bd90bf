import QueryProjection.Expr.Replace

/-!
# Settings

The two things about compiling that can be set.
-/

namespace QueryProjection

structure Settings where
  typeMatching : TypeMatching := .warn
  /-- How deep selections may be nested; the fields of the operation are at depth one. -/
  maxDepth : Option Nat := none
deriving DecidableEq, Repr

end QueryProjection
