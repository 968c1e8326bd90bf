import QueryProjection.Ty

/-!
# Parameters

A parameter is a typed placeholder.  Two parameters are different however alike their names and
types are, because each has a number of its own, drawn from a supply.

* `Fresh` is a computation that draws numbers from the supply;
* `Parameter.fresh` makes a parameter that did not exist before.
-/

namespace QueryProjection

/-- A typed placeholder, told apart from all others by its number. -/
structure Parameter where
  id : Nat
  name : String
  ty : Ty
deriving DecidableEq

/-- A computation that draws from a supply of unused numbers. -/
abbrev Fresh := StateM Nat

def Fresh.next : Fresh Nat :=
  fun n => (n, n + 1)

def Parameter.fresh (name : String) (ty : Ty) : Fresh Parameter := do
  return ⟨← Fresh.next, name, ty⟩

def Parameter.text (p : Parameter) : String :=
  p.name ++ ": " ++ p.ty.text

end QueryProjection
