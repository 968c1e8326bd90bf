import QueryProjection.Expr.Evaluate

/-!
# Constants

Values that have to be bound to their parameters before a compiled expression can be evaluated, such
as the arguments of each field of the selection.
-/

namespace QueryProjection

/-- Values of parameters, in the order in which the parameters were first given one. -/
structure Constants where
  entries : List (Parameter × Value) := []

namespace Constants

def insert (constants : Constants) (p : Parameter) (value : Value) : Constants :=
  ⟨Assoc.insert p value constants.entries⟩

/-- Adds all constants of `other`, whose values replace those that are there. -/
def extend (constants other : Constants) : Constants :=
  ⟨Assoc.insertAll constants.entries other.entries⟩

def get? (constants : Constants) (p : Parameter) : Option Value :=
  Assoc.find? p constants.entries

def environment (constants : Constants) : Environment :=
  constants.get?

end Constants
end QueryProjection
