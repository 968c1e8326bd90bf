import QueryProjection.Value.Basic

/-!
# Declared arguments

An argument that a field or an extension declares: its name and type, the value it has when it is
not given, and whether null is refused.
-/

namespace QueryProjection

structure ArgumentDefinition where
  name : String
  ty : Ty
  /-- The value of an argument that is not given; null if there is none. -/
  default : Option Value := none
  /-- Whether the argument has to be given and may not be null. -/
  required : Bool := false

end QueryProjection
