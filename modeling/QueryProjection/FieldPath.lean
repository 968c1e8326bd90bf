/-!
# Field paths

The response keys from the operation down to a field.  Errors are reported with the path of the
field they arose at, and `FieldPath.text` is how a message names it.
-/

namespace QueryProjection

/-- The response keys from the operation down to a field. -/
structure FieldPath where
  keys : List String
deriving DecidableEq, Repr

namespace FieldPath

def operation : FieldPath :=
  ⟨[]⟩

def child (path : FieldPath) (key : String) : FieldPath :=
  ⟨path.keys ++ [key]⟩

def root (key : String) : FieldPath :=
  operation.child key

def isEmpty (path : FieldPath) : Bool :=
  path.keys.isEmpty

/-- The keys joined by points; the operation has a name of its own. -/
def text (path : FieldPath) : String :=
  if path.isEmpty then "<operation>" else ".".intercalate path.keys

@[simp] theorem keys_child (path : FieldPath) (key : String) :
    (path.child key).keys = path.keys ++ [key] := rfl

end FieldPath
end QueryProjection
