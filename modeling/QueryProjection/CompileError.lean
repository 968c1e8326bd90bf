import QueryProjection.FieldPath

/-!
# Compile errors

Why a field cannot be compiled, the message for it, and the category it is reported under.
-/

namespace QueryProjection

/-- Why a field cannot be compiled.  Every error carries the path of the field. -/
inductive CompileError where
  /-- A resolved field still refers to a parameter that nothing around it binds. -/
  | danglingContext (path : FieldPath) (parameter : String)
  | missingVariable (path : FieldPath) (name : String)
  | missingArgument (path : FieldPath) (name : String)
  | unknownArgument (path : FieldPath) (name : String)
  /-- A directive that needs a boolean condition has none. -/
  | invalidDirectiveArgument (path : FieldPath) (directive : String)
  | unknownFragment (path : FieldPath) (name : String)
  /-- A context was read as a whole where only its members can be provided. -/
  | unscopedContext (path : FieldPath) (parameter : String)
  /-- A fragment spreads itself, through the fragments of the cycle. -/
  | circularFragment (path : FieldPath) (name : String) (cycle : List String)
  /-- A member that a service needs was not fetched. -/
  | missingDependency (path : FieldPath) (member : String)
  /-- Moving to a new context by type was needed and is not allowed. -/
  | typeMatchRejected (path : FieldPath) (ty : String)
  /-- A field has a type that its selection does not fit. -/
  | shapeMismatch (path : FieldPath) (expected found : String)
  | depthLimit (path : FieldPath) (maxDepth : Nat)
  | extensionFailed (path : FieldPath) (extension message : String)
deriving DecidableEq, Repr

namespace CompileError

/-- The categories that failures are reported under. -/
inductive Kind where
  | compilation
  | unscopedContext
  | circularFragment
deriving DecidableEq, Repr

def kind : CompileError → Kind
  | .unscopedContext _ _ => .unscopedContext
  | .circularFragment _ _ _ => .circularFragment
  | _ => .compilation

def path : CompileError → FieldPath
  | .danglingContext path _ => path
  | .missingVariable path _ => path
  | .missingArgument path _ => path
  | .unknownArgument path _ => path
  | .invalidDirectiveArgument path _ => path
  | .unknownFragment path _ => path
  | .unscopedContext path _ => path
  | .circularFragment path _ _ => path
  | .missingDependency path _ => path
  | .typeMatchRejected path _ => path
  | .shapeMismatch path _ _ => path
  | .depthLimit path _ => path
  | .extensionFailed path _ _ => path

def message : CompileError → String
  | .danglingContext path parameter =>
    "Field '" ++ path.text ++ "' references the parameter '" ++ parameter
      ++ "' which is not bound by any enclosing context"
  | .missingVariable path name =>
    "Variable $" ++ name ++ " used by '" ++ path.text ++ "' is missing"
  | .missingArgument path name =>
    "Missing argument named '" ++ name ++ "' for field '" ++ path.text ++ "'"
  | .unknownArgument path name =>
    "The field `" ++ path.text ++ "` does not have an argument named `" ++ name ++ "`"
  | .invalidDirectiveArgument path directive =>
    "Directive @" ++ directive ++ " on '" ++ path.text ++ "' requires a boolean `if` argument"
  | .unknownFragment _ name => "Unknown fragment named '" ++ name ++ "'"
  | .unscopedContext path parameter =>
    "Field '" ++ path.text ++ "' reads the whole context parameter '" ++ parameter
      ++ "'. Fields requiring a service must select the specific members they depend on."
  | .circularFragment _ name cycle =>
    "Fragment '" ++ name ++ "' spreads itself through " ++ " -> ".intercalate cycle
  | .missingDependency path member =>
    "Field '" ++ path.text ++ "' depends on '" ++ member
      ++ "' which was not fetched by the data pass"
  | .typeMatchRejected path ty =>
    "Field '" ++ path.text ++ "' could only be rebased by matching parameters of type " ++ ty
      ++ ", which is disabled"
  | .shapeMismatch path expected found =>
    "Field '" ++ path.text ++ "' was expected to resolve to " ++ expected
      ++ " but resolves to " ++ found
  | .depthLimit path maxDepth =>
    "Field '" ++ path.text ++ "' exceeds the maximum selection depth of " ++ maxDepth.repr
  | .extensionFailed path extension message =>
    "Extension " ++ extension ++ " failed on '" ++ path.text ++ "': " ++ message

end CompileError
end QueryProjection
