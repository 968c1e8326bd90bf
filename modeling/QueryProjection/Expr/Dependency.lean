import QueryProjection.CompileError
import QueryProjection.Expr.Basic

/-!
# Dependencies

A service that runs after the data has been fetched needs the members of its context that its
arguments read, and no more.  `Expr.dependencies` finds them: for each member that is read directly
on a tracked parameter, the whole chain of members that starts there.  Reading the parameter as a
whole is an error, because there is no end to what would have to be fetched.
-/

namespace QueryProjection

inductive Tracked where
  /-- This parameter, where it is free. -/
  | identity (p : Parameter)
  /-- Parameters of this type, where a binder inside the expression binds them. -/
  | type (ty : Ty)

/-- Whether a parameter is tracked below these binders. -/
def Tracked.tracks (tracked : Tracked) (bound : List Parameter) (p : Parameter) : Bool :=
  match tracked with
  | .identity target => target == p && !bound.contains p
  | .type ty => p.ty == ty && bound.contains p

/-- A chain of members and the parameter it starts at. -/
structure Dependency where
  root : Parameter
  chain : Expr

namespace Expr

/-- The chains found so far, by the member read directly on the tracked parameter. -/
abbrev Dependencies := List (String × Dependency)

mutual

/-- Adds the dependencies of an expression.  `chain` is the chain of members that the expression is
the receiver of, if any, with the member that is read directly on the expression. -/
def collect (tracked : Tracked) (path : FieldPath) (bound : List Parameter)
    (chain : Option (Expr × String)) : Expr → Dependencies → Except CompileError Dependencies
  | .parameter p, found =>
    if tracked.tracks bound p then
      match chain with
      | some (whole, name) => .ok (Assoc.insert name ⟨p, whole⟩ found)
      | none => .error (.unscopedContext path p.name)
    else .ok found
  | .constant _ _ _, found => .ok found
  | .member receiver name ty, found =>
    let whole :=
      match chain with
      | some (whole, _) => whole
      | none => .member receiver name ty
    collect tracked path bound (some (whole, name)) receiver found
  | .call _ receiver arguments, found => do
    let found ← collect tracked path bound none receiver found
    collectAll tracked path bound arguments found
  | .binary _ left right, found => do
    let found ← collect tracked path bound none left found
    collect tracked path bound none right found
  | .serviceCall _ _ arguments _, found => collectAll tracked path bound arguments found
  | .lambda p body, found => collect tracked path (p :: bound) none body found
  | .record _ values, found => collectAll tracked path bound values found
  | .projectEach source element body, found => do
    let found ← collect tracked path bound none source found
    collect tracked path (element :: bound) none body found
  | .projectOne source element body, found => do
    let found ← collect tracked path bound none source found
    collect tracked path (element :: bound) none body found
  | .materialize inner, found => collect tracked path bound none inner found

def collectAll (tracked : Tracked) (path : FieldPath) (bound : List Parameter) :
    List Expr → Dependencies → Except CompileError Dependencies
  | [], found => .ok found
  | e :: es, found => do
    let found ← collect tracked path bound none e found
    collectAll tracked path bound es found

end

/-- The chains of members that an expression reads on the tracked parameters, by the member read
directly on the parameter.  Of several chains with the same first member the last one counts. -/
def dependencies (e : Expr) (tracked : Tracked) (path : FieldPath) :
    Except CompileError Dependencies :=
  collect tracked path [] none e []

end Expr
end QueryProjection
