import QueryProjection.CompileError
import QueryProjection.Expr.Free

/-!
# Replacing parameters

* `Expr.replace` puts an expression in place of the free parameters that a `Replacement` picks;
* `Expr.substitute` puts one in place of every subexpression that is the same as a given one;
* `Expr.rebase` moves an expression from one context to another.  If parameters of the old context's
  type are left over that no scope binds, they are taken for references to the old context, and
  what happens to them is for the `TypeMatching` policy to say.
-/

namespace QueryProjection

/-- Which free parameters are replaced. -/
inductive Replacement where
  | identity (p : Parameter)
  /-- Every parameter of this type that is not one of the excluded ones. -/
  | typeMatch (ty : Ty) (excluding : List Parameter)

def Replacement.picks : Replacement → Parameter → Bool
  | .identity target, p => target == p
  | .typeMatch ty excluding, p => p.ty == ty && !excluding.contains p

/-- What to do about references to an old context that can be told only by their type. -/
inductive TypeMatching where
  /-- Replace them and say so. -/
  | warn
  /-- Replace them. -/
  | allow
  /-- Refuse the field. -/
  | deny
deriving DecidableEq, Repr

namespace Expr

/-! ## Free parameters -/

mutual

/-- Puts `target` in place of the parameters that are picked and not bound. -/
def replaceUnder (picks : Parameter → Bool) (target : Expr) (bound : List Parameter) : Expr → Expr
  | .parameter p => if p ∉ bound ∧ picks p = true then target else .parameter p
  | .constant site value ty => .constant site value ty
  | .member receiver name ty => .member (replaceUnder picks target bound receiver) name ty
  | .call method receiver arguments =>
    .call method (replaceUnder picks target bound receiver)
      (replaceUnderAll picks target bound arguments)
  | .binary op left right =>
    .binary op (replaceUnder picks target bound left) (replaceUnder picks target bound right)
  | .serviceCall service method arguments ty =>
    .serviceCall service method (replaceUnderAll picks target bound arguments) ty
  | .lambda p body => .lambda p (replaceUnder picks target (p :: bound) body)
  | .record shape values => .record shape (replaceUnderAll picks target bound values)
  | .projectEach source element body =>
    .projectEach (replaceUnder picks target bound source) element
      (replaceUnder picks target (element :: bound) body)
  | .projectOne source element body =>
    .projectOne (replaceUnder picks target bound source) element
      (replaceUnder picks target (element :: bound) body)
  | .materialize inner => .materialize (replaceUnder picks target bound inner)

def replaceUnderAll (picks : Parameter → Bool) (target : Expr) (bound : List Parameter) :
    List Expr → List Expr
  | [] => []
  | e :: es =>
    replaceUnder picks target bound e :: replaceUnderAll picks target bound es

end

/-- Puts `target` in place of every free parameter that the replacement picks.  Mentions that a
binder inside the expression binds are left alone. -/
def replace (e : Expr) (replacement : Replacement) (target : Expr) : Expr :=
  replaceUnder replacement.picks target [] e

/-! ## Subexpressions -/

mutual

/-- Puts `replacement` in place of every subexpression that is the same as `target`, from the
outside in. -/
def substituteIn (target replacement : Expr) : Expr → Expr
  | .parameter p => if same (.parameter p) target then replacement else .parameter p
  | .constant site value ty =>
    if same (.constant site value ty) target then replacement else .constant site value ty
  | .member receiver name ty =>
    if same (.member receiver name ty) target then replacement
    else .member (substituteIn target replacement receiver) name ty
  | .call method receiver arguments =>
    if same (.call method receiver arguments) target then replacement
    else .call method (substituteIn target replacement receiver)
      (substituteInAll target replacement arguments)
  | .binary op left right =>
    if same (.binary op left right) target then replacement
    else .binary op (substituteIn target replacement left) (substituteIn target replacement right)
  | .serviceCall service method arguments ty =>
    if same (.serviceCall service method arguments ty) target then replacement
    else .serviceCall service method (substituteInAll target replacement arguments) ty
  | .lambda p body =>
    if same (.lambda p body) target then replacement
    else .lambda p (substituteIn target replacement body)
  | .record shape values =>
    if same (.record shape values) target then replacement
    else .record shape (substituteInAll target replacement values)
  | .projectEach source element body =>
    if same (.projectEach source element body) target then replacement
    else .projectEach (substituteIn target replacement source) element
      (substituteIn target replacement body)
  | .projectOne source element body =>
    if same (.projectOne source element body) target then replacement
    else .projectOne (substituteIn target replacement source) element
      (substituteIn target replacement body)
  | .materialize inner =>
    if same (.materialize inner) target then replacement
    else .materialize (substituteIn target replacement inner)

def substituteInAll (target replacement : Expr) : List Expr → List Expr
  | [] => []
  | e :: es => substituteIn target replacement e :: substituteInAll target replacement es

end

/-- Puts `replacement` in place of every subexpression that is the same as `target`.  Binders play
no part in this. -/
def substitute (e target replacement : Expr) : Expr :=
  substituteIn target replacement e

/-! ## Contexts -/

/-- The free parameters of `ty` that the scope does not bind, in order. -/
def staleParameters (e : Expr) (ty : Ty) (scope : List Parameter) : List Parameter :=
  e.freeParameters.filter (Replacement.typeMatch ty scope).picks

/-- Moves an expression from the context `old` to `new`.  Parameters of the old context's type that
remain free outside the scope are moved too, as far as the policy allows it. -/
def rebase (e : Expr) (policy : TypeMatching) (old : Parameter) (new : Expr)
    (scope : List Parameter) (path : FieldPath) : Run CompileError Expr :=
  let moved := e.replace (.identity old) new
  match moved.staleParameters old.ty scope with
  | [] => pure moved
  | stale => do
    match policy with
    | .deny => Run.fail (.typeMatchRejected path old.ty.text)
    | .warn => Run.observeAll [.matchedByType path old.ty (stale.map Parameter.name)]
    | .allow => pure ()
    return moved.replace (.typeMatch old.ty scope) new

end Expr
end QueryProjection
