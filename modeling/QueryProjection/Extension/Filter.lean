import QueryProjection.Extension.Basic

/-!
# Filtering

Keeps the elements of a collection that satisfy a predicate, if the argument of the predicate is
given and not null.
-/

namespace QueryProjection
namespace Extension

/-- The expression that an element's context becomes when `p` stands for the element. -/
def contextOf (input : PreSelection) (p : Parameter) : Expr :=
  input.elementContext.replace (.identity input.element) (.parameter p)

/-- Keeps the elements for which the predicate of the element and the argument holds. -/
def filter (argument : ArgumentDefinition) (predicate : Expr → Expr → Fresh Expr) : Extension where
  name := "filter"
  arguments := [argument]
  preSelection context input := do
    let given :=
      match context.argumentValue? argument.name with
      | some value => !value.isNull
      | none => false
    if context.materialized || !given then return input
    match context.argument? argument.name with
    | none => throw ("argument `" ++ argument.name ++ "` is not bound")
    | some expression =>
      let p ← Hook.ofFresh (Parameter.fresh "filter" input.element.ty)
      let condition ← Hook.ofFresh (predicate (contextOf input p) expression)
      return { input with collection := .call .filter input.collection [.lambda p condition] }

end Extension
end QueryProjection
