import QueryProjection.Extension.Filter

/-!
# Sorting

Sorts a collection by a key, ascending unless the argument `descending` is true.
-/

namespace QueryProjection
namespace Extension

def sort (key : Expr → Fresh Expr) : Extension where
  name := "sort"
  arguments := [⟨"descending", .boolean, some (.boolean false), false⟩]
  preSelection context input := do
    if context.materialized then return input
    match context.argument? "descending" with
    | none => throw "argument `descending` is not bound"
    | some descending =>
      let p ← Hook.ofFresh (Parameter.fresh "sort" input.element.ty)
      let k ← Hook.ofFresh (key (contextOf input p))
      return { input with
        collection := .call .orderBy input.collection [.lambda p k, descending] }

end Extension
end QueryProjection
