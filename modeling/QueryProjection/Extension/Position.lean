import QueryProjection.Extension.Basic

/-!
# Positions

Adds the position of each element, counted from zero, to its selection.  The collection is swapped
for records of an index and an item, so the selection is compiled against a new placeholder and
reads from its item.
-/

namespace QueryProjection
namespace Extension

/-- Adds the position of each element under a key.  Over fetched data the position is already a
member of each record. -/
def position (key : String) : Extension where
  name := "position"
  preSelection context input := do
    if context.materialized then return input
    let collection := Expr.call .enumerate input.collection []
    match collection.ty.element? with
    | none => throw "cannot enumerate a non-list collection"
    | some ty =>
      let element ← Hook.ofFresh (Parameter.fresh "positioned" ty)
      match Expr.recordMember? (.parameter element) "item" with
      | none => throw "enumerated elements have no item"
      | some item =>
        return {
          collection
          element
          elementContext := input.elementContext.replace (.identity input.element) item }
  postSelection context input :=
    let member := if context.materialized then key else "index"
    match Expr.recordMember? (.parameter input.element) member with
    | some position => return { input with selection := input.selection.insert key position }
    | none => return input

end Extension
end QueryProjection
