import QueryProjection.Extension.Basic

/-!
# Paging

Skips a number of elements and takes a number of them, given by the arguments `skip` and `take`.
-/

namespace QueryProjection
namespace Extension

/-- Pages of a collection.  `take` is the default page size if it is not given, and a larger value
than the maximum is refused. -/
def offsetPaging (defaultSize maxSize : Option Int64) : Extension where
  name := "offset_paging"
  arguments :=
    [⟨"skip", .int, some (.int 0), false⟩, ⟨"take", .int, defaultSize.map Value.int, false⟩]
  preSelection context input := do
    if context.materialized then return input
    match (context.argumentValue? "take").bind Value.asInt?, maxSize with
    | some size, some limit =>
      if limit < size then
        throw ("requested page size " ++ size.toInt.repr ++ " exceeds the maximum of "
          ++ limit.toInt.repr)
    | _, _ => pure ()
    match context.argument? "skip", context.argument? "take" with
    | some skip, some take =>
      return { input with collection := .call .take (.call .skip input.collection [skip]) [take] }
    | _, _ => throw "paging arguments are not bound"

end Extension
end QueryProjection
