import QueryProjection.Expr.Basic

/-!
# Free parameters

A lambda binds its parameter in its body, and a projection binds its element in its body but not in
its source.  A parameter is free in an expression where it is mentioned outside all of those.

* `Expr.freeOccurrences` lists the free mentions in order, given the parameters bound around the
  expression;
* `Expr.freeParameters` lists each free parameter once, at its first free mention.
-/

namespace QueryProjection
namespace Expr

mutual

/-- The mentions of parameters other than the bound ones, in order. -/
def freeOccurrences (bound : List Parameter) : Expr → List Parameter
  | .parameter p => if p ∈ bound then [] else [p]
  | .constant _ _ _ => []
  | .member receiver _ _ => freeOccurrences bound receiver
  | .call _ receiver arguments =>
    freeOccurrences bound receiver ++ freeOccurrencesAll bound arguments
  | .binary _ left right => freeOccurrences bound left ++ freeOccurrences bound right
  | .serviceCall _ _ arguments _ => freeOccurrencesAll bound arguments
  | .lambda p body => freeOccurrences (p :: bound) body
  | .record _ values => freeOccurrencesAll bound values
  | .projectEach source element body =>
    freeOccurrences bound source ++ freeOccurrences (element :: bound) body
  | .projectOne source element body =>
    freeOccurrences bound source ++ freeOccurrences (element :: bound) body
  | .materialize inner => freeOccurrences bound inner

def freeOccurrencesAll (bound : List Parameter) : List Expr → List Parameter
  | [] => []
  | e :: es => freeOccurrences bound e ++ freeOccurrencesAll bound es

end

/-- The free parameters of an expression in the order of their first free mention. -/
def freeParameters (e : Expr) : List Parameter :=
  (e.freeOccurrences []).eraseDups

def references (e : Expr) (p : Parameter) : Bool :=
  e.freeParameters.contains p

end Expr
end QueryProjection
