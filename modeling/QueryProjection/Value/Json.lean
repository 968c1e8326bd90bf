import QueryProjection.Json.Basic
import QueryProjection.Value.Basic

/-!
# Values and JSON

* `Value.ofJson` reads a value off a JSON document.  An integer of up to 64 bits stays an integer,
  every other number becomes a floating point number.
* `Value.toJson` writes one, iterating every lazy sequence once.
-/

namespace QueryProjection
namespace Value

/-- The integer as a value: of 64 bits if it fits, else rounded. -/
def ofInteger (i : Int) : Value :=
  if -Nat.pow 2 63 ≤ i ∧ i < Nat.pow 2 63 then .int (Int64.ofInt i) else .float (.ofInt i)

mutual

def ofJson : Json → Value
  | .null => .null
  | .bool b => .boolean b
  | .int i => ofInteger i
  | .float x => .float x
  | .string s => .string s
  | .array items => .list (ofJsonItems items)
  | .object members => ofMembers (ofJsonMembers members)

def ofJsonItems : List Json → List Value
  | [] => []
  | item :: rest => ofJson item :: ofJsonItems rest

def ofJsonMembers : List (String × Json) → List (String × Value)
  | [] => []
  | (key, value) :: rest => (key, ofJson value) :: ofJsonMembers rest

end

mutual

/-- The JSON document of a value.  A number that is not finite becomes null, a lazy sequence an
array of what one iteration yields. -/
def toJson : Value → Run EvaluationError Json
  | .null => pure .null
  | .boolean b => pure (.bool b)
  | .int i => pure (.int i.toInt)
  | .float x => pure (if x.isFinite then .float x else .null)
  | .string s => pure (.string s)
  | .list items => do return .array (← toJsonItems items)
  | .object members => do return .object (← toJsonMembers members)
  | .lazy iterate => toJsonIteration (iterate ())

def toJsonIteration : Iteration → Run EvaluationError Json
  | .yields events items => do
    Run.observeAll events
    return .array (← toJsonItems items)
  | .fails events error => ⟨events, .error error⟩

def toJsonItems : List Value → Run EvaluationError (List Json)
  | [] => pure []
  | item :: rest => do
    let item ← toJson item
    return item :: (← toJsonItems rest)

def toJsonMembers : List (String × Value) → Run EvaluationError (List (String × Json))
  | [] => pure []
  | (key, value) :: rest => do
    let value ← toJson value
    return (key, value) :: (← toJsonMembers rest)

end

end Value
end QueryProjection
