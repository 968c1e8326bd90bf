import QueryProjection.Document.Basic
import QueryProjection.Value.Json

/-!
# Variables

* `Variables` are the values supplied for an operation, read from JSON by `Variables.ofJson`;
* `VariableValues.get?` is the value of a variable: the supplied one, or else the declared default,
  or else null if the variable may be null;
* `VariableValues.resolve` puts the values into an argument.
-/

namespace QueryProjection

/-- Values supplied for variables, by name. -/
abbrev Variables := List (String × Value)

/-- The variables of a JSON object; any other document supplies none. -/
def Variables.ofJson (json : Json) : Variables :=
  match Value.ofJson json with
  | .object members => members
  | _ => []

/-- The variables that an operation declares, and the values supplied for them. -/
structure VariableValues where
  definitions : List VariableDefinition
  supplied : Variables

namespace VariableValues

def get? (values : VariableValues) (name : String) : Option Value :=
  match Assoc.find? name values.supplied with
  | some value => some value
  | none =>
    match values.definitions.find? fun definition => definition.name == name with
    | none => none
    | some definition =>
      match definition.default with
      | some value => some value
      | none => if definition.nullable then some .null else none

mutual

/-- The value of an argument, or the name of the first variable in it that has no value. -/
def resolve (values : VariableValues) : ArgumentValue → Except String Value
  | .literal value => .ok value
  | .var name =>
    match values.get? name with
    | some value => .ok value
    | none => .error name
  | .list items => do return .list (← resolveItems values items)
  | .object members => do return .object (← resolveMembers values members)

def resolveItems (values : VariableValues) : List ArgumentValue → Except String (List Value)
  | [] => .ok []
  | item :: rest => do
    let value ← resolve values item
    return value :: (← resolveItems values rest)

def resolveMembers (values : VariableValues) :
    List (String × ArgumentValue) → Except String (List (String × Value))
  | [] => .ok []
  | (key, item) :: rest => do
    let value ← resolve values item
    return (key, value) :: (← resolveMembers values rest)

end

end VariableValues
end QueryProjection
