import QueryProjection.Schema.Basic

/-!
# Documents

An operation whose fields already know their definitions in the schema.

* `ArgumentValue` is the value of an argument as it is written, with variables in it;
* `Selection` is one entry of a selection set;
* `Document` is an operation with its variables and the fragments it can spread.
-/

namespace QueryProjection

/-- The value of an argument, which may mention variables. -/
inductive ArgumentValue where
  | literal (value : Value)
  | var (name : String)
  | list (items : List ArgumentValue)
  | object (members : List (String × ArgumentValue))

instance : Inhabited ArgumentValue := ⟨.literal .null⟩

structure Directive where
  name : String
  arguments : List (String × ArgumentValue)

/-- A selected field, without the directives on it and the selections below it. -/
structure SelectedField where
  /-- The key of the field in the response: its alias, or else its name. -/
  responseKey : String
  definition : FieldDefinition
  arguments : List (String × ArgumentValue)

/-- One entry of a selection set. -/
inductive Selection where
  | field (field : SelectedField) (directives : List Directive) (selections : List Selection)
  | spread (fragment : String) (directives : List Directive)
  /-- Selections with a type condition, if there is one. -/
  | inline (typeCondition : Option String) (directives : List Directive)
      (selections : List Selection)

structure Fragment where
  name : String
  typeCondition : String
  selections : List Selection

structure VariableDefinition where
  name : String
  default : Option Value := none
  nullable : Bool := true

/-- An operation and the fragments it can spread, by name. -/
structure Document where
  name : Option String := none
  declarations : List VariableDefinition := []
  selections : List Selection := []
  fragments : List (String × Fragment) := []

end QueryProjection
