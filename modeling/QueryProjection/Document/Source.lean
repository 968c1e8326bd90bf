import QueryProjection.Document.Basic

/-!
# Written documents

A query document as it is written, before its fields are looked up in a schema.  Positions are kept
where an error can point at them.
-/

namespace QueryProjection

/-- A place in a text; lines and columns are counted from one. -/
structure Location where
  line : Nat
  column : Nat
deriving DecidableEq, Repr

/-- One entry of a written selection set. -/
inductive WrittenSelection where
  | field (location : Location) (key : Option String) (name : String)
      (arguments : List (String × ArgumentValue)) (directives : List Directive)
      (selections : List WrittenSelection)
  | spread (fragment : String) (directives : List Directive)
  /-- The type condition comes with the place where it starts. -/
  | inline (typeCondition : Option (Location × String)) (directives : List Directive)
      (selections : List WrittenSelection)

inductive OperationKind where
  | query
  | mutation
  | subscription
deriving DecidableEq, Repr

def OperationKind.text : OperationKind → String
  | .query => "query"
  | .mutation => "mutation"
  | .subscription => "subscription"

structure WrittenOperation where
  location : Location
  kind : OperationKind
  name : Option String
  declarations : List VariableDefinition
  selections : List WrittenSelection

/-- A written fragment, with the place of the name of its type. -/
structure WrittenFragment where
  location : Location
  name : String
  typeLocation : Location
  typeCondition : String
  selections : List WrittenSelection

inductive WrittenDefinition where
  | operation (operation : WrittenOperation)
  | fragment (fragment : WrittenFragment)

end QueryProjection
