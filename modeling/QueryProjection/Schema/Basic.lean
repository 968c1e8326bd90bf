import QueryProjection.Extension.Basic

/-!
# Schemas

The object types that a query can select from.  Every field resolves through an expression over the
context parameter of its type and the parameter of its arguments.

* `FieldDefinition` is a field and `FieldDefinition.shape` how its selection is compiled;
* `ObjectType` is a type with its fields, `Schema` the types with the one that queries start at.
-/

namespace QueryProjection

structure FieldDefinition where
  name : String
  description : Option String
  /-- The parameter for the object that the field is read of. -/
  context : Parameter
  /-- What the field resolves to, over its context and its arguments. -/
  resolve : Expr
  /-- The parameter for the record of the field's arguments. -/
  argumentsParameter : Parameter
  arguments : List (String × ArgumentDefinition)
  services : List String
  extensions : List Extension

/-- How the selection of a field is compiled. -/
inductive FieldShape where
  /-- A plain value, which has no selection. -/
  | leaf
  | object
  | list
deriving DecidableEq, Repr

namespace FieldDefinition

def requiresService (field : FieldDefinition) : Bool :=
  !field.services.isEmpty

def shape (field : FieldDefinition) : FieldShape :=
  match field.resolve.ty with
  | .object _ => .object
  | .record _ => .object
  | .list inner => if inner.isComposite then .list else .leaf
  | .map inner => if inner.isComposite then .list else .leaf
  | _ => .leaf

/-- The object type that a selection of the field is bound against. -/
def outputType? (field : FieldDefinition) : Option String :=
  match field.resolve.ty with
  | .object name => some name
  | .list inner => inner.objectName?
  | .map inner => inner.objectName?
  | _ => none

end FieldDefinition

structure ObjectType where
  name : String
  description : Option String
  /-- The parameter for an object of the type. -/
  context : Parameter
  fields : List (String × FieldDefinition)

def ObjectType.field? (type : ObjectType) (name : String) : Option FieldDefinition :=
  Assoc.find? name type.fields

/-- The object types of a query language, by name. -/
structure Schema where
  queryType : String
  /-- The parameter for the data of the query. -/
  context : Parameter
  types : List (String × ObjectType)
  /-- The first number that no parameter of the schema has. -/
  next : Nat

def Schema.objectType? (schema : Schema) (name : String) : Option ObjectType :=
  Assoc.find? name schema.types

end QueryProjection
