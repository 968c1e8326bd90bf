import QueryProjection.Document.Grammar

/-!
# Binding a document

A written document is bound against a schema: one operation is chosen, and every field in it and in
the fragments is looked up in the type it is selected from.

* `BindError` is why that fails, with its message and the place it points at;
* `Binder.bindSelections` binds a selection set;
* `Document.parse` reads and binds a text.
-/

namespace QueryProjection

/-- Why a text is not a document of the schema. -/
inductive BindError where
  | grammar
  | nesting
  /-- An operation without a name, at this place, is not the only operation. -/
  | multipleOperations (location : Location)
  | operationDefinedTwice (name : String) (location : Location)
  | fragmentDefinedTwice (name : String) (location : Location)
  | noOperation
  | unknownOperation (name : String)
  | missingOperationName
  | unsupportedOperation (kind : OperationKind) (location : Location)
  | unknownType (name : String) (location : Location)
  | unknownField (container name : String) (location : Location)
  | cannotHaveSelectionSet (name : String) (location : Location)
deriving DecidableEq, Repr

namespace BindError

def message : BindError → String
  | .grammar => "the text is not a document"
  | .nesting => "recursion limit exceeded."
  | .multipleOperations _ => "document contains multiple operations"
  | .operationDefinedTwice name _ => "operation " ++ name ++ " is defined twice"
  | .fragmentDefinedTwice name _ => "fragment " ++ name ++ " is defined twice"
  | .noOperation => "document does not contain an operation"
  | .unknownOperation name => "Unknown operation named '" ++ name ++ "'"
  | .missingOperationName =>
    "The document contains multiple operations, an operation name is required"
  | .unsupportedOperation kind _ => "Only queries are supported, found a " ++ kind.text
  | .unknownType name _ => "Unknown type named '" ++ name ++ "'"
  | .unknownField container name _ =>
    container ++ " does not have a field named '" ++ name ++ "'"
  | .cannotHaveSelectionSet name _ =>
    "Field '" ++ name ++ "' cannot have a selection set, it's a leaf"

def location? : BindError → Option Location
  | .grammar => none
  | .nesting => none
  | .multipleOperations location => some location
  | .operationDefinedTwice _ location => some location
  | .fragmentDefinedTwice _ location => some location
  | .noOperation => none
  | .unknownOperation _ => none
  | .missingOperationName => none
  | .unsupportedOperation _ location => some location
  | .unknownType _ location => some location
  | .unknownField _ _ location => some location
  | .cannotHaveSelectionSet _ location => some location

end BindError

namespace Binder

/-! ## Definitions -/

structure Definitions where
  operations : List WrittenOperation := []
  fragments : List WrittenFragment := []

/-- Adds a definition.  Names are distinct, and an operation without a name stands alone. -/
def Definitions.add (definitions : Definitions) :
    WrittenDefinition → Except BindError Definitions
  | .operation operation =>
    let extended := { definitions with operations := definitions.operations ++ [operation] }
    match operation.name, definitions.operations with
    | none, [] => .ok extended
    | none, _ :: _ => .error (.multipleOperations operation.location)
    | some name, others =>
      match others.find? fun other => other.name.isNone with
      | some anonymous => .error (.multipleOperations anonymous.location)
      | none =>
        if others.any fun other => other.name = some name then
          .error (.operationDefinedTwice name operation.location)
        else .ok extended
  | .fragment fragment =>
    if definitions.fragments.any fun other => other.name = fragment.name then
      .error (.fragmentDefinedTwice fragment.name fragment.location)
    else .ok { definitions with fragments := definitions.fragments ++ [fragment] }

def Definitions.ofList (written : List WrittenDefinition) : Except BindError Definitions := do
  let definitions ← written.foldlM Definitions.add {}
  if definitions.operations.isEmpty then throw .noOperation
  return definitions

/-- The operation of this name, or the only one if no name is given. -/
def chooseOperation (operations : List WrittenOperation) (name : Option String) :
    Except BindError WrittenOperation :=
  match name with
  | some name =>
    match operations.find? fun operation => operation.name = some name with
    | some operation => .ok operation
    | none => .error (.unknownOperation name)
  | none =>
    match operations with
    | [operation] => .ok operation
    | [] => .error .noOperation
    | _ => .error .missingOperationName

/-! ## Selections -/

def objectType (schema : Schema) (name : String) (location : Location) :
    Except BindError ObjectType :=
  match schema.objectType? name with
  | some type => .ok type
  | none => .error (.unknownType name location)

/-- The type that the selection set of a field is bound against. -/
def outputType (schema : Schema) (definition : FieldDefinition) (name : String)
    (location : Location) : Except BindError ObjectType :=
  match definition.outputType? with
  | some output => objectType schema output location
  | none => .error (.cannotHaveSelectionSet name location)

mutual

def bindSelection (schema : Schema) (parent : ObjectType) :
    WrittenSelection → Except BindError Selection
  | .field location key name arguments directives selections => do
    match parent.field? name with
    | none => throw (.unknownField parent.name name location)
    | some definition =>
      let selections ←
        if selections.isEmpty then pure []
        else do
          let type ← outputType schema definition name location
          bindSelections schema type selections
      return .field ⟨key.getD name, definition, arguments⟩ directives selections
  | .spread fragment directives => return .spread fragment directives
  | .inline none directives selections => do
    return .inline none directives (← bindSelections schema parent selections)
  | .inline (some (location, name)) directives selections => do
    let type ← objectType schema name location
    return .inline (some type.name) directives (← bindSelections schema type selections)

def bindSelections (schema : Schema) (parent : ObjectType) :
    List WrittenSelection → Except BindError (List Selection)
  | [] => return []
  | selection :: rest => do
    let bound ← bindSelection schema parent selection
    return bound :: (← bindSelections schema parent rest)

end

def bindFragment (schema : Schema) (fragment : WrittenFragment) :
    Except BindError (String × Fragment) := do
  let type ← objectType schema fragment.typeCondition fragment.typeLocation
  let selections ← bindSelections schema type fragment.selections
  return (fragment.name, ⟨fragment.name, type.name, selections⟩)

def bind (schema : Schema) (definitions : Definitions) (name : Option String) :
    Except BindError Document := do
  let operation ← chooseOperation definitions.operations name
  if operation.kind ≠ .query then
    throw (.unsupportedOperation operation.kind operation.location)
  let root ← objectType schema schema.queryType operation.location
  let selections ← bindSelections schema root operation.selections
  let fragments ← definitions.fragments.mapM (bindFragment schema)
  return { name := operation.name, declarations := operation.declarations, selections, fragments }

end Binder

/-- Reads a text and binds the operation of this name against a schema. -/
def Document.parse (schema : Schema) (text : String) (operation : Option String) :
    Except BindError Document := do
  match Grammar.parse text with
  | none => throw .grammar
  | some (_, some .number) => throw .grammar
  | some (_, some .nesting) => throw .nesting
  | some (written, none) =>
    let definitions ← Binder.Definitions.ofList written
    Binder.bind schema definitions operation

end QueryProjection
