import QueryProjection.Schema.Basic
import QueryProjection.Text.LowerCase

/-!
# Building a schema

A schema is built from declarations of its types.

* `FieldDeclaration` and `TypeDeclaration` are what is declared.  The arguments and the extensions
  of a field are attached to it one after the other, and an extension declares the arguments that it
  reads where it is attached.  If two arguments have the same name, the last one counts, in the
  place of the first;
* `Schema.build` makes the context parameters, the argument parameters and the fields.  The type
  that queries start at always exists and comes first, a type that is declared twice has the fields
  of both declarations, and every type has a field `__typename`.
-/

namespace QueryProjection

/-- What is attached to a field while it is declared. -/
inductive Attachment where
  | argument (definition : ArgumentDefinition)
  | extension (x : Extension)

namespace Attachment

def arguments : Attachment → List ArgumentDefinition
  | .argument definition => [definition]
  | .extension x => x.arguments

def extension? : Attachment → Option Extension
  | .argument _ => none
  | .extension x => some x

end Attachment

structure FieldDeclaration where
  name : String
  description : Option String := none
  services : List String := []
  /-- The arguments and the extensions of the field, in the order in which they were attached. -/
  attached : List Attachment := []
  /-- What the field resolves to, given its context and the parameter of its arguments. -/
  resolve : (context arguments : Parameter) → Fresh Expr

namespace FieldDeclaration

def member (name : String) (ty : Ty) : FieldDeclaration where
  name
  resolve context _ := return .member (.parameter context) name ty

def typename (type : String) : FieldDeclaration where
  name := "__typename"
  resolve _ _ := Expr.ofValue (.string type) .string

def extensions (declaration : FieldDeclaration) : List Extension :=
  declaration.attached.filterMap Attachment.extension?

/-- The arguments of the field and of its extensions, in order. -/
def arguments (declaration : FieldDeclaration) : List ArgumentDefinition :=
  declaration.attached.flatMap Attachment.arguments

def allArguments (declaration : FieldDeclaration) : List (String × ArgumentDefinition) :=
  Assoc.ofList (declaration.arguments.map fun argument => (argument.name, argument))

/-- The field that is declared, in a type with this context. -/
def build (declaration : FieldDeclaration) (context : Parameter) : Fresh FieldDefinition := do
  let arguments := declaration.allArguments
  let shape : Shape := arguments.map fun argument => (argument.1, argument.2.ty)
  let parameter ← Parameter.fresh ("args_" ++ declaration.name) (.record shape)
  let resolve ← declaration.resolve context parameter
  return {
    name := declaration.name
    description := declaration.description
    context
    resolve
    argumentsParameter := parameter
    arguments
    services := declaration.services
    extensions := declaration.extensions }

end FieldDeclaration

structure TypeDeclaration where
  name : String
  description : Option String := none
  fields : List FieldDeclaration := []

namespace TypeDeclaration

/-- The declaration continued by another one of the same type. -/
def continueWith (first second : TypeDeclaration) : TypeDeclaration where
  name := first.name
  description := second.description.orElse fun _ => first.description
  fields := first.fields ++ second.fields

def addTo (declaration : TypeDeclaration) : List TypeDeclaration → List TypeDeclaration
  | [] => [declaration]
  | other :: rest =>
    if other.name = declaration.name then other.continueWith declaration :: rest
    else other :: declaration.addTo rest

def buildFields (context : Parameter) :
    List FieldDeclaration → Fresh (List (String × FieldDefinition))
  | [] => return []
  | declaration :: rest => do
    let field ← declaration.build context
    return (field.name, field) :: (← buildFields context rest)

/-- The name of the context parameter of a type. -/
def contextName (query type : String) : String :=
  if type = query then "ctx" else Text.lowerFirst type

def build (query : String) (declaration : TypeDeclaration) : Fresh ObjectType := do
  let context ← Parameter.fresh (contextName query declaration.name) (.object declaration.name)
  let fields ← buildFields context (declaration.fields ++ [.typename declaration.name])
  return {
    name := declaration.name
    description := declaration.description
    context
    fields := Assoc.ofList fields }

def buildAll (query : String) : List TypeDeclaration → Fresh (List (String × ObjectType))
  | [] => return []
  | declaration :: rest => do
    let type ← declaration.build query
    return (type.name, type) :: (← buildAll query rest)

end TypeDeclaration

namespace Schema

/-- The declarations with one of the query type in front, and each type declared once. -/
def mergeDeclarations (query : String) (declarations : List TypeDeclaration) :
    List TypeDeclaration :=
  declarations.foldl (fun merged declaration => declaration.addTo merged) [⟨query, none, []⟩]

/-- The schema of the declared types, with queries starting at the type `query`. -/
def build (query : String) (declarations : List TypeDeclaration) : Fresh Schema := do
  let types ← TypeDeclaration.buildAll query (mergeDeclarations query declarations)
  let context ←
    match Assoc.find? query types with
    | some type => pure type.context
    | none => Parameter.fresh "ctx" (.object query)
  return { queryType := query, context, types, next := ← get }

end Schema
end QueryProjection
