import QueryProjection.Compile.Basic
import QueryProjection.Expr.Dependency

/-!
# Resolving a field

The expression that a field evaluates to before its own selection is applied.  Over fetched data a
plain field is read back from the record.  Otherwise the field's resolver is put into its context,
with the arguments bound to a parameter of their own.

* `Resolved` is the expression;
* `Resolve.bindArguments` gives the declared arguments their values;
* `Resolve.substituteDependencies` makes the resolver of a service field read what was fetched for
  it;
* `Resolve.resolve` puts these together.
-/

namespace QueryProjection

/-- The expression of a field before its selection is applied. -/
structure Resolved where
  expression : Expr
  materialized : Bool
  arguments : Option (Parameter × Value)

namespace Resolve

/-- The value of one declared argument: the given value, or else the default, or else null. -/
def argumentValue (field : SelectedField) (given : VariableValues) (path : FieldPath)
    (definition : ArgumentDefinition) : Except CompileError Value := do
  let written ←
    match Assoc.find? definition.name field.arguments with
    | none => pure none
    | some argument =>
      match given.resolve argument with
      | .ok value => pure (some value)
      | .error name => throw (.missingVariable path name)
  let value := (written.orElse fun _ => definition.default).getD .null
  if definition.required && value.isNull then throw (.missingArgument path definition.name)
  return value

def argumentValues (field : SelectedField) (given : VariableValues) (path : FieldPath) :
    List (String × ArgumentDefinition) → Except CompileError (List (String × Value))
  | [] => return []
  | (name, definition) :: rest => do
    let value ← argumentValue field given path definition
    return (name, value) :: (← argumentValues field given path rest)

/-- Gives the arguments of a field their values and binds them to a parameter of their own, so that
two selections of the same field never share their arguments.  A field without arguments has no
parameter for them. -/
def bindArguments (field : SelectedField) (given : VariableValues) (path : FieldPath) :
    Compile (Option (Parameter × Value)) := do
  let declared := field.definition.arguments
  match field.arguments.find? fun argument => !Assoc.contains argument.1 declared with
  | some (name, _) => throw (.unknownArgument path name)
  | none =>
    if declared.isEmpty then return none
    let values ← Compile.ofExcept (argumentValues field given path declared)
    let template := field.definition.argumentsParameter
    let parameter ← Compile.ofFresh (Parameter.fresh template.name template.ty)
    return some (parameter, .object values)

/-- Puts the fetched members in place of the chains of a resolver, one after the other. -/
def substituteChains (keys : List (String × String)) (record : Expr) (path : FieldPath) :
    Expr.Dependencies → Expr → Except CompileError Expr
  | [], resolver => return resolver
  | (name, dependency) :: rest, resolver => do
    let key := (Assoc.find? name keys).getD name
    match record.recordMember? key with
    | none => throw (.missingDependency path name)
    | some member =>
      substituteChains keys record path rest (resolver.substitute dependency.chain member)

/-- The resolver of a service field, reading from a record of fetched data.  Of two chains that
start with the same member only the last was fetched, so a resolver that reads both is refused. -/
def substituteDependencies (definition : FieldDefinition) (keys : List (String × String))
    (record : Expr) (path : FieldPath) : Except CompileError Expr := do
  let tracked := Tracked.identity definition.context
  let chains ← definition.resolve.dependencies tracked path
  let resolver ← substituteChains keys record path chains definition.resolve
  match ← resolver.dependencies tracked path with
  | [] => return resolver
  | (name, _) :: _ => throw (.missingDependency path name)

/-- The resolver of a field, in a context.  Over fetched data the resolver of a service field reads
what was fetched for it. -/
def resolverIn (field : SelectedField) (context : Expr) (scope : Scope) : Compile Expr := do
  let definition := field.definition
  if scope.contextChanged && definition.requiresService && context.ty.shape?.isSome then
    let keys := (← get).fetched.get scope.path
    Compile.ofExcept (substituteDependencies definition keys context scope.path)
  else return definition.resolve

/-- The first parameter of an expression that neither the scope nor the arguments bind. -/
def dangling? (e : Expr) (scope : Scope) (arguments : Option Parameter) : Option Parameter :=
  e.freeParameters.find? fun p => !scope.parameters.contains p && arguments != some p

def build (field : SelectedField) (given : VariableValues) (context : Expr) (scope : Scope) :
    Compile Resolved := do
  let arguments ← bindArguments field given scope.path
  let resolver ← resolverIn field context scope
  let placed := resolver.replace (.identity field.definition.context) context
  let expression :=
    match arguments with
    | some (p, _) =>
      placed.replace (.identity field.definition.argumentsParameter) (.parameter p)
    | none => placed
  match dangling? expression scope (arguments.map Prod.fst) with
  | some p => throw (.danglingContext scope.path p.name)
  | none => return { expression, materialized := false, arguments }

def resolve (field : SelectedField) (given : VariableValues) (context : Expr)
    (scope : Scope) : Compile Resolved := do
  if scope.contextChanged && !field.definition.requiresService then
    match context.recordMember? field.responseKey with
    | some expression => return { expression, materialized := true, arguments := none }
    | none => build field given context scope
  else build field given context scope

end Resolve
end QueryProjection
