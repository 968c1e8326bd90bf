import QueryProjection.Compile.Field

/-!
# Compiling an operation

* `Compiler.rootFields` are the fields of the operation, with those of the same response key merged;
* `Compiler.compileRoot` compiles one of them, against the schema or over fetched data;
* `Compiler.compileAlone` compiles a single field in a context that the caller provides.
-/

namespace QueryProjection

/-- A field of the operation, with the key it has in the response. -/
structure RootField where
  responseKey : String
  field : Expanded

/-- What a field of the operation is compiled against. -/
inductive RootSource where
  | schema
  /-- What the data pass has fetched for the field, bound to this parameter. -/
  | materialized (data : Parameter)

namespace Compiler

/-- Adds a field to those that are there.  Of fields with the same response key, up to case, the
last one counts, at the place and with the spelling of the first. -/
def mergeRoot (field : Expanded) : List RootField → List RootField
  | [] => [⟨field.field.responseKey, field⟩]
  | root :: rest =>
    if Text.sameIgnoringCase root.responseKey field.field.responseKey then
      { root with field } :: rest
    else root :: mergeRoot field rest

def rootFields (expansion : Expansion) (document : Document) :
    Except CompileError (List RootField) :=
  match expansion.expandAll [] document.selections with
  | .error e => .error (e.at .operation)
  | .ok fields => .ok (fields.foldl (fun roots field => mergeRoot field roots) [])

/-- Compiles a field of the operation; none if it is left to the full pass. -/
def compileRoot (compiler : Compiler) (schema : Schema) (root : RootField) (mode : Mode)
    (source : RootSource) : Compile (Option Compiled) := do
  let scope : Scope := {
    mode
    contextChanged := false
    isRoot := true
    path := .root root.responseKey
    parameters := [schema.context]
    depth := 1 }
  match source with
  | .schema =>
    if defers mode root.field.field then return none
    else return some (← compiler.compileExpanded (.parameter schema.context) scope root.field)
  | .materialized data =>
    let scope := { scope.bind data with contextChanged := true }
    let select := fun context scope => compiler.compileSelection context scope root.field.selection
    return some (← compileResolved root.field.field select
      { expression := .parameter data, materialized := true, arguments := none } scope)

/-- Compiles a single field in a context over `root` and other parameters of the caller; none if it
is left to the full pass.  With `contextChanged` the context may be a record of fetched data. -/
def compileAlone (compiler : Compiler) (field : Expanded) (context : Expr) (root : Parameter)
    (mode : Mode) (contextChanged : Bool) : Compile (Option Compiled) := do
  let scope : Scope := {
    mode
    contextChanged
    isRoot := context.asParameter? = some root
    path := .root field.field.responseKey
    parameters := root :: context.freeParameters
    depth := 1 }
  if defers mode field.field then return none
  else
    let select := fun context scope => compiler.compileSelection context scope field.selection
    return some (← compiler.compileField field.field select context scope)

end Compiler
end QueryProjection
