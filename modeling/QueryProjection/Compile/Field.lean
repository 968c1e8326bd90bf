import QueryProjection.Compile.Resolve

/-!
# Compiling a field

A field is resolved, and the selection below it is compiled into a projection of what it resolves
to.

The functions of the first part compile one field and are handed `select`, which compiles the
selection below the field in a context and a scope that they choose.  The second part ties the knot:
`Compiler.compileExpanded` compiles a field of the expanded tree by recursion on the tree.
-/

namespace QueryProjection

/-- What stays the same while an operation is compiled. -/
structure Compiler where
  values : VariableValues
  settings : Settings

namespace Compiler

/-- Compiles the selection below a field, in a context and a scope. -/
abbrev Select := Expr → Scope → Compile CompiledSelection

/-! ## One field -/

def placeholderName (field : SelectedField) (ty : Ty) : String :=
  match ty.objectName? with
  | some name => "p_" ++ name
  | none => "p_" ++ field.responseKey

/-- Runs the first hooks of extensions, in order. -/
def runPreSelection (context : HookContext) :
    List Extension → PreSelection → Compile PreSelection
  | [], input => return input
  | extension :: rest, input => do
    let input ← Compile.ofHook context.path extension.name (extension.preSelection context input)
    runPreSelection context rest input

/-- Runs the second hooks of extensions, in order. -/
def runPostSelection (context : HookContext) :
    List Extension → PostSelection → Compile PostSelection
  | [], input => return input
  | extension :: rest, input => do
    let input ← Compile.ofHook context.path extension.name (extension.postSelection context input)
    runPostSelection context rest input

/-- Compiles a field that resolves to an object: the selection becomes a record, read from a
placeholder for the object.  Without selected fields the object itself is the result. -/
def compileObject (field : SelectedField) (select : Select) (resolved : Resolved) (scope : Scope)
    (constants : Constants) : Compile Compiled := do
  let ty := resolved.expression.ty
  if !ty.isComposite then
    throw (.shapeMismatch scope.path "an object" ty.text)
  let element ← Compile.ofFresh (Parameter.fresh (placeholderName field ty) ty)
  let inner :=
    { scope.bind element with contextChanged := scope.contextChanged || resolved.materialized }
  let selection ← select (.parameter element) inner
  return {
    expression :=
      if selection.fields.isEmpty then resolved.expression
      else .projectOne resolved.expression element selection.fields.toRecord
    constants := constants.extend selection.constants
    deferredServices := selection.deferredServices }

/-- Adds the members that the extensions read of each element, unless fields of these names are
selected. -/
def addElementDependencies (context : Expr) :
    Expr.Dependencies → SelectionMap → SelectionMap
  | [], fields => fields
  | (name, dependency) :: rest, fields =>
    let expression := dependency.chain.replace (.identity dependency.root) context
    addElementDependencies context rest (fields.insertIfAbsent name expression).2

/-- Compiles a field that resolves to a collection: the selection becomes a record for each element,
after the extensions have had their say.  Without selected fields the collection itself is the
result.  Below the fields of the operation, lists are forced. -/
def compileList (field : SelectedField) (select : Select) (resolved : Resolved) (scope : Scope)
    (constants : Constants) : Compile Compiled := do
  match resolved.expression.ty.element? with
  | none => throw (.shapeMismatch scope.path "a list" resolved.expression.ty.text)
  | some elementTy =>
    let element ← Compile.ofFresh (Parameter.fresh (placeholderName field elementTy) elementTy)
    let extensions := field.definition.extensions
    let hooks : HookContext := {
      mode := scope.mode
      materialized := resolved.materialized
      path := scope.path
      arguments := resolved.arguments.map Prod.fst
      argumentValues := resolved.arguments.map Prod.snd }
    let pre ← runPreSelection hooks extensions
      { collection := resolved.expression, element, elementContext := .parameter element }
    let inner := { scope.bind pre.element with
      contextChanged := scope.contextChanged || resolved.materialized || pre.element != element }
    let selection ← select pre.elementContext inner
    let constants := constants.extend selection.constants
    let fields ←
      if scope.mode = .dataOnly && !extensions.isEmpty && !selection.fields.isEmpty then do
        let read ← Compile.ofExcept (pre.collection.dependencies (.type element.ty) scope.path)
        pure (addElementDependencies pre.elementContext read selection.fields)
      else pure selection.fields
    if fields.isEmpty then
      return {
        expression := pre.collection
        constants
        deferredServices := selection.deferredServices }
    else
      let post ← runPostSelection hooks extensions.reverse
        { selection := fields, element := pre.element }
      let projected := Expr.projectEach pre.collection post.element post.selection.toRecord
      let forced := scope.mode = .full && !scope.isRoot && !projected.ty.isMap
      return {
        expression := if forced then .materialize projected else projected
        constants
        deferredServices := selection.deferredServices }

/-- Applies the selection of a field to what the field resolves to. -/
def compileResolved (field : SelectedField) (select : Select) (resolved : Resolved)
    (scope : Scope) : Compile Compiled :=
  let (constants, scope) : Constants × Scope :=
    match resolved.arguments with
    | some (p, value) => (Constants.insert {} p value, scope.bind p)
    | none => ({}, scope)
  match field.definition.shape with
  | .leaf => return { expression := resolved.expression, constants, deferredServices := false }
  | .object => compileObject field select resolved scope constants
  | .list => compileList field select resolved scope constants

/-- Compiles a field in a context, unless it is nested too deep. -/
def compileField (compiler : Compiler) (field : SelectedField) (select : Select) (context : Expr)
    (scope : Scope) : Compile Compiled := do
  match compiler.settings.maxDepth with
  | some limit => if limit < scope.depth then throw (.depthLimit scope.path limit)
  | none => pure ()
  let resolved ← Resolve.resolve field compiler.values context scope
  compileResolved field select resolved scope

/-- Compiles a field that came by `origin`.  A field of a fragment is compiled against a context of
the fragment's own type and then moved to where the fragment is spread, except over fetched data:
the record there has every member that the fragment selects. -/
def compileFrom (compiler : Compiler) (field : SelectedField) (origin : Origin) (select : Select)
    (context : Expr) (scope : Scope) : Compile Compiled :=
  match origin with
  | .direct => compiler.compileField field select context scope
  | .fragment name typeCondition =>
    if context.ty.shape?.isSome then compiler.compileField field select context scope
    else do
      let own ← Compile.ofFresh (Parameter.fresh ("fragment_" ++ name) (.object typeCondition))
      let compiled ← compiler.compileField field select (.parameter own) (scope.bind own)
      let expression ← Compile.ofRun
        (compiled.expression.rebase compiler.settings.typeMatching own context scope.parameters
          scope.path)
      return { compiled with expression }

/-! ## A selection -/

inductive Contribution where
  /-- The field, under its response key. -/
  | selected (key : String) (compiled : Compiled)
  /-- What has to be fetched for the service field at this path. -/
  | deferred (path : FieldPath) (dependencies : List (String × Expr))

def serviceDependencies (definition : FieldDefinition) (context : Expr) (path : FieldPath) :
    Except CompileError (List (String × Expr)) := do
  let chains ← definition.resolve.dependencies (.identity definition.context) path
  return chains.map fun (name, dependency) =>
    (name, dependency.chain.replace (.identity dependency.root) context)

/-- The selection with the contribution of one more field; the members to be fetched are left for
later. -/
def CompiledSelection.add (selection : CompiledSelection) :
    Contribution → CompiledSelection
  | .selected key compiled => {
      fields := selection.fields.insert key compiled.expression
      constants := selection.constants.extend compiled.constants
      deferredServices := selection.deferredServices || compiled.deferredServices }
  | .deferred _ _ => { selection with deferredServices := true }

/-- The members to be fetched, with the path of the field that needs them. -/
def Contribution.dependencies : Contribution → List (FieldPath × String × Expr)
  | .selected _ _ => []
  | .deferred path dependencies => dependencies.map fun (name, e) => (path, name, e)

/-- Adds members to be fetched and remembers where they went. -/
def fetchAll : List (FieldPath × String × Expr) → SelectionMap → Compile SelectionMap
  | [], fields => return fields
  | (path, name, expression) :: rest, fields => do
    let (key, fields) := fields.insertFetched name expression
    Compile.rememberFetched path name key
    fetchAll rest fields

/-- Puts a selection together.  Selected fields keep their keys, and what has to be fetched goes
wherever it is not in the way. -/
def assemble (contributions : List Contribution) : Compile CompiledSelection := do
  let selection := contributions.foldl CompiledSelection.add {}
  let fields ← fetchAll (contributions.flatMap Contribution.dependencies) selection.fields
  return { selection with fields }

/-- Whether a field is left to the full pass. -/
def defers (mode : Mode) (field : SelectedField) : Bool :=
  mode = .dataOnly && field.definition.requiresService

mutual

/-- Compiles a field of the expanded tree in a context. -/
def compileExpanded (compiler : Compiler) (context : Expr) (scope : Scope) :
    Expanded → Compile Compiled
  | .mk field origin _ selection =>
    compiler.compileFrom field origin
      (fun context scope => compileSelection compiler context scope (selection ())) context scope

def compileSelection (compiler : Compiler) (context : Expr) (scope : Scope) :
    ExpandedSelection → Compile CompiledSelection
  | .failed error => throw (error.at scope.path)
  | .selects fields => do
    let contributions ← compileFields compiler context scope fields
    assemble contributions

def compileFields (compiler : Compiler) (context : Expr) (scope : Scope) :
    List Expanded → Compile (List Contribution)
  | [] => return []
  | field :: rest => do
    let key := field.field.responseKey
    let scope' := scope.field key
    let contribution ←
      if defers scope.mode field.field then
        let dependencies ←
          Compile.ofExcept (serviceDependencies field.field.definition context scope'.path)
        pure (Contribution.deferred scope'.path dependencies)
      else
        let compiled ← compileExpanded compiler context scope' field
        pure (Contribution.selected key compiled)
    return contribution :: (← compileFields compiler context scope rest)

end

end Compiler
end QueryProjection
