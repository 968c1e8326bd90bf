import QueryProjection.Compile.Root

/-!
# Executing an operation

Each field of the operation is compiled for the data pass.  If that leaves out fields that need a
service, the data is fetched and the field is compiled again, over what was fetched; otherwise the
field is compiled once more for the full pass.  A field that fails is null in the response and
leaves an error there, and the other fields are not affected.

* `FieldError` is an error of the response, `Response` the response and `Response.toJson` its JSON;
* `Executor.executeRoot` runs one field of the operation, `Executor.execute` the whole of it.
-/

namespace QueryProjection

structure FieldError where
  message : String
  path : FieldPath
deriving DecidableEq, Repr

def FieldError.ofCompileError (e : CompileError) : FieldError :=
  ⟨e.message, e.path⟩

/-- The values of the fields of an operation, and the errors of those that failed. -/
structure Response where
  data : List (String × Value) := []
  errors : List FieldError := []

namespace Response

def errorJson (e : FieldError) : Json :=
  .object [("message", .string e.message), ("path", .array (e.path.keys.map Json.string))]

/-- The JSON of a response.  Errors are mentioned only if there are any. -/
def toJson (response : Response) : Run EvaluationError Json := do
  let data ← Value.toJsonMembers response.data
  let errors :=
    if response.errors.isEmpty then [] else [("errors", .array (response.errors.map errorJson))]
  return .object (("data", .object data) :: errors)

end Response

/-- What stays the same while an operation is executed. -/
structure Executor where
  schema : Schema
  services : Provider
  settings : Settings := {}

abbrev Execute := ExceptT FieldError (StateM Memory)

namespace Executor

/-- Compiles, numbering new parameters from `next` on. -/
def compiling {α : Type} (next : Nat) (x : Compile α) : Execute α := do
  let memory ← get
  let (result, memory) := x.run.run { memory with next }
  set memory
  match result with
  | .ok a => return a
  | .error e => throw (.ofCompileError e)

/-- Evaluates an expression and forces the value, so that failures of services show here. -/
def evaluate (executor : Executor) (path : FieldPath) (env : Environment) (e : Expr) :
    Execute Value := do
  let run : Run EvaluationError Value := do (← e.valueOf executor.services env).materialize
  modify fun memory => { memory with events := memory.events ++ run.events }
  match run.result with
  | .ok value => return value
  | .error e => throw ⟨e.message, path⟩

/-- The full pass of a field without anything fetched. -/
def runDirect (executor : Executor) (compiler : Compiler) (root : RootField) (data : Value) :
    Execute Value := do
  let schema := executor.schema
  match ← compiling schema.next (compiler.compileRoot schema root .full .schema) with
  | none => return .null
  | some compiled =>
    let env := compiled.constants.environment.bind schema.context data
    executor.evaluate (.root root.responseKey) env compiled.expression

/-- The full pass of a field over what the data pass has fetched. -/
def runFetched (executor : Executor) (compiler : Compiler) (root : RootField) (fetch : Compiled)
    (data : Value) : Execute Value := do
  let schema := executor.schema
  let path := FieldPath.root root.responseKey
  let env := fetch.constants.environment.bind schema.context data
  let fetched ← executor.evaluate path env fetch.expression
  let parameter : Parameter := ⟨schema.next, "data", fetch.expression.ty⟩
  let source := RootSource.materialized parameter
  match ← compiling (schema.next + 1) (compiler.compileRoot schema root .full source) with
  | none => return .null
  | some compiled =>
    executor.evaluate path (compiled.constants.environment.bind parameter fetched)
      compiled.expression

/-- Executes one field of the operation.  Each pass numbers its parameters from the first number
that the schema leaves unused. -/
def executeRoot (executor : Executor) (compiler : Compiler) (root : RootField) (data : Value) :
    Execute Value := do
  let schema := executor.schema
  match ← compiling schema.next (compiler.compileRoot schema root .dataOnly .schema) with
  | some fetch =>
    if fetch.deferredServices then executor.runFetched compiler root fetch data
    else executor.runDirect compiler root data
  | none => executor.runDirect compiler root data

def executeRoots (executor : Executor) (compiler : Compiler) (data : Value) :
    List RootField → Memory → Response × Memory
  | [], memory => ({}, memory)
  | root :: rest, memory =>
    let (result, memory) := (executor.executeRoot compiler root data).run.run memory
    let (response, memory) := executor.executeRoots compiler data rest memory
    match result with
    | .ok value => ({ response with data := (root.responseKey, value) :: response.data }, memory)
    | .error e =>
      ({ data := (root.responseKey, .null) :: response.data, errors := e :: response.errors },
        memory)

/-- Executes an operation over data, and gives the response with the events on the way. -/
def execute (executor : Executor) (document : Document) (supplied : Variables) (data : Value) :
    Response × List Event :=
  let expansion := Expansion.ofDocument document supplied
  let compiler : Compiler := ⟨expansion.values, executor.settings⟩
  match Compiler.rootFields expansion document with
  | .error e => ({ errors := [.ofCompileError e] }, [])
  | .ok roots =>
    let (response, memory) :=
      executor.executeRoots compiler data roots { next := executor.schema.next }
    (response, memory.events)

end Executor
end QueryProjection
