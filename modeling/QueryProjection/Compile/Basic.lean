import QueryProjection.Constants
import QueryProjection.Expansion
import QueryProjection.FetchedKeys
import QueryProjection.Settings.Basic

/-!
# Compiling: what is made, and what is remembered

A query is compiled in up to two passes.  The data pass leaves out every field that needs a service
and fetches instead the members that the service will read.  The full pass then runs over what the
data pass has fetched, reads plain fields back from it, and evaluates the service fields.

* `Compiled` is a compiled field;
* `Memory` is what compiling one field leaves for the next: above all the keys under which the data
  pass fetched the dependencies of each service field;
* `Compile` is a computation that may fail and keeps the memory when it does;
* `Scope` is where in the selection a field is compiled.
-/

namespace QueryProjection

structure Compiled where
  expression : Expr
  /-- The values that the expression's parameters for arguments have to be bound to. -/
  constants : Constants
  deferredServices : Bool

/-- What compiling leaves behind. -/
structure Memory extends Journal where
  fetched : FetchedKeys := .empty

abbrev Compile := ExceptT CompileError (StateM Memory)

namespace Compile

def ofFresh {α : Type} (x : Fresh α) : Compile α := do
  let memory ← get
  let (a, next) := x.run memory.next
  set { memory with next }
  return a

def ofRun {α : Type} (run : Run CompileError α) : Compile α := do
  modify fun memory => { memory with events := memory.events ++ run.events }
  match run.result with
  | .ok a => return a
  | .error e => throw e

def ofExcept {α : Type} (result : Except CompileError α) : Compile α :=
  match result with
  | .ok a => return a
  | .error e => throw e

def ofHook {α : Type} (path : FieldPath) (extension : String) (hook : Hook α) : Compile α := do
  let memory ← get
  let (result, journal) := hook.run.run memory.toJournal
  set { memory with toJournal := journal }
  match result with
  | .ok a => return a
  | .error message => throw (.extensionFailed path extension message)

/-- Remembers the key under which the member of a field's context was fetched. -/
def rememberFetched (path : FieldPath) (name key : String) : Compile Unit :=
  modify fun memory => { memory with fetched := memory.fetched.insert path name key }

end Compile

/-- Where in the selection a field is compiled. -/
structure Scope where
  mode : Mode
  /-- Whether the context may be a record of fetched data. -/
  contextChanged : Bool
  isRoot : Bool
  path : FieldPath
  parameters : List Parameter
  depth : Nat

namespace Scope

def field (scope : Scope) (key : String) : Scope :=
  { scope with isRoot := false, path := scope.path.child key, depth := scope.depth + 1 }

def bind (scope : Scope) (p : Parameter) : Scope :=
  { scope with parameters := p :: scope.parameters }

end Scope

/-- What a selection is compiled to: its fields, and the rest as in `Compiled`. -/
structure CompiledSelection where
  fields : SelectionMap := {}
  constants : Constants := {}
  deferredServices : Bool := false

end QueryProjection
