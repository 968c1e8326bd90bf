import QueryProjection.Expr.Replace
import QueryProjection.Schema.Argument
import QueryProjection.SelectionMap

/-!
# Extensions

An extension is attached to a list field.  It can change the collection before the selection of its
elements is compiled, and the selection afterwards.

* `Mode` says which pass is being compiled;
* `HookContext` is what a hook knows about the field;
* `PreSelection` and `PostSelection` are what the two hooks change;
* `Hook` is the computation of a hook: it can make parameters, leave notes and fail.
-/

namespace QueryProjection

/-- Which pass a selection is compiled for. -/
inductive Mode where
  /-- Leaves out the fields that need a service, and fetches what they depend on. -/
  | dataOnly
  | full
deriving DecidableEq, Repr

/-- What a computation leaves behind whether it succeeds or not: the first number that is still
unused, and the events so far. -/
structure Journal where
  next : Nat
  events : List Event := []

abbrev Hook := ExceptT String (StateM Journal)

namespace Hook

def ofFresh {α : Type} (x : Fresh α) : Hook α := do
  let journal ← get
  let (a, next) := x.run journal.next
  set { journal with next }
  return a

def note (line : String) : Hook Unit :=
  modify fun journal => { journal with events := journal.events ++ [.note line] }

end Hook

structure HookContext where
  mode : Mode
  /-- Whether the collection is fetched data, which the hooks have already shaped. -/
  materialized : Bool
  path : FieldPath
  /-- The parameter of the field's arguments; none over fetched data. -/
  arguments : Option Parameter
  argumentValues : Option Value

namespace HookContext

def argument? (context : HookContext) (name : String) : Option Expr := do
  let arguments ← context.arguments
  Expr.recordMember? (.parameter arguments) name

def argumentValue? (context : HookContext) (name : String) : Option Value := do
  let values ← context.argumentValues
  values.get? name

end HookContext

/-- What the first hook can change. -/
structure PreSelection where
  collection : Expr
  /-- The placeholder that stands for each element. -/
  element : Parameter
  /-- What the fields of the selection read from, in terms of the placeholder. -/
  elementContext : Expr

/-- What the second hook can change. -/
structure PostSelection where
  selection : SelectionMap
  element : Parameter

structure Extension where
  name : String
  arguments : List ArgumentDefinition := []
  preSelection : HookContext → PreSelection → Hook PreSelection := fun _ input => pure input
  postSelection : HookContext → PostSelection → Hook PostSelection := fun _ input => pure input

end QueryProjection
