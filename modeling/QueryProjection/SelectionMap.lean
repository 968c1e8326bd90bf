import QueryProjection.Expr.Basic

/-!
# Selection maps

The compiled fields of a selection, by response key.  Keys that differ only in case are the same
key; the first spelling is kept, and so is the place of the first insertion.

* `SelectionMap.insert` writes a field, `SelectionMap.insertIfAbsent` only a new one;
* `SelectionMap.insertFetched` adds a field on behalf of another one: it shares a field with the
  same expression, and moves to a key of its own where another field is in the way.
-/

namespace QueryProjection

/-- The compiled fields of a selection, in order, with the spelling of each key. -/
structure SelectionMap where
  fields : List (String × Expr) := []

namespace SelectionMap

/-- The field that answers to a key: its spelling and its expression. -/
def field? (map : SelectionMap) (key : String) : Option (String × Expr) :=
  map.fields.find? fun field => Text.sameIgnoringCase field.1 key

def get? (map : SelectionMap) (key : String) : Option Expr :=
  (map.field? key).map Prod.snd

def contains (map : SelectionMap) (key : String) : Bool :=
  (map.field? key).isSome

def isEmpty (map : SelectionMap) : Bool :=
  map.fields.isEmpty

def size (map : SelectionMap) : Nat :=
  map.fields.length

/-- Writes an expression into the first field that answers to the key, or into a new field at the
end. -/
def insertInto (key : String) (expression : Expr) : List (String × Expr) → List (String × Expr)
  | [] => [(key, expression)]
  | (name, old) :: rest =>
    if Text.sameIgnoringCase name key then (name, expression) :: rest
    else (name, old) :: insertInto key expression rest

/-- Writes a field.  The expression of a field that is there already is replaced; its spelling and
its place are kept. -/
def insert (map : SelectionMap) (key : String) (expression : Expr) : SelectionMap :=
  ⟨insertInto key expression map.fields⟩

/-- Writes a field unless there is one, and says whether it did. -/
def insertIfAbsent (map : SelectionMap) (key : String) (expression : Expr) : Bool × SelectionMap :=
  if map.contains key then (false, map) else (true, map.insert key expression)

/-- The key tried after `attempt` keys were taken. -/
def fetchedKey (name : String) (attempt : Nat) : String :=
  match attempt with
  | 0 => name
  | 1 => "__dep_" ++ name
  | n => "__dep_" ++ name ++ "_" ++ n.repr

/-- Tries one key after the other, as long as there is fuel. -/
def insertFetchedFrom (map : SelectionMap) (name : String) (expression : Expr) :
    (fuel attempt : Nat) → String × SelectionMap
  | 0, attempt => (fetchedKey name attempt, map)
  | fuel + 1, attempt =>
    let key := fetchedKey name attempt
    match map.field? key with
    | none => (key, map.insert key expression)
    | some (spelling, found) =>
      if Expr.same found expression then (spelling, map)
      else insertFetchedFrom map name expression fuel (attempt + 1)

/-- Adds a field on behalf of another field, and gives the key it ended up under.  A field that
already has the expression is shared; if the name is taken by another expression the field goes
under a key that starts with `__dep_`.  One try more than there are fields always finds a key. -/
def insertFetched (map : SelectionMap) (name : String) (expression : Expr) :
    String × SelectionMap :=
  insertFetchedFrom map name expression (map.size + 1) 0

def toRecord (map : SelectionMap) : Expr :=
  .record (map.fields.map fun field => (field.1, field.2.ty)) (map.fields.map Prod.snd)

end SelectionMap
end QueryProjection
