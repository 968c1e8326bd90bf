import QueryProjection.Assoc
import QueryProjection.Binary64.Basic

/-!
# TOML documents

* `Toml` is a value of a document; a table keeps its keys in order;
* `TomlNode` is a document while it is read, when it still matters how a table came about: a table
  is written once, either under a header of its own or by keys with points in them.
-/

namespace QueryProjection

inductive Toml where
  | string (s : String)
  | integer (i : Int)
  | float (x : Binary64)
  | boolean (b : Bool)
  /-- A date, a time, or both, as it is written. -/
  | datetime (text : String)
  /-- An array that is written out as a value. -/
  | array (items : List Toml)
  | table (members : List (String × Toml))
  /-- An array of tables, each with a header of its own. -/
  | tables (items : List (List (String × Toml)))

/-- A part of a document that is being read. -/
inductive TomlNode where
  /-- A value, which nothing can be added to. -/
  | leaf (value : Toml)
  /-- A table.  It is implicit if it was only mentioned on the way to another one, and dotted if
  that was in a key with points. -/
  | table (implicit dotted : Bool) (entries : List (String × TomlNode))
  /-- The tables of an array, the latest one last. -/
  | tables (items : List (List (String × TomlNode)))

namespace TomlNode

/-- Entries of a table that is being read. -/
abbrev Entries := List (String × TomlNode)

mutual

/-- The value that a part of a document stands for. -/
def toToml : TomlNode → Toml
  | .leaf v => v
  | .table _ _ entries => .table (toMembers entries)
  | .tables items => .tables (toTables items)

def toMembers : List (String × TomlNode) → List (String × Toml)
  | [] => []
  | (key, node) :: rest => (key, toToml node) :: toMembers rest

def toTables : List (List (String × TomlNode)) → List (List (String × Toml))
  | [] => []
  | entries :: rest => toMembers entries :: toTables rest

end

/-- Adds a value under a key.  `path` are the parts of the key before the last, `nested` says
whether there were any, and `dotted` whether the current table came about by such a key.  A table
that has a header of its own is not extended this way, but a key may lead through the last one of an
array of tables to a table below it. -/
def insertKey (nested : Bool) (key : String) (value : Toml) :
    (path : List String) → (dotted : Bool) → Entries → Option Entries
  | [], dotted, entries =>
    if dotted != nested then none
    else if Assoc.contains key entries then none
    else some (entries ++ [(key, .leaf value)])
  | part :: path, _, entries =>
    match Assoc.find? part entries with
    | none => do
      let inner ← insertKey nested key value path true []
      return entries ++ [(part, .table true true inner)]
    | some (.table true dotted inner) => do
      let inner ← insertKey nested key value path dotted inner
      return Assoc.insert part (.table true dotted inner) entries
    | some (.tables items) =>
      match items.reverse with
      | [] => none
      | last :: before => do
        let last ← insertKey nested key value path false last
        return Assoc.insert part (.tables ((last :: before).reverse)) entries
    | some _ => none

/-- Changes the table at a path of headers.  Tables on the way are made if they are missing, and of
an array of tables the last one is meant. -/
def updateAt (f : Entries → Option Entries) : (path : List String) → Entries → Option Entries
  | [], entries => f entries
  | part :: path, entries =>
    match Assoc.find? part entries with
    | none => do
      let inner ← updateAt f path []
      return entries ++ [(part, .table true false inner)]
    | some (.table implicit dotted inner) => do
      let inner ← updateAt f path inner
      return Assoc.insert part (.table implicit dotted inner) entries
    | some (.tables items) =>
      match items.reverse with
      | [] => none
      | last :: before => do
        let last ← updateAt f path last
        return Assoc.insert part (.tables ((last :: before).reverse)) entries
    | some (.leaf _) => none

/-- Opens the table of a header.  A table that was only mentioned before gets its place now. -/
def openTable (key : String) (entries : Entries) : Option Entries :=
  match Assoc.find? key entries with
  | none => some (entries ++ [(key, .table false false [])])
  | some (.table true false inner) =>
    some ((entries.filter fun entry => entry.1 ≠ key) ++ [(key, .table false false inner)])
  | some _ => none

def openElement (key : String) (entries : Entries) : Option Entries :=
  match Assoc.find? key entries with
  | none => some (entries ++ [(key, .tables [[]])])
  | some (.tables items) => some (Assoc.insert key (.tables (items ++ [[]])) entries)
  | some _ => none

end TomlNode
end QueryProjection
