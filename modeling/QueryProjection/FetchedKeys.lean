import QueryProjection.Assoc
import QueryProjection.FieldPath

/-!
# Keys of fetched members

What the data pass fetches for a service field goes into the record of the field's context, under a
key that need not be the name of the member.  `FetchedKeys` says under which: for each path of a
field, the keys by the names of the members.  It is a tree that branches as paths do.

* `FetchedKeys.get` gives the keys for the field at a path;
* `FetchedKeys.insert` writes one, and `FetchedKeys.get_insert` is the law of the two.
-/

namespace QueryProjection

/-- The keys of fetched members, for a field and for the fields below it. -/
inductive FetchedKeys where
  /-- `names` are the keys for the field itself, by the names of the members, and `below` those for
  the fields below it, by their response keys. -/
  | node (names : List (String × String)) (below : List (String × FetchedKeys))

namespace FetchedKeys

def empty : FetchedKeys :=
  .node [] []

instance : Inhabited FetchedKeys := ⟨empty⟩

def child (fetched : FetchedKeys) (key : String) : FetchedKeys :=
  match fetched with
  | .node _ below => (Assoc.find? key below).getD empty

def getAt (fetched : FetchedKeys) : List String → List (String × String)
  | [] =>
    match fetched with
    | .node names _ => names
  | key :: rest => (fetched.child key).getAt rest

def insertAt (fetched : FetchedKeys) (name key : String) : List String → FetchedKeys
  | [] =>
    match fetched with
    | .node names below => .node (Assoc.insert name key names) below
  | part :: rest =>
    let inner := (fetched.child part).insertAt name key rest
    match fetched with
    | .node names below => .node names (Assoc.insert part inner below)

/-- The keys of the members fetched for the field at a path, by the names of the members. -/
def get (fetched : FetchedKeys) (path : FieldPath) : List (String × String) :=
  fetched.getAt path.keys

def insert (fetched : FetchedKeys) (path : FieldPath) (name key : String) : FetchedKeys :=
  fetched.insertAt name key path.keys

theorem getAt_insertAt (name key : String) (path : List String) :
    ∀ (fetched : FetchedKeys) (other : List String),
      (fetched.insertAt name key path).getAt other
        = if path = other then Assoc.insert name key (fetched.getAt other)
          else fetched.getAt other := by
  induction path with
  | nil =>
    rintro ⟨names, below⟩ other
    cases other <;> simp [insertAt, getAt, child]
  | cons part rest ih =>
    rintro ⟨names, below⟩ other
    cases other with
    | nil => simp [insertAt, getAt]
    | cons head tail =>
      by_cases h : part = head
      · subst h
        simp [insertAt, getAt, child, Assoc.find?_insert, ih]
      · simp [insertAt, getAt, child, Assoc.find?_insert, h]

/-- Writing a key for one field changes the keys for that field and for no other. -/
theorem get_insert (fetched : FetchedKeys) (path other : FieldPath) (name key : String) :
    (fetched.insert path name key).get other
      = if path = other then Assoc.insert name key (fetched.get other) else fetched.get other := by
  obtain ⟨path⟩ := path
  obtain ⟨other⟩ := other
  simp [get, insert, getAt_insertAt]

end FetchedKeys
end QueryProjection
