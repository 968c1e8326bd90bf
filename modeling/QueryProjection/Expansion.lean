import QueryProjection.Document.Variables

/-!
# Expanding a selection

A selection set is expanded into the fields it stands for: fragments are put in place of their
spreads, and what a `@skip` or `@include` excludes is left out.  The result is a tree, because each
field has its own expanded selection below it.

Expanding a selection set can fail, but the failure counts only if somebody looks at that set, so
the tree keeps it where it arose.  It does not say where in the response that is:
`ExpansionError.at` adds the path.  Likewise a part of the tree is computed only when somebody looks
at it: a document that spreads fragments in fragments stands for a tree far larger than itself.

* `Expanded` is the tree, and `ExpandedSelection` a selection set in it;
* `Expansion.included` decides about the directives on a selection;
* `Expansion.expandAll` expands a selection set.  A spread inside its own fragment is an error, so
  the fragments that are being expanded are all different, and nesting them as deep as there are
  fragments is deep enough.
-/

namespace QueryProjection

/-- Why a selection set cannot be expanded. -/
inductive ExpansionCause where
  | missingVariable (name : String)
  | invalidDirectiveArgument (directive : String)
  | unknownFragment (name : String)
  | circularFragment (name : String) (cycle : List String)
deriving DecidableEq, Repr

/-- Why a selection set cannot be expanded, and the response key of the field of the set at which
that shows; none if it shows at a fragment. -/
structure ExpansionError where
  key : Option String
  cause : ExpansionCause
deriving DecidableEq, Repr

def ExpansionError.at (error : ExpansionError) (path : FieldPath) : CompileError :=
  let path :=
    match error.key with
    | some key => path.child key
    | none => path
  match error.cause with
  | .missingVariable name => .missingVariable path name
  | .invalidDirectiveArgument directive => .invalidDirectiveArgument path directive
  | .unknownFragment name => .unknownFragment path name
  | .circularFragment name cycle => .circularFragment path name cycle

/-- How a field came into a selection set. -/
inductive Origin where
  /-- It is written there, perhaps in an inline fragment. -/
  | direct
  /-- By the spread of a fragment with this type condition. -/
  | fragment (name typeCondition : String)
deriving DecidableEq, Repr

mutual

/-- A field of an expanded selection set, with its own expanded selection set below it. -/
inductive Expanded where
  /-- `fragments` are the fragments that are being expanded around the field, outermost first. -/
  | mk (field : SelectedField) (origin : Origin) (fragments : List String)
      (selection : Unit → ExpandedSelection)

inductive ExpandedSelection where
  | selects (fields : List Expanded)
  | failed (error : ExpansionError)

end

def ExpandedSelection.ofExcept : Except ExpansionError (List Expanded) → ExpandedSelection
  | .ok fields => .selects fields
  | .error error => .failed error

namespace Expanded

def field : Expanded → SelectedField
  | .mk field _ _ _ => field

def origin : Expanded → Origin
  | .mk _ origin _ _ => origin

def fragments : Expanded → List String
  | .mk _ _ fragments _ => fragments

def selection : Expanded → ExpandedSelection
  | .mk _ _ _ selection => selection ()

end Expanded

/-- What an expansion needs to know: the fragments and the variables. -/
structure Expansion where
  fragments : List (String × Fragment)
  values : VariableValues

namespace Expansion

def ofDocument (document : Document) (supplied : Variables) : Expansion :=
  ⟨document.fragments, ⟨document.declarations, supplied⟩⟩

/-- Whether the directives let a selection in.  `key` is the response key of the selection if it is
a field.  Directives other than `@skip` and `@include` say nothing about it. -/
def included (expansion : Expansion) (key : Option String) :
    List Directive → Except ExpansionError Bool
  | [] => .ok true
  | directive :: rest =>
    if directive.name = "skip" ∨ directive.name = "include" then
      match Assoc.find? "if" directive.arguments with
      | none => .error ⟨key, .invalidDirectiveArgument directive.name⟩
      | some argument =>
        match expansion.values.resolve argument with
        | .error name => .error ⟨key, .missingVariable name⟩
        | .ok (.boolean condition) =>
          if condition = (directive.name = "skip") then .ok false else expansion.included key rest
        | .ok _ => .error ⟨key, .invalidDirectiveArgument directive.name⟩
    else expansion.included key rest

/-- The fragments from the first mention of `name` on, and `name` again. -/
def cycleOf (name : String) (active : List String) : List String :=
  active.dropWhile (· ≠ name) ++ [name]

/-- How the fields of a fragment come into a selection set.  A spread inside a fragment brings its
fields in by the outer fragment. -/
def spreadOrigin (origin : Origin) (fragment : Fragment) (name : String) : Origin :=
  match origin with
  | .direct => .fragment name fragment.typeCondition
  | outer => outer

/-- How the selections of a fragment are expanded, given the origin of its fields and the fragments
that are then being expanded. -/
abbrev Enter := Fragment → Origin → List String → Except ExpansionError (List Expanded)

mutual

/-- The fields that a selection stands for. -/
def expandOne (expansion : Expansion) (enter : Enter) (origin : Origin) (active : List String) :
    Selection → Except ExpansionError (List Expanded)
  | .field field directives selections => do
    if ← expansion.included (some field.responseKey) directives then
      return [.mk field origin active fun _ =>
        .ofExcept (expandAllWith expansion enter .direct active selections)]
    else return []
  | .inline _ directives selections => do
    if ← expansion.included none directives then
      expandAllWith expansion enter origin active selections
    else return []
  | .spread name directives => do
    if ← expansion.included none directives then
      match Assoc.find? name expansion.fragments with
      | none => throw ⟨none, .unknownFragment name⟩
      | some fragment =>
        if name ∈ active then throw ⟨none, .circularFragment name (cycleOf name active)⟩
        else enter fragment (spreadOrigin origin fragment name) (active ++ [name])
    else return []

def expandAllWith (expansion : Expansion) (enter : Enter) (origin : Origin)
    (active : List String) : List Selection → Except ExpansionError (List Expanded)
  | [] => return []
  | selection :: rest => do
    let fields ← expandOne expansion enter origin active selection
    return fields ++ (← expandAllWith expansion enter origin active rest)

end

/-- Expands the selections of a fragment, with spreads nested at most `depth` deep. -/
def enter (expansion : Expansion) : (depth : Nat) → Enter
  | 0 => fun _ _ _ => .ok []
  | depth + 1 => fun fragment origin active =>
    expansion.expandAllWith (expansion.enter depth) origin active fragment.selections

/-- The fields that a selection set stands for, inside these fragments. -/
def expandAll (expansion : Expansion) (active : List String) (selections : List Selection) :
    Except ExpansionError (List Expanded) :=
  expansion.expandAllWith (expansion.enter expansion.fragments.length) .direct active selections

/-- A field that is compiled by itself, outside every fragment. -/
def expandField (expansion : Expansion) (field : SelectedField) (selections : List Selection) :
    Expanded :=
  .mk field .direct [] fun _ => .ofExcept (expansion.expandAll [] selections)

end Expansion
end QueryProjection
