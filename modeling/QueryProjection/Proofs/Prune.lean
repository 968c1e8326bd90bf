import QueryProjection.Proofs.Execute.Outcome
import QueryProjection.Proofs.Expansion

/-!
# Excluded selections

A `@skip` or `@include` can exclude a field, an inline fragment or a spread.  This file compares a
document with the one from which everything excluded has been deleted.

* `Directive.excludes` says whether a directive excludes what it stands on, for values of the
  variables;
* `Document.prune` deletes what is excluded, in the operation and in every fragment;
* `Document.Decided` says that every condition of a `@skip` or `@include` is a boolean;
* `Executor.execute_prune`: the two documents are executed alike.

Deleting happens once for each selection as it is written, expanding once for each place where a
fragment is spread.  Both ask the directives alone, so what a selection set expands to is the same:
field for field, and with the same failures below the fields (`Expansion.expandAll_prune`).

What is deleted is not looked at any more, and it may be anything: a field that lacks an argument, a
spread of a fragment that is not there, a cycle.  Only the directives on it count.  A condition that
is no boolean is an error where it stands, and would be deleted with what is excluded around it or
beside it; that is why all of them have to be decided.
-/

namespace QueryProjection

/-! ## Conditions -/

namespace Directive

/-- The directive includes or excludes what it stands on. -/
def Conditional (directive : Directive) : Prop :=
  directive.name = "skip" ∨ directive.name = "include"

/-- The condition of a directive, if it has one that is a boolean. -/
def condition? (values : VariableValues) (directive : Directive) : Option Bool :=
  match (Assoc.find? "if" directive.arguments).map values.resolve with
  | some (.ok (.boolean condition)) => some condition
  | _ => none

/-- Whether the directive is a `@skip` whose condition holds, or an `@include` whose condition does
not. -/
def excludes (values : VariableValues) (directive : Directive) : Bool :=
  directive.name = "skip" && directive.condition? values = some true
    || directive.name = "include" && directive.condition? values = some false

/-- If the directive has a say in it, its condition is a boolean. -/
def Decided (values : VariableValues) (directive : Directive) : Prop :=
  directive.Conditional → (directive.condition? values).isSome = true

end Directive

/-- Directives with conditions that are booleans let in what none of them excludes. -/
theorem Expansion.included_eq {expansion : Expansion} {directives : List Directive}
    (h : ∀ d ∈ directives, d.Decided expansion.values) (key : Option String) :
    expansion.included key directives
      = .ok (!directives.any (Directive.excludes expansion.values)) := by
  induction directives with
  | nil => rfl
  | cons d rest ih =>
    obtain ⟨hd, hrest⟩ := List.forall_mem_cons.1 h
    rw [included, ih hrest, List.any_cons]
    by_cases hname : d.name = "skip" ∨ d.name = "include"
    · have hcondition := hd hname
      rw [if_pos hname]
      unfold Directive.excludes
      unfold Directive.condition? at hcondition ⊢
      cases hfind : Assoc.find? "if" d.arguments with
      | none => simp [hfind] at hcondition
      | some argument =>
        rw [hfind, Option.map_some] at hcondition
        cases hvalue : expansion.values.resolve argument with
        | error name => simp [hvalue] at hcondition
        | ok value =>
          cases value with
          | boolean condition =>
            rcases hname with hname | hname <;> cases condition <;> simp [hname, hvalue]
          | _ => simp [hvalue] at hcondition
    · have hexcludes : d.excludes expansion.values = false := by
        rw [not_or] at hname
        simp [Directive.excludes, hname.1, hname.2]
      rw [if_neg hname, hexcludes, Bool.false_or]

/-! ## Deleting what is excluded -/

namespace Selection

/-- The directives on a selection. -/
def directives : Selection → List Directive
  | .field _ directives _ => directives
  | .spread _ directives => directives
  | .inline _ directives _ => directives

/-- Whether some directive on a selection excludes it. -/
def excluded (values : VariableValues) (selection : Selection) : Bool :=
  selection.directives.any (Directive.excludes values)

mutual

/-- A selection without what is excluded below it. -/
def pruneBelow (values : VariableValues) : Selection → Selection
  | .field selected directives selections => .field selected directives (pruneIn values selections)
  | .spread name directives => .spread name directives
  | .inline condition directives selections =>
    .inline condition directives (pruneIn values selections)

/-- A selection set without what is excluded in it. -/
def pruneIn (values : VariableValues) : List Selection → List Selection
  | [] => []
  | selection :: rest =>
    if selection.excluded values then pruneIn values rest
    else pruneBelow values selection :: pruneIn values rest

end

mutual

/-- The conditions on a selection, and on everything below it, are booleans. -/
def Decided (values : VariableValues) : Selection → Prop
  | .field _ directives selections =>
    (∀ d ∈ directives, d.Decided values) ∧ DecidedIn values selections
  | .spread _ directives => ∀ d ∈ directives, d.Decided values
  | .inline _ directives selections =>
    (∀ d ∈ directives, d.Decided values) ∧ DecidedIn values selections

/-- The same for a selection set. -/
def DecidedIn (values : VariableValues) : List Selection → Prop
  | [] => True
  | selection :: rest => Decided values selection ∧ DecidedIn values rest

end

end Selection

/-- The fragment without what is excluded in it. -/
def Fragment.prune (values : VariableValues) (fragment : Fragment) : Fragment :=
  { fragment with selections := Selection.pruneIn values fragment.selections }

namespace Document

/-- The variables of a document with the values supplied for them. -/
def valuesOf (document : Document) (supplied : Variables) : VariableValues :=
  ⟨document.declarations, supplied⟩

/-- The document without what is excluded in the operation and in the fragments. -/
def prune (supplied : Variables) (document : Document) : Document :=
  let values := document.valuesOf supplied
  { document with
    selections := Selection.pruneIn values document.selections
    fragments := document.fragments.map (Prod.map id (Fragment.prune values)) }

/-- Every condition of a `@skip` or an `@include`, in the operation and in the fragments, is a
boolean. -/
structure Decided (supplied : Variables) (document : Document) : Prop where
  selections : Selection.DecidedIn (document.valuesOf supplied) document.selections
  fragments : ∀ f ∈ document.fragments,
    Selection.DecidedIn (document.valuesOf supplied) f.2.selections

end Document

/-! ## Expanding what is left -/

theorem Assoc.find?_map_snd {α β : Type} (f : α → β) (key : String) (entries : List (String × α)) :
    find? key (entries.map (Prod.map id f)) = (find? key entries).map f := by
  induction entries with
  | nil => rfl
  | cons e rest ih =>
    obtain ⟨k, a⟩ := e
    by_cases h : k = key <;> simp [find?, h, ih]

namespace Expansion

/-- The expansion of a document without what is excluded. -/
def prune (expansion : Expansion) : Expansion :=
  { expansion with
    fragments := expansion.fragments.map (Prod.map id (Fragment.prune expansion.values)) }

variable {expansion : Expansion}

theorem admits_prune (selection : Selection) :
    expansion.prune.admits (selection.pruneBelow expansion.values)
      = expansion.admits selection := by
  have hvalues : expansion.prune.values = expansion.values := rfl
  cases selection <;> rw [Selection.pruneBelow] <;> exact included_of_values hvalues _ _

theorem admits_eq {selection : Selection} (h : selection.Decided expansion.values) :
    expansion.admits selection = .ok (!selection.excluded expansion.values) := by
  cases selection with
  | field => exact included_eq h.1 _
  | spread => exact included_eq h _
  | inline => exact included_eq h.1 _

section Enter

variable {enter enter' : Enter}
  (henter : ∀ f ∈ expansion.fragments, ∀ origin active,
    enter' (f.2.prune expansion.values) origin active = enter f.2 origin active)
include henter

theorem expandAllWith_prune (origin : Origin) (active : List String) :
    ∀ {selections : List Selection}, Selection.DecidedIn expansion.values selections →
      expansion.prune.expandAllWith enter' origin active
          (Selection.pruneIn expansion.values selections)
        = expansion.expandAllWith enter origin active selections
  | [], _ => by rw [Selection.pruneIn, expandAllWith_nil, expandAllWith_nil]
  | selection :: rest, h => by
    have hrest := expandAllWith_prune origin active h.2
    have hadmits := admits_eq h.1
    rw [Selection.pruneIn, expandAllWith_cons, ← hrest]
    cases hexcluded : selection.excluded expansion.values with
    | true =>
      rw [hexcluded] at hadmits
      rw [if_pos rfl, expandOne_excluded hadmits, joined_nil]
    | false =>
      rw [hexcluded] at hadmits
      rw [if_neg Bool.false_ne_true, expandAllWith_cons]
      refine congrArg (joined · _) ?_
      have hadmits' := (admits_prune selection).trans hadmits
      match selection, h.1 with
      | .field field directives selections, hdecided =>
        rw [Selection.pruneBelow] at hadmits' ⊢
        rw [expandOne_field hadmits', expandOne_field hadmits,
          expandAllWith_prune .direct active hdecided.2]
      | .inline condition directives selections, hdecided =>
        rw [Selection.pruneBelow] at hadmits' ⊢
        rw [expandOne_inline hadmits', expandOne_inline hadmits,
          expandAllWith_prune origin active hdecided.2]
      | .spread name directives, _ =>
        rw [Selection.pruneBelow] at hadmits' ⊢
        rw [expandOne_spread hadmits', expandOne_spread hadmits, prune, Assoc.find?_map_snd]
        cases hfind : Assoc.find? name expansion.fragments with
        | none => rfl
        | some fragment =>
          have hentered := henter _ (Assoc.mem_of_find? hfind)
          simp only [Option.map_some, spreadOrigin, Fragment.prune] at hentered ⊢
          split
          · rfl
          · exact hentered _ _

end Enter

variable (hfragments : ∀ f ∈ expansion.fragments,
  Selection.DecidedIn expansion.values f.2.selections)
include hfragments

theorem enter_prune (depth : Nat) :
    ∀ f ∈ expansion.fragments, ∀ origin active,
      expansion.prune.enter depth (f.2.prune expansion.values) origin active
        = expansion.enter depth f.2 origin active := by
  induction depth with
  | zero => exact fun _ _ _ _ => rfl
  | succ depth ih =>
    exact fun f hf origin active => expandAllWith_prune ih origin active (hfragments f hf)

theorem expandAll_prune (active : List String) {selections : List Selection}
    (h : Selection.DecidedIn expansion.values selections) :
    expansion.prune.expandAll active (Selection.pruneIn expansion.values selections)
      = expansion.expandAll active selections := by
  have hlength : expansion.prune.fragments.length = expansion.fragments.length := List.length_map _
  rw [expandAll, expandAll, hlength]
  exact expandAllWith_prune (enter_prune hfragments _) .direct active h

end Expansion

theorem Compiler.rootFields_prune {document : Document} {supplied : Variables}
    (h : document.Decided supplied) :
    rootFields (.ofDocument (document.prune supplied) supplied) (document.prune supplied)
      = rootFields (.ofDocument document supplied) document := by
  let expansion := Expansion.ofDocument document supplied
  have hexpand :
      expansion.prune.expandAll [] (Selection.pruneIn expansion.values document.selections)
        = expansion.expandAll [] document.selections :=
    Expansion.expandAll_prune h.fragments [] h.selections
  unfold rootFields
  rw [← hexpand]
  rfl

namespace Executor

/-- **Excluded selections leave no trace.**  If every condition of a `@skip` or an `@include` is a
boolean, then executing a document and executing what is left of it when everything excluded has
been deleted give the same response and the same events. -/
theorem execute_prune (executor : Executor) (document : Document) (supplied : Variables)
    (data : Value) (h : document.Decided supplied) :
    executor.execute (document.prune supplied) supplied data
      = executor.execute document supplied data := by
  unfold execute
  dsimp only
  rw [Compiler.rootFields_prune h]
  rfl

/-! People with a card, which is short if that is asked for. -/

namespace Cards

def context : Parameter := ⟨0, "ctx", .object "Query"⟩

def person : Parameter := ⟨1, "person", .object "Person"⟩

def noArguments : Parameter := ⟨2, "args", .record []⟩

/-- A field that reads a member of its context. -/
def plain (context : Parameter) (member : String) (ty : Ty) : FieldDefinition :=
  ⟨member, none, context, .member (.parameter context) member ty, noArguments, [], [], []⟩

def people : SelectedField :=
  ⟨"people", plain context "people" (.list (.object "Person")), []⟩

def name : SelectedField := ⟨"name", plain person "name" .string, []⟩

/-- A service greets a person. -/
def greeting : SelectedField :=
  ⟨"greeting", ⟨"greeting", none, person, .serviceCall "Greeter" "greet" [] .string,
    noArguments, [], ["Greeter"], []⟩, []⟩

def skip (condition : ArgumentValue) : Directive := ⟨"skip", [("if", condition)]⟩

def keep (condition : ArgumentValue) : Directive := ⟨"include", [("if", condition)]⟩

def yes : ArgumentValue := .literal (.boolean true)

def executor : Executor where
  schema := ⟨"Query", context, [], 3⟩
  services := .empty
  settings := { maxDepth := some 2 }

/-- Two lists of people with the same card.  What is excluded could not be compiled: it gives an
argument that is not declared and has no value, spreads a fragment that is not there and one that
spreads itself, nests too deep, and asks for a service that there is not. -/
def document : Document where
  declarations := [⟨"brief", some (.boolean true), true⟩]
  selections := [
    .field people [] [.spread "card" [], .spread "missing" [skip yes]],
    .field { people with responseKey := "again" } [keep yes]
      [.spread "card" [skip (.literal (.boolean false))]],
    .field { people with responseKey := "broken", arguments := [("limit", .var "none")] }
      [skip (.var "brief")] [.spread "loop" []]]
  fragments := [
    ("card", ⟨"card", "Person", [.field name [] [],
      .field greeting [keep yes, skip (.var "brief")] [], .inline none [skip (.var "brief")]
        [.spread "loop" []]]⟩),
    ("loop", ⟨"loop", "Person", [.spread "loop" [], .field people [keep yes] [.field name [] []]]⟩)]

def everyone : Value :=
  .object [("people", .list [.object [("name", .string "Ada")]])]

theorem decided : document.Decided [] := by
  refine ⟨?_, ?_⟩ <;>
    simp [document, Selection.DecidedIn, Selection.Decided, Directive.Decided, skip, keep, yes,
      Directive.condition?, Assoc.find?, VariableValues.resolve, VariableValues.get?,
      Document.valuesOf]

end Cards

open Cards in
/-- Nothing is left of what is excluded, and the response is that of the names alone. -/
theorem execute_prune_cards :
    document.Decided []
      ∧ executor.execute (document.prune []) [] everyone = executor.execute document [] everyone
      ∧ (executor.execute document [] everyone).1.data.map (Prod.map id Value.text)
          = [("people", "[\x7bname: \"Ada\"\x7d]"), ("again", "[\x7bname: \"Ada\"\x7d]")]
      ∧ (executor.execute document [] everyone).1.errors = []
      ∧ (document.prune []).fragments.map (fun f => f.2.selections.length) = [1, 2] :=
  ⟨decided, execute_prune executor document [] everyone decided,
    by decide +kernel, by decide +kernel, by decide +kernel⟩

end Executor
end QueryProjection
