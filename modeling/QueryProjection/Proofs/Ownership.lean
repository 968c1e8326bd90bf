import QueryProjection.Proofs.Compile.Visits
import QueryProjection.Proofs.Execute.Bound

/-!
# Every field owns its arguments

A field that is resolved from its template gets a parameter of its own for its arguments, and the
values of the arguments are handed up with what the field is compiled to.  On the way they are
merged with those of other fields, where an entry replaces another one of the same parameter, and
the entry of a field in the record of a selection may be replaced by that of a later field.  No
arguments are lost or shared: there is one entry for each field that the compilation gets to, and it
holds the values that were written for this field.

* `VariableValues.Resolves` and `SelectedField.Receives` say what value an argument is to have;
* `Compiler.Visit.Owns`: an entry holds the arguments of a visited field;
* `Compiler.held_of_compileExpanded` is the invariant: the constants hold the arguments of the
  fields that were visited, under rising numbers;
* `Executor.arguments_owned` is what follows for the fields of an operation.

## Why the numbers rise

Merging loses an entry exactly if two have the same parameter.  That the parameters of two fields
differ is not kept by merging alone, but that the numbers rise is, if those of the one come before
those of the other; and they do, because compiling draws numbers and gives none back.  So no hook
may either (`Extension.Draws`), and none can that only makes new parameters.  The entries then stand
in the order of the visits, and need not be looked up to say whose they are.
-/

namespace QueryProjection

open Compiler List

/-! ## The values of arguments -/

/-- The value of what is written for an argument.  A variable stands for the value supplied for it,
or else for its default, or else for null if it may be null. -/
inductive VariableValues.Resolves (values : VariableValues) : ArgumentValue → Value → Prop
  | literal (value : Value) : Resolves values (.literal value) value
  | supplied {name : String} {value : Value} (h : Assoc.find? name values.supplied = some value) :
      Resolves values (.var name) value
  | default {name : String} {definition : VariableDefinition} {value : Value}
      (unsupplied : Assoc.find? name values.supplied = none)
      (declared : values.definitions.find? (·.name == name) = some definition)
      (h : definition.default = some value) : Resolves values (.var name) value
  | null {name : String} {definition : VariableDefinition}
      (unsupplied : Assoc.find? name values.supplied = none)
      (declared : values.definitions.find? (·.name == name) = some definition)
      (h : definition.default = none)
      (nullable : definition.nullable = true) : Resolves values (.var name) .null
  | list {items : List ArgumentValue} {results : List Value}
      (h : Forall₂ (Resolves values) items results) : Resolves values (.list items) (.list results)
  | object {members : List (String × ArgumentValue)} {results : List (String × Value)}
      (keys : Assoc.keys results = Assoc.keys members)
      (h : Forall₂ (Resolves values) (members.map Prod.snd) (results.map Prod.snd)) :
      Resolves values (.object members) (.object results)

variable {value : Value}

namespace VariableValues

variable {values : VariableValues}

theorem resolves_of_get? {name : String} (h : values.get? name = some value) :
    values.Resolves (.var name) value := by
  unfold get? at h
  split at h
  · rename_i hsupplied
    exact .supplied (hsupplied.trans h)
  · rename_i hnone
    split at h
    · cases h
    · rename_i definition hdeclared
      split at h
      · rename_i hdefault
        exact .default hnone hdeclared (hdefault.trans h)
      · rename_i hdefault
        split at h
        · rename_i hnullable
          cases h
          exact .null hnone hdeclared hdefault hnullable
        · cases h

mutual

theorem resolves_of_resolve :
    ∀ {written : ArgumentValue} {value : Value}, values.resolve written = .ok value →
      values.Resolves written value
  | .literal _, _, h => by
    rw [resolve] at h
    cases h
    exact .literal _
  | .var _, _, h => by
    rw [resolve] at h
    split at h
    · rename_i hget
      cases h
      exact resolves_of_get? hget
    · cases h
  | .list _, _, h => by
    rw [resolve] at h
    obtain ⟨results, hresults, h⟩ := bind_eq_ok_iff.1 h
    cases h
    exact .list (resolves_of_resolveItems hresults)
  | .object _, _, h => by
    rw [resolve] at h
    obtain ⟨results, hresults, h⟩ := bind_eq_ok_iff.1 h
    cases h
    exact .object (resolves_of_resolveMembers hresults).1 (resolves_of_resolveMembers hresults).2

theorem resolves_of_resolveItems : ∀ {items : List ArgumentValue} {results : List Value},
    values.resolveItems items = .ok results → Forall₂ values.Resolves items results
  | [], _, h => by
    cases h
    exact .nil
  | item :: rest, _, h => by
    rw [resolveItems] at h
    obtain ⟨value, hvalue, h⟩ := bind_eq_ok_iff.1 h
    obtain ⟨others, hothers, h⟩ := bind_eq_ok_iff.1 h
    cases h
    exact .cons (resolves_of_resolve hvalue) (resolves_of_resolveItems hothers)

theorem resolves_of_resolveMembers :
    ∀ {members : List (String × ArgumentValue)} {results : List (String × Value)},
    values.resolveMembers members = .ok results → Assoc.keys results = Assoc.keys members
      ∧ Forall₂ values.Resolves (members.map Prod.snd) (results.map Prod.snd)
  | [], _, h => by
    cases h
    exact ⟨rfl, .nil⟩
  | (key, item) :: rest, _, h => by
    rw [resolveMembers] at h
    obtain ⟨value, hvalue, h⟩ := bind_eq_ok_iff.1 h
    obtain ⟨others, hothers, h⟩ := bind_eq_ok_iff.1 h
    cases h
    obtain ⟨hkeys, hrest⟩ := resolves_of_resolveMembers hothers
    exact ⟨congrArg (key :: ·) hkeys, .cons (resolves_of_resolve hvalue) hrest⟩

end

end VariableValues

/-- The value that a field gets for an argument: what is written for it, or else the default, or
else null, which a required argument never is. -/
structure SelectedField.Receives (field : SelectedField) (values : VariableValues)
    (definition : ArgumentDefinition) (value : Value) : Prop where
  written : ∀ argument, Assoc.find? definition.name field.arguments = some argument →
    values.Resolves argument value
  unwritten :
    Assoc.find? definition.name field.arguments = none → value = definition.default.getD .null
  required : definition.required = true → value ≠ .null

namespace Resolve

variable {field : SelectedField} {values : VariableValues} {path : FieldPath}

theorem receives_of_argumentValue {definition : ArgumentDefinition}
    (h : argumentValue field values path definition = .ok value) :
    field.Receives values definition value := by
  obtain ⟨hwritten, hunwritten, hrequired⟩ := argumentValue_eq_ok_iff.1 h
  refine ⟨fun argument hargument => VariableValues.resolves_of_resolve
    (hwritten argument hargument), fun hnone => (hunwritten hnone).symm, ?_⟩
  rintro hyes rfl
  cases hrequired hyes

theorem receives_of_argumentValues {declared : List (String × ArgumentDefinition)}
    {members : List (String × Value)}
    (h : argumentValues field values path declared = .ok members) :
    Forall₂ (fun argument member => member.1 = argument.1
      ∧ field.Receives values argument.2 member.2) declared members := by
  induction declared generalizing members with
  | nil =>
    cases h
    exact .nil
  | cons argument rest ih =>
    obtain ⟨name, definition⟩ := argument
    rw [argumentValues] at h
    obtain ⟨value, hvalue, h⟩ := bind_eq_ok_iff.1 h
    obtain ⟨others, hothers, h⟩ := bind_eq_ok_iff.1 h
    cases h
    exact .cons ⟨rfl, receives_of_argumentValue hvalue⟩ (ih hothers)

end Resolve

/-! ## Whose arguments they are -/

namespace Compiler

/-- Whether the field gets arguments: it is not left to the full pass and not read back from a
record, and it declares some. -/
def Visit.bindsArguments (visit : Visit) : Bool :=
  !defers visit.scope.mode visit.field && (Resolve.readBack? visit.field visit.context
    visit.scope).isNone && !visit.field.definition.arguments.isEmpty

/-- The entry holds the arguments of the field: it is what the field was resolved with, and it has a
member for each declared argument, in turn, with the value that the field is to get. -/
structure Visit.Owns (values : VariableValues) (visit : Visit)
    (entry : Parameter × Value) : Prop where
  resolves :
    ∃ resolved m, Gives (Resolve.resolve visit.field values visit.context visit.scope)
      visit.memory resolved m
    ∧ resolved.materialized = false ∧ resolved.arguments = some entry
  holds : ∃ members, entry.2 = .object members
    ∧ Forall₂ (fun argument member => member.1 = argument.1
      ∧ visit.field.Receives values argument.2 member.2)
        visit.field.definition.arguments members

/-- The constants hold the arguments of the visited fields, one entry for each, under rising
numbers. -/
structure Held (values : VariableValues) (visits : List Visit) (constants : Constants) : Prop where
  owned : Forall₂ (Visit.Owns values) (visits.filter Visit.bindsArguments) constants.entries
  rising : constants.entries.Pairwise fun a b => a.1.id < b.1.id

variable {values : VariableValues} {m m' : Memory}

theorem held_nil : Held values [] ({} : CompiledSelection).constants :=
  ⟨.nil, .nil⟩

variable {visit : Visit} {visits : List Visit} {resolved : Resolved}

theorem held_of_not_bindsArguments (h : visit.bindsArguments = false) : Held values [visit] {} := by
  refine ⟨?_, .nil⟩
  rw [filter_cons_of_neg (Bool.eq_false_iff.1 h)]
  exact .nil

theorem Held.extend {others : List Visit} {constants later : Constants}
    (h : Held values visits constants) (hlater : Held values others later)
    (hbefore : constants.Before later) :
    Held values (visits ++ others) (constants.extend later) := by
  have hrising : (constants.entries ++ later.entries).Pairwise fun a b => a.1.id < b.1.id := by
    refine pairwise_append.2 ⟨h.rising, hlater.rising, fun a ha b hb => ?_⟩
    exact hbefore _ (mem_map_of_mem ha) _ (mem_map_of_mem hb)
  have hentries : (constants.extend later).entries = constants.entries ++ later.entries := by
    refine Assoc.insertAll_eq_append (pairwise_map.2 (hrising.imp ?_))
    intro a b hlt heq
    exact absurd hlt (heq ▸ Nat.lt_irrefl _)
  refine ⟨?_, hentries ▸ hrising⟩
  rw [filter_append, hentries]
  exact rel_append h.owned hlater.owned

theorem held_of_resolve (hdefers : defers visit.scope.mode visit.field = false)
    (h : Gives (Resolve.resolve visit.field values visit.context visit.scope)
      visit.memory resolved m) :
    Held values [visit] (withArguments visit.scope resolved.arguments).1 := by
  rcases Resolve.resolve_gives.1 h with ⟨e, hread, rfl, -⟩ | ⟨hread, hbuild⟩
  · exact held_of_not_bindsArguments (by simp [Visit.bindsArguments, hread])
  · obtain ⟨arguments, resolver, hbind, -, rfl, -⟩ := Resolve.build_gives.1 hbuild
    obtain ⟨-, ⟨hnone, rfl, -⟩ | ⟨hsome, members, hmembers, rfl, -⟩⟩ :=
      Resolve.bindArguments_gives.1 hbind
    · exact held_of_not_bindsArguments (by simp [Visit.bindsArguments, hnone])
    · refine ⟨?_, pairwise_singleton _ _⟩
      rw [filter_cons_of_pos (by simp [Visit.bindsArguments, hdefers, hread, hsome])]
      exact .cons ⟨⟨_, m, h, rfl, rfl⟩, members, rfl,
        Resolve.receives_of_argumentValues hmembers⟩ .nil

section Compiled

variable {compiler : Compiler} {s : Situation} {compiled : Compiled}

theorem next_of_below? {field : SelectedField} (hdraws : field.definition.Hooks Extension.Draws)
    {scope : Scope} {inner : Situation} (h : Situation.below? field resolved scope m = some inner) :
    m.next ≤ inner.memory.next := by
  unfold Situation.below? at h
  dsimp only at h
  split at h
  · cases h
  · cases h
    exact Nat.le_succ _
  · rename_i hlist
    obtain ⟨ty, -, h⟩ := Option.bind_eq_some_iff.1 h
    split at h
    · rename_i pre m₁ hpre
      cases h
      have honward : Memory.Onward .full .operation { m with next := m.next + 1 } m₁ :=
        onward_of_runPreSelection (hdraws hlist) hpre
      exact Nat.le_trans (Nat.le_succ _) honward.next
    · cases h

theorem held_of_compileFields {fields : List Expanded}
    (hdrawn : ∀ f ∈ fields, compiler.Draws (fun _ => True) f)
    (hbelow : ∀ f ∈ fields, ∀ {s : Situation} {compiled m'}, defers s.scope.mode f.field = false →
      Gives (compiler.compileExpanded s.context s.scope f) s.memory compiled m' →
        Held compiler.values (compiler.visits s f) compiled.constants)
    {contributions : List Contribution}
    (h : Gives (compiler.compileFields s.context s.scope fields) s.memory contributions m')
    {start : CompiledSelection} (hstart : Held compiler.values visits start.constants)
    (hbefore : ∀ c ∈ contributions, start.constants.Before c.constants) :
    Held compiler.values (visits ++ compiler.visitsAll s fields)
      (contributions.foldl CompiledSelection.add start).constants := by
  induction fields generalizing s contributions start visits with
  | nil =>
    obtain ⟨rfl, -⟩ := compileFields_nil_gives.1 h
    rw [visitsAll, append_nil]
    exact hstart
  | cons f rest ih =>
    have hordered := (drawn_of_compileFields hdrawn h).2.ordered
    obtain ⟨c, m₁, others, hc, hothers, rfl⟩ := compileFields_cons_gives.1 h
    obtain ⟨hf, hrest⟩ := forall_mem_cons.1 hbelow
    obtain ⟨hlater, -⟩ := pairwise_cons.1 hordered
    obtain ⟨hfirst, hbefore⟩ := forall_mem_cons.1 hbefore
    have hadd : Held compiler.values (visits ++ compiler.visits (s.child f.field) f)
        (CompiledSelection.add start c).constants := by
      rcases contribute_gives.1 hc with ⟨hdefers, _, -, rfl, -⟩ | ⟨hdefers, compiled,
        hcompiled, rfl⟩
      · rw [visits_of_defers (s := s.child f.field) hdefers]
        have hnone : Visit.bindsArguments ⟨s.child f.field, f.field⟩ = false := by
          simp only [Visit.bindsArguments]
          rw [show defers (s.child f.field).scope.mode f.field = true from hdefers]
          rfl
        exact hstart.extend (held_of_not_bindsArguments hnone) hfirst
      · exact hstart.extend (hf (s := s.child f.field) hdefers hcompiled) hfirst
    rw [visitsAll_cons hc, ← append_assoc]
    exact ih (s := { s with memory := m₁ }) (fun g hg => hdrawn g (mem_cons_of_mem _ hg))
      hrest hothers hadd fun d hd => before_of_add (hbefore d hd) (hlater d hd)

/-- **What a field is compiled to holds the arguments of the fields that were visited.** -/
theorem held_of_compileExpanded {e : Expanded}
    (hdraws : e.Every fun field _ => field.definition.Hooks Extension.Draws)
    (hdefers : defers s.scope.mode e.field = false)
    (h : Gives (compiler.compileExpanded s.context s.scope e) s.memory compiled m') :
    Held compiler.values (compiler.visits s e) compiled.constants := by
  induction e using Expanded.induct generalizing s compiled m' with
  | field e ih =>
    obtain ⟨_, hhooks⟩ := hdraws.holds
    obtain ⟨resolved, m₁, hresolve, hopens⟩ := compileExpanded_opens h
    have hown : Held compiler.values [⟨s.enter e.origin, e.field⟩]
        (withArguments (s.enter e.origin).scope resolved.arguments).1 :=
      held_of_resolve ((mode_enter s e.origin).symm ▸ hdefers) hresolve
    rw [visits_of_resolve hdefers hresolve]
    obtain ⟨-, hnone, hconstants, -⟩ |
      ⟨-, inner, selection, fields, contributions, m₂, m₃, hinner, -, hsel, hfields, hassemble,
        hconstants, -⟩ := hopens
    · rw [hnone, hconstants]
      exact hown
    · have hbelow := fun f hf => hdraws.of_selects hsel (f := f) hf
      have hdrawn : ∀ f ∈ fields, compiler.Draws (fun _ => True) f :=
        fun f hf => drawn_of_compileExpanded ((hbelow f hf).imp fun _ _ h => ⟨trivial, h⟩)
      have hcontributions := (drawn_of_compileFields hdrawn hfields).2
      have hselection := drawn_of_assemble hcontributions hassemble
      have hheld : Held compiler.values (compiler.visitsAll inner fields) selection.constants := by
        obtain ⟨merged, -, rfl⟩ := assemble_gives.1 hassemble
        exact held_of_compileFields hdrawn (fun f hf => ih fields hsel f hf (hbelow f hf))
          hfields held_nil fun c _ p hp => absurd hp not_mem_nil
      have hdrawnOwn := (drawn_of_resolve (T := fun _ => True) trivial hresolve).2
      rw [hinner, hsel, hconstants]
      exact hown.extend hheld (hdrawnOwn.before hselection.2.2 (next_of_below? hhooks hinner))

end Compiled

end Compiler

namespace Executor

/-- **Every field owns its arguments.**  The constants that a field of the operation is compiled to
have one entry for each field that the compilation gets to, that is resolved from its template and
that declares arguments, in turn; no two entries have the same parameter.  An entry has the declared
arguments in the order of their declaration, each with the value that is written for it in this
place, or with its default, or null. -/
theorem arguments_owned (executor : Executor) (document : Document) (supplied : Variables)
    (hdraws : document.Every fun field _ => field.definition.Hooks Extension.Draws)
    {roots : List RootField}
    (hroots : rootFields (.ofDocument document supplied) document = .ok roots) :
    ∀ root ∈ roots, ∀ mode m compiled m',
      Gives ((executor.compilerFor document supplied).compileRoot executor.schema root mode .schema)
        m (some compiled) m' →
      let visits := (executor.compilerFor document supplied).rootVisits executor.schema root mode m
      visits.map Visit.field = root.field.reached mode
        ∧ Forall₂ (Visit.Owns ⟨document.declarations, supplied⟩)
            (visits.filter Visit.bindsArguments) compiled.constants.entries
        ∧ (compiled.constants.entries.map fun entry => entry.1.id).Nodup := by
  intro root hroot mode m compiled m' h
  have h := compileRoot_schema_gives.1 h
  split at h
  · exact absurd h.1 nofun
  · rename_i hdefers
    obtain ⟨_, ⟨⟩, h⟩ := h
    let s :
      Situation := ⟨.parameter executor.schema.context,
        rootScope executor.schema root mode, m⟩
    have hdefers : defers s.scope.mode root.field.field = false :=
      Bool.eq_false_iff.2 hdefers
    have hheld := held_of_compileExpanded (s := s)
      (every_of_rootFields hdraws hroots root hroot) hdefers h
    refine ⟨field_visits (s := s) hdefers h, hheld.owned, ?_⟩
    exact pairwise_map.2 (hheld.rising.imp fun hlt => Nat.ne_of_lt hlt)

/-! Letters, of which two come by the same fragment and one has variables in a list. -/

namespace Letters

def context : Parameter := ⟨0, "ctx", .object "Query"⟩

def person : Parameter := ⟨1, "person", .object "Person"⟩

def noArguments : Parameter := ⟨2, "args_people", .record []⟩

def address : Parameter := ⟨3, "args_letter", .record [("to", .string), ("copies", .list .int)]⟩

def people : FieldDefinition :=
  ⟨"people", none, context, .member (.parameter context) "people" (.list (.object "Person")),
    noArguments, [], [], []⟩

def letter : FieldDefinition :=
  ⟨"letter", none, person, .member (.parameter address) "copies" (.list .int), address,
    [("to", ⟨"to", .string, some (.string "you"), false⟩),
      ("copies", ⟨"copies", .list .int, none, true⟩)], [], []⟩

def writer : Executor where
  schema := ⟨"Query", context, [], 4⟩
  services := .empty

/-- A query for `people { ...short ...short letter(copies: [1, $n], to: $who) }`. -/
def document : Document where
  declarations := [⟨"who", none, true⟩, ⟨"n", some (.int 7), false⟩]
  selections := [.field ⟨"people", people, []⟩ [] [.spread "short" [], .spread "short" [],
    .field ⟨"letter", letter, [("copies", .list [.literal (.int 1), .var "n"]), ("to", .var "who")]⟩
      [] []]]
  fragments := [("short",
    ⟨"short", "Person", [.field ⟨"letter", letter, [("copies", .list [])]⟩ [] []]⟩)]

theorem draws_document : document.Every fun field _ => field.definition.Hooks Extension.Draws := by
  have hdraws : ∀ definition ∈ [people, letter], definition.Hooks Extension.Draws := by
    simp [people, letter, FieldDefinition.Hooks]
  refine ⟨⟨⟨hdraws _ (by simp), trivial, trivial, ⟨hdraws _ (by simp), trivial⟩, trivial⟩,
    trivial⟩, ?_⟩
  exact forall_mem_singleton.2 ⟨⟨hdraws _ (by simp), trivial⟩, trivial⟩

end Letters

open Letters in
/-- Three letters under the same name, each with its own address. -/
theorem letters_owned :
    (document.Every fun field _ => field.definition.Hooks Extension.Draws)
      ∧ ∃ root compiled m', rootFields (.ofDocument document []) document = .ok [root]
        ∧ Gives ((writer.compilerFor document []).compileRoot writer.schema root .full .schema)
          { next := 4 }
            (some compiled) m'
        ∧ Forall₂ (Visit.Owns ⟨document.declarations, []⟩)
            (((writer.compilerFor document []).rootVisits writer.schema root .full
              { next := 4 }).filter Visit.bindsArguments) compiled.constants.entries
        ∧ (compiled.constants.entries.map fun entry => entry.1.id).Nodup
        ∧ compiled.constants.entries.map (fun entry => entry.2.text)
          = ["\x7bto: \"you\", copies: []\x7d", "\x7bto: \"you\", copies: []\x7d",
            "\x7bto: null, copies: [1, 7]\x7d"] := by
  obtain ⟨root, hroots⟩ :
    ∃ root, rootFields (.ofDocument document []) document = .ok [root] := ⟨_, rfl⟩
  have htext :
      (outcome ((writer.compilerFor document []).compileRoot writer.schema root .full .schema)
        { next := 4 }).1.toOption.join.map (fun compiled => compiled.constants.entries.map
        fun entry => entry.2.text)
        = some ["\x7bto: \"you\", copies: []\x7d", "\x7bto: \"you\", copies: []\x7d",
          "\x7bto: null, copies: [1, 7]\x7d"] := by
    cases hroots
    decide +kernel
  obtain ⟨compiled, hcompiled, htext⟩ := Option.map_eq_some_iff.1 htext
  obtain ⟨m', h⟩ := exists_gives_iff.2 (Option.join_eq_some_iff.1 hcompiled)
  obtain ⟨-, howned, hnodup⟩ := arguments_owned writer document [] draws_document hroots root
    mem_cons_self .full _ compiled m' h
  exact ⟨draws_document, root, compiled, m', hroots, h, howned, hnodup, htext⟩

end Executor
end QueryProjection
