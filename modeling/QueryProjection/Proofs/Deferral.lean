import QueryProjection.Proofs.Compile.Visits

/-!
# What is left to the full pass

The data pass leaves out the fields that need a service, and what it compiles says whether it left
out any.  The flag is handed up from field to field: through the fields of fragments, which are
moved to where they are spread, through selections of which nothing is left, and past fields whose
entry in a selection is taken by a later one.  In the end it says whether the pass got to a field
that needs a service: `Compiler.deferral_reported`.

The flag is compared with `Expanded.reached`, the fields that a pass gets to, and not with all
fields of the tree.  Below a service field there may be others, which the pass never sees; and a
field whose entry is taken was seen, so that it counts although nothing of it is left.  In full mode
no field is left out, and the same equation says that the flag is not set.
-/

namespace QueryProjection

open List
namespace Compiler

variable {compiler : Compiler} {s : Situation} {m m' : Memory}

theorem any_defers_full (fields : List SelectedField) : fields.any (defers .full) = false :=
  any_eq_false.2 fun _ _ => Bool.false_ne_true

theorem deferredServices_of_assemble {fields : List Expanded}
    (hbelow : ∀ f ∈ fields, ∀ {s : Situation} {compiled m'}, defers s.scope.mode f.field = false →
      Gives (compiler.compileExpanded s.context s.scope f) s.memory compiled m' →
        compiled.deferredServices = (f.reached s.scope.mode).any (defers s.scope.mode))
    {contributions : List Contribution} {selection : CompiledSelection} {m₁ : Memory}
    (h : Gives (compiler.compileFields s.context s.scope fields) s.memory contributions m₁)
    (hassemble : Gives (assemble contributions) m₁ selection m') :
    selection.deferredServices = (Expanded.reachedAll s.scope.mode fields).any
      (defers s.scope.mode) := by
  have hflag : selection.deferredServices = contributions.any Contribution.defersServices := by
    obtain ⟨merged, -, rfl⟩ := assemble_gives.1 hassemble
    exact deferredServices_foldl contributions
  rw [hflag]
  clear hassemble hflag
  induction fields generalizing s contributions with
  | nil =>
    obtain ⟨rfl, -⟩ := compileFields_nil_gives.1 h
    rfl
  | cons f rest ih =>
    obtain ⟨c, m₂, others, hc, hothers, rfl⟩ := compileFields_cons_gives.1 h
    obtain ⟨hf, hrest⟩ := forall_mem_cons.1 hbelow
    have hown : c.defersServices = (f.reached s.scope.mode).any (defers s.scope.mode) := by
      rcases contribute_gives.1 hc with ⟨hdefers, _, -, rfl, -⟩ | ⟨hdefers, compiled,
        hcompiled, rfl⟩
      · rw [Expanded.reached_eq, any_cons, hdefers]
        rfl
      · exact hf (s := s.child f.field) hdefers hcompiled
    rw [any_cons, Expanded.reachedAll, any_append, hown,
      ih (s := { s with memory := m₂ }) hrest hothers]

variable {compiled : Compiled}

/-- A field that is compiled reports the fields that are left to the full pass among those that the
pass gets to. -/
theorem deferredServices_of_compileExpanded {e : Expanded}
    (hdefers : defers s.scope.mode e.field = false)
    (h : Gives (compiler.compileExpanded s.context s.scope e) s.memory compiled m') :
    compiled.deferredServices = (e.reached s.scope.mode).any (defers s.scope.mode) := by
  induction e using Expanded.induct generalizing s compiled m' with
  | field e ih =>
    obtain ⟨resolved, m₁, -, hopens⟩ := compileExpanded_opens h
    rw [Expanded.reached_eq, any_cons, hdefers, Bool.false_or, Bool.false_or]
    obtain ⟨hshape, -, -, hflag⟩ |
      ⟨hshape, inner, selection, fields, contributions, m₂, m₃, -, hmode, hsel, hfields, hassemble,
        -, hflag⟩ := hopens
    · rw [hflag, hshape]
      rfl
    · rw [hflag, deferredServices_of_assemble (fun f hf => ih fields hsel f hf) hfields hassemble,
        hmode, hsel]
      simp only [hshape, decide_false, Bool.false_eq_true, if_false, ExpandedSelection.reached]

theorem deferredServices_full {schema : Schema} {root : RootField} {source : RootSource}
    (h : Gives (compiler.compileRoot schema root .full source) m (some compiled) m') :
    compiled.deferredServices = false := by
  cases source with
  | schema =>
    obtain ⟨_, ⟨⟩, h⟩ := compileRoot_schema_gives.1 h
    have hflag := deferredServices_of_compileExpanded
      (s := ⟨.parameter schema.context, rootScope schema root .full, m⟩) rfl h
    exact hflag.trans (any_defers_full _)
  | materialized data =>
    obtain ⟨_, ⟨⟩, h⟩ := compileRoot_materialized_gives.1 h
    obtain ⟨-, -, -, hflag⟩ | ⟨-, inner, selection, m₁, -, hmode, hselect, -, hflag⟩ :=
      compileResolved_opens h
    · exact hflag
    · obtain ⟨fields, contributions, m₂, -, hfields, hassemble⟩ := compileSelection_gives.1 hselect
      have hselection := deferredServices_of_assemble
        (fun f _ {_ _ _} hf hgives => deferredServices_of_compileExpanded hf hgives)
          hfields hassemble
      rw [hflag, hselection, show inner.scope.mode = .full from hmode]
      exact any_defers_full _

/-- **Deferral is reported exactly.**  The data pass says that services were deferred if and only if
it got to a field that needs one.  The full pass never does, whether it works against the schema or
over fetched data. -/
theorem deferral_reported (compiler : Compiler) (schema : Schema) (root : RootField) (m m' : Memory)
    (compiled : Compiled) :
    (Gives (compiler.compileRoot schema root .dataOnly .schema) m (some compiled) m' →
      (compiled.deferredServices = true
        ↔ ∃ f ∈ root.field.reached .dataOnly, f.definition.requiresService = true))
    ∧ ∀ source, Gives (compiler.compileRoot schema root .full source) m (some compiled) m' →
      compiled.deferredServices = false := by
  refine ⟨fun h => ?_, fun source h => deferredServices_full h⟩
  have h := compileRoot_schema_gives.1 h
  split at h
  · exact absurd h.1 nofun
  · rename_i hdefers
    obtain ⟨_, ⟨⟩, h⟩ := h
    have hflag := deferredServices_of_compileExpanded
      (s := ⟨.parameter schema.context, rootScope schema root .dataOnly,
      m⟩) (Bool.eq_false_iff.2 hdefers) h
    rw [hflag]
    exact any_eq_true

end Compiler

/-! People with a friend, whose note is a greeting by a service in the fragment and a name after
it. -/

namespace Notes

def context : Parameter := ⟨0, "ctx", .object "Query"⟩

def person : Parameter := ⟨1, "person", .object "Person"⟩

def noArguments : Parameter := ⟨2, "args", .record []⟩

def people : FieldDefinition :=
  ⟨"people", none, context, .member (.parameter context) "people" (.list (.object "Person")),
    noArguments, [], [], []⟩

def friend : FieldDefinition :=
  ⟨"friend", none, person, .member (.parameter person) "friend" (.object "Person"),
    noArguments, [], [], []⟩

def name : FieldDefinition :=
  ⟨"name", none, person, .member (.parameter person) "name" .string, noArguments, [], [], []⟩

def greeting : FieldDefinition :=
  ⟨"greeting", none, person, .serviceCall "Greeter" "greet"
    [.member (.parameter person) "nick" .string] .string, noArguments, [], ["Greeter"], []⟩

def schema : Schema := ⟨"Query", context, [], 3⟩

def compiler : Compiler := ⟨⟨[], []⟩, {}⟩

/-- A query for `people { friend { ...card note: name } }`. -/
def document : Document where
  selections := [.field ⟨"people", people, []⟩ []
    [.field ⟨"friend", friend, []⟩ [] [.spread "card" [], .field ⟨"note", name, []⟩ [] []]]]
  fragments := [("card", ⟨"card", "Person", [.field ⟨"note", greeting, []⟩ [] []]⟩)]

/-- The field of the operation, expanded. -/
def root : RootField :=
  ⟨"people", .mk ⟨"people", people, []⟩ .direct [] fun _ => .selects
    [.mk ⟨"friend", friend, []⟩ .direct [] fun _ => .selects
      [.mk ⟨"note", greeting, []⟩ (.fragment "card" "Person") ["card"] fun _ => .selects [],
        .mk ⟨"note", name, []⟩ .direct [] fun _ => .selects []]]⟩

end Notes

open Notes in
/-- The greeting is reported although the name takes its place. -/
theorem notes_reported :
    Compiler.rootFields (.ofDocument document []) document = .ok [root]
      ∧ (∃ compiled m', Gives (compiler.compileRoot schema root .dataOnly .schema) { next := 3 }
        (some compiled) m'
          ∧ compiled.deferredServices = true)
      ∧ ∃ compiled m', Gives (compiler.compileRoot schema root .full .schema) { next := 3 }
        (some compiled) m'
          ∧ compiled.deferredServices = false := by
  have hcompiles : ∀ mode, (outcome (compiler.compileRoot schema root mode .schema)
      { next := 3 }).1.toOption.join.isSome = true := by
    rintro (_ | _) <;> decide +kernel
  have hreached : root.field.reached .dataOnly
      = [⟨"people", people, []⟩, ⟨"friend", friend, []⟩, ⟨"note", greeting, []⟩,
        ⟨"note", name, []⟩] := rfl
  refine ⟨rfl, ?_, ?_⟩
  · obtain ⟨compiled, hcompiled⟩ := Option.isSome_iff_exists.1 (hcompiles .dataOnly)
    obtain ⟨m', h⟩ := exists_gives_iff.2 (Option.join_eq_some_iff.1 hcompiled)
    exact ⟨compiled, m', h, ((Compiler.deferral_reported compiler schema root _ _ compiled).1 h).2
      ⟨⟨"note", greeting, []⟩, hreached ▸ by simp, rfl⟩⟩
  · obtain ⟨compiled, hcompiled⟩ := Option.isSome_iff_exists.1 (hcompiles .full)
    obtain ⟨m', h⟩ := exists_gives_iff.2 (Option.join_eq_some_iff.1 hcompiled)
    exact ⟨compiled, m', h, (Compiler.deferral_reported compiler schema root _ _ compiled).2
      .schema h⟩

end QueryProjection
