import QueryProjection.Proofs.Passes.Provided
import QueryProjection.Proofs.TwoPass.Compiles

/-!
# When the passes compile

Of a schema without extensions it can be told from the expanded tree alone whether a pass compiles a
field, whatever the response keys of the fields are and in whatever order they stand.

* `Expanded.Deferring P` says that `P` holds of the service fields that are left to the full pass;
* `Compiler.compiles_iff`: the full pass against the schema compiles a field exactly if all is well
  with it and with the fields below it, and the data pass does exactly if all is well with the plain
  fields and the service fields read their context by chains;
* `Compiler.recompilable`: over fetched data the full pass compiles a field exactly if all is well
  with all fields and the service fields can be separated from their context.

These are equivalences and not only conditions, because a rearranged document has to be refused
where the original is.  What is checked of a field refers to its definition and its arguments alone,
so it is kept by whatever keeps these; that keys and order play no part can be read off
`Expanded.Compiles` and `Expanded.Deferring`.
-/

namespace QueryProjection

open List

open Expanded FieldDefinition Resolve SelectedField

/-- `P` holds of the service fields below the field that are left to the full pass: those with no
service field above them. -/
inductive Expanded.Deferring (P : FieldDefinition → Prop) : Expanded → Prop
  | field {e : Expanded}
      (plain : e.field.definition.shape ≠ .leaf → ∀ fields, e.selection = .selects fields →
        ∀ f ∈ fields, f.field.definition.requiresService = false → Deferring P f)
      (service : e.field.definition.shape ≠ .leaf → ∀ fields, e.selection = .selects fields →
        ∀ f ∈ fields, f.field.definition.requiresService = true → P f.field.definition) :
      Deferring P e

namespace Expanded

variable {P : FieldDefinition → Prop} {e : Expanded} {fields : List Expanded}
  {checked : Nat → SelectedField → Prop} {depth : Nat} {mode : Mode}

theorem Deferring.imp {Q : FieldDefinition → Prop} (hPQ : ∀ d, P d → Q d) (h : e.Deferring P) :
    e.Deferring Q := by
  induction h with
  | field plain service ih =>
    exact .field ih fun hshape fields hsel f hf hservice =>
      hPQ _ (service hshape fields hsel f hf hservice)

theorem deferring_of_leaf (hshape : e.field.definition.shape = .leaf) : e.Deferring P :=
  .field (fun h => absurd hshape h) fun h => absurd hshape h

theorem deferring_iff (hshape : e.field.definition.shape ≠ .leaf)
    (hsel : e.selection = .selects fields) :
    e.Deferring P ↔ ∀ f ∈ fields, (f.field.definition.requiresService = false → f.Deferring P)
      ∧ (f.field.definition.requiresService = true → P f.field.definition) := by
  constructor
  · rintro ⟨plain, service⟩ f hf
    exact ⟨plain hshape fields hsel f hf, service hshape fields hsel f hf⟩
  · intro h
    refine .field (fun _ fields' hsel' f hf => ?_) fun _ fields' hsel' f hf => ?_
    · obtain rfl := ExpandedSelection.selects.inj (hsel.symm.trans hsel')
      exact (h f hf).1
    · obtain rfl := ExpandedSelection.selects.inj (hsel.symm.trans hsel')
      exact (h f hf).2

theorem Compiles.dataOnly (h : e.Compiles checked .full depth) :
    e.Compiles checked .dataOnly depth := by
  induction h with
  | field own selects below ih =>
    exact .field own selects fun hshape fields hsel f hf _ => ih hshape fields hsel f hf rfl

theorem compiles_iff (hshape : e.field.definition.shape ≠ .leaf)
    (hsel : e.selection = .selects fields) :
    e.Compiles checked mode depth ↔ checked depth e.field
      ∧ ∀ f ∈ fields, Compiler.defers mode f.field = false →
        f.Compiles checked mode (depth + 1) := by
  constructor
  · rintro ⟨own, -, below⟩
    exact ⟨own, below hshape fields hsel⟩
  · rintro ⟨own, below⟩
    refine .field own (fun _ => ⟨fields, hsel⟩) fun _ fields' hsel' => ?_
    obtain rfl := ExpandedSelection.selects.inj (hsel.symm.trans hsel')
    exact below

theorem compiles_of_leaf (hshape : e.field.definition.shape = .leaf) (own : checked depth e.field) :
    e.Compiles checked mode depth :=
  .field own (fun h => absurd hshape h) fun h => absurd hshape h

end Expanded

/-- The resolver of the field reads its context by chains of members. -/
def FieldDefinition.Chained (definition : FieldDefinition) : Prop :=
  definition.chains?.isSome = true

namespace FieldDefinition

variable {definition : FieldDefinition}

theorem Separable.chained (h : definition.Separable) : definition.Chained := by
  obtain ⟨chains, hchains, -⟩ := h
  rw [Chained, hchains]
  rfl

theorem separable_of_readsNothing (h : definition.readsNothing = true) : definition.Separable := by
  have hchains := readsNothing_iff.1 h
  refine ⟨[], hchains, ?_⟩
  exact Expr.dependencies_eq_nil_iff.1 ((chains?_eq_some_iff .operation).1 hchains)

theorem exists_serviceDependencies_iff (context : Expr) (path : FieldPath) :
    (∃ dependencies, Compiler.serviceDependencies definition context path = .ok dependencies)
      ↔ definition.Chained := by
  simp only [serviceDependencies_eq_ok_iff, Chained, Option.isSome_iff_exists]
  exact ⟨fun ⟨_, chains, h, _⟩ => ⟨chains, h⟩, fun ⟨chains, h⟩ => ⟨_, chains, h, rfl⟩⟩

end FieldDefinition

theorem forall₂_imp_of_mem {α β : Type} {R S : α → β → Prop} {as : List α} {bs : List β}
    (h : Forall₂ R as bs) (hRS : ∀ a ∈ as, ∀ b ∈ bs, R a b → S a b) : Forall₂ S as bs := by
  induction h with
  | nil => exact .nil
  | cons hab _ ih =>
    refine .cons (hRS _ mem_cons_self _ mem_cons_self hab) (ih fun a ha b hb => ?_)
    exact hRS a (mem_cons_of_mem _ ha) b (mem_cons_of_mem _ hb)

namespace Compiler

variable {compiler : Compiler} {I : Interpretation} {next : Nat} {root : Parameter} {scope : Scope}
  {m m' : Memory}

/-! ## Against the schema -/

theorem exists_compileSelection_iff {context : Expr} (hmode : scope.mode = .full)
    {K : Memory → Prop} (hm : K m) {fields : List Expanded}
    (hkept : ∀ f ∈ fields, ∀ {m compiled m'},
      Gives (compiler.compileExpanded context (scope.field f.field.responseKey) f) m compiled m' →
        K m → K m')
    {P : Expanded → Prop}
    (hfields : ∀ f ∈ fields, ∀ m, K m → ((∃ compiled m',
      Gives (compiler.compileExpanded context (scope.field f.field.responseKey) f) m compiled m')
        ↔ P f)) :
    (∃ selection m', Gives (compiler.compileSelection context scope (.selects fields))
      m selection m')
      ↔ ∀ f ∈ fields, P f := by
  have hdefers : ∀ f : Expanded, defers scope.mode f.field = false := by
    intro f
    rw [hmode]
    rfl
  constructor
  · rintro ⟨selection, m', h⟩ f hf
    obtain ⟨made, m₁, rfl, -, -, -, hmade⟩ := compileSelection_full (I := K) hmode hkept hm h
    obtain ⟨e, he, rfl⟩ := mem_map.1 hf
    obtain ⟨m₂, m₃, hm₂, hgives⟩ := hmade e he
    exact (hfields e.1 hf m₂ hm₂).1 ⟨e.2, m₃, hgives⟩
  · intro h
    refine exists_gives_compileSelection hm fun f hf m hm => ?_
    obtain ⟨compiled, m', hgives⟩ := (hfields f hf m hm).2 (h f hf)
    exact ⟨_, m', contribute_gives.2 (.inr ⟨hdefers f, compiled, hgives, rfl⟩),
      hkept f hf hgives hm⟩

section Schema

variable (hI : I.Regular) (hvalues : I.values = compiler.values) {e : Expanded}
  (hsimple : e.Every (SelectedField.Simple I.services next)) {context : Expr} {c : Parameter}

include hvalues hsimple

theorem deferring_of_compileExpanded (hmode : scope.mode = .dataOnly)
    (hobject : context.ty.IsObject)
    (hreads : context.ReadsOf c) (hc : c ∈ scope.parameters) (hnext : next ≤ m.next)
    {fetch : Compiled} (h : Gives (compiler.compileExpanded context scope e) m fetch m') :
    e.Deferring Chained ∧ (fetch.deferredServices = false ↔ e.Deferring fun _ => False) := by
  induction e using induct generalizing context c scope m m' fetch with
  | field e ih =>
    by_cases hshape : e.field.definition.shape = .leaf
    · obtain ⟨p, hp⟩ := placement_of_compileExpanded hvalues hsimple.toSound hobject.bare
        hreads hc hnext h
      obtain ⟨hleaf, -⟩ := (compileResolved_leaf hshape).1 hp.gives
      refine ⟨deferring_of_leaf hshape, fun _ => deferring_of_leaf hshape, fun _ => ?_⟩
      rw [hp.compiled_eq, hleaf]
    · obtain ⟨selected, p, q, hl⟩ := exists_layout hvalues hsimple hobject hreads hc hnext h hshape
      have hmode' : q.scope.mode = .dataOnly := hl.mode.trans hmode
      obtain ⟨_, contributions, m₁, heq, hfields, hassemble⟩ :=
        compileSelection_gives.1 hl.projection.gives
      cases heq
      have hmade := contributed_of_compileFields (hl.drawn hsimple)
        (Nat.le_succ_of_le hl.memory_le) hfields
      have hcontributed : Forall₂ (fun f c =>
          ((f.field.definition.requiresService = false → f.Deferring Chained)
            ∧ (f.field.definition.requiresService = true → f.field.definition.Chained))
          ∧ (c.defersServices = false
            ↔ (f.field.definition.requiresService = false → f.Deferring fun _ => False)
              ∧ (f.field.definition.requiresService = true → False))) selected contributions := by
        refine forall₂_imp_of_mem hmade fun f hf c _ hc => ?_
        have hservice : defers q.scope.mode f.field = f.field.definition.requiresService := by
          rw [hmode', defers, decide_eq_true rfl, Bool.true_and]
        rcases hc with ⟨hdefers, dependencies, hok, rfl⟩ | ⟨hdefers, compiled, m₂, m₃,
          hm₂, hgives, rfl⟩
        · rw [hservice] at hdefers
          have hchained := (exists_serviceDependencies_iff _ _).1 ⟨dependencies, hok⟩
          simp [hdefers, hchained, Contribution.defersServices]
        · rw [hservice] at hdefers
          have hty : (Expr.parameter q.element).ty.IsObject :=
            hl.element_ty hsimple (ne_nil_of_mem hf)
          have hmem : q.element ∈ (q.scope.field f.field.responseKey).parameters :=
            hl.projection.parameters ▸ mem_cons_self
          have hdata : (q.scope.field f.field.responseKey).mode = .dataOnly := hmode'
          have hbelow := ih selected hl.projection.selects f hf
            (hl.projection.simple hsimple f hf) hdata hty .parameter hmem hm₂ hgives
          simp [hdefers, hbelow, Contribution.defersServices]
      rw [deferring_iff hshape hl.projection.selects,
        deferring_iff hshape hl.projection.selects, hl.deferred]
      refine ⟨fun f hf => ?_, ?_⟩
      · obtain ⟨c, -, h⟩ := exists_mem_of_forall₂ hcontributed.flip hf
        exact h.1
      · obtain ⟨merged, -, hselection⟩ := assemble_gives.1 hassemble
        rw [hselection]
        show (contributions.foldl CompiledSelection.add {}).deferredServices = false ↔ _
        rw [deferredServices_foldl, any_eq_false]
        constructor
        · intro h f hf
          obtain ⟨c, hc, hfc⟩ := exists_mem_of_forall₂ hcontributed.flip hf
          exact hfc.2.1 (by simpa using h c hc)
        · intro h c hc
          obtain ⟨f, hf, hfc⟩ := exists_mem_of_forall₂ hcontributed hc
          simpa using hfc.2.2 (h f hf)

omit hvalues in
theorem exists_gives_of_checked (hobject : context.ty.IsObject) (hreads : context.ReadsOf c)
    (hc : c ∈ scope.parameters) (hroot : root ∈ scope.parameters)
    (h : e.Compiles (Checked compiler I root) scope.mode scope.depth)
    (hchained : scope.mode = .dataOnly → e.Deferring Chained) (m : Memory) :
    ∃ compiled m', Gives (compiler.compileExpanded context scope e) m compiled m' := by
  induction e using induct generalizing context c scope m with
  | field e ih =>
    obtain ⟨selections, hfield⟩ := hsimple.holds
    obtain ⟨hown, hselects, hbelow⟩ := h
    refine exists_gives_compileExpanded hsimple.toSound hobject hreads hc hroot hown ?_
    intro record n source inner m₁ hrecord hm₁ hunder hmode' hdepth' hscope
    by_cases hshape : e.field.definition.shape = .leaf
    · exact ⟨_, m₁, (compileResolved_leaf hshape).2 ⟨rfl, rfl⟩⟩
    obtain ⟨fields, hsel⟩ := hselects hshape
    obtain ⟨ty, hty⟩ := exists_objectTy? hshape hunder
    -- The scope of the selection.
    let element := placeholder e.field ty m₁.next
    let below := objectScope (withArguments inner (bound e.field record n)).2
      ⟨source, false, bound e.field record n⟩ element
    have hmode'' : below.mode = scope.mode := (mode_withArguments _ _).trans hmode'
    have hdepth'' : below.depth = scope.depth := by
      refine Eq.trans ?_ hdepth'
      cases record <;> rfl
    have hparameters : ∀ p ∈ scope.parameters, p ∈ below.parameters := by
      intro p hp
      refine mem_cons_of_mem _ ?_
      cases record with
      | none => exact hscope p hp
      | some values => exact mem_cons_of_mem _ (hscope p hp)
    have hselect : ∃ selection m', Gives (compiler.selectOf e (.parameter element) below)
        { m₁ with next := m₁.next + 1 } selection m' := by
      rw [selectOf, hsel]
      refine exists_gives_compileSelection (K := fun _ => True) trivial fun f hf m _ => ?_
      cases hdefers : defers below.mode f.field with
      | true =>
        obtain ⟨hdata, hservice⟩ := Bool.and_eq_true_iff.1 hdefers
        have hdata := hmode''.symm.trans (of_decide_eq_true hdata)
        obtain ⟨dependencies, hok⟩ := (exists_serviceDependencies_iff (.parameter element)
          (below.path.child f.field.responseKey)).2
            (((deferring_iff hshape hsel).1 (hchained hdata) f hf).2 hservice)
        exact ⟨_, m, contribute_gives.2 (.inl ⟨hdefers, dependencies, hok, rfl, rfl⟩), trivial⟩
      | false =>
        have hobject' : (Expr.parameter element).ty.IsObject :=
          under_objectTy? (outputType?_of_selects hsimple.toSound hsel (ne_nil_of_mem hf))
            hunder hty
        have hcompiles : f.Compiles (Checked compiler I root)
            (below.field f.field.responseKey).mode (below.field f.field.responseKey).depth := by
          show f.Compiles _ below.mode (below.depth + 1)
          rw [hmode'', hdepth'']
          exact hbelow hshape fields hsel f hf (hmode'' ▸ hdefers)
        have hchained' : (below.field f.field.responseKey).mode = .dataOnly →
            f.Deferring Chained := by
          intro hdata
          have hdata : below.mode = .dataOnly := hdata
          rw [hdata, defers, decide_eq_true rfl, Bool.true_and] at hdefers
          exact ((deferring_iff hshape hsel).1 (hchained (hmode'' ▸ hdata)) f hf).1 hdefers
        have helement : element ∈ (below.field f.field.responseKey).parameters := mem_cons_self
        have hroot' : root ∈ (below.field f.field.responseKey).parameters := hparameters root hroot
        obtain ⟨compiled, m', hgives⟩ := ih fields hsel f hf
          (hsimple.of_selects hsel hf) hobject' .parameter helement hroot' hcompiles hchained' m
        exact ⟨_, m', contribute_gives.2 (.inr ⟨hdefers, compiled, hgives, rfl⟩), trivial⟩
    obtain ⟨selection, m', hselect⟩ := hselect
    exact ⟨_, m', (compileResolved_iff hshape hfield.extensions).2
      ⟨ty, selection, hty, hselect, rfl⟩⟩

include hI

/-- **Against the schema** a field is compiled exactly if all is well with the fields that the pass
looks at, and the data pass can tell what the service fields read. -/
theorem compiles_iff (hobject : context.ty.IsObject) (hreads : context.ReadsOf c)
    (hholds : scope.Holds next root c) (hroot : root ∈ scope.parameters) (hnext : next ≤ m.next) :
    (∃ compiled m', Gives (compiler.compileExpanded context scope e) m compiled m')
      ↔ e.Compiles (Checked compiler I root) scope.mode scope.depth
        ∧ (scope.mode = .dataOnly → e.Deferring Chained) := by
  constructor
  · rintro ⟨compiled, m', h⟩
    exact ⟨compiles_of_bare hI hvalues hsimple.toSound hobject.bare hreads hholds hnext h,
      fun hmode =>
      (deferring_of_compileExpanded hvalues hsimple hmode hobject hreads hholds.mem hnext h).1⟩
  · rintro ⟨hcompiles, hchained⟩
    exact exists_gives_of_checked hsimple hobject hreads hholds.mem hroot hcompiles hchained m

end Schema

/-! ## Over fetched data -/

section Fetched

variable (hI : I.Regular) (hvalues : I.values = compiler.values) {e : Expanded}
  (hsimple : e.Every (SelectedField.Simple I.services next))

include hI hvalues hsimple

/-- **A service field over fetched data** is compiled exactly if all is well with it and it can be
separated from its context. -/
theorem service_compiles_iff (hservice : e.field.definition.requiresService = true) {el : Parameter}
    (hshape : el.ty.shape?.isSome = true) (hchanged : scope.contextChanged = true)
    (hmode : scope.mode = .full) (hid : next ≤ el.id) (hholds : scope.Holds next root el)
    (hroot : root ∈ scope.parameters) (hnext : next ≤ m.next)
    (hcarries : ∀ chains, e.field.definition.chains? = some chains →
      Carries el (m.fetched.get scope.path) chains) :
    (∃ compiled m', Gives (compiler.compileExpanded (.parameter el) scope e) m compiled m')
      ↔ e.field.definition.Separable
        ∧ e.Compiles (Checked compiler I root) .full scope.depth := by
  have hshape : (Expr.parameter el).ty.shape?.isSome = true := hshape
  obtain ⟨selections, hfield⟩ := hsimple.holds
  have hcarries' : ∀ chains, e.field.definition.resolve.dependencies
      (.identity e.field.definition.context) scope.path = .ok chains →
        Carries el (m.fetched.get scope.path) chains := fun chains hchains =>
    hcarries chains ((chains?_eq_some_iff scope.path).2 hchains)
  have hseparable : (∃ resolver, substituteDependencies e.field.definition
      (m.fetched.get scope.path) (.parameter el) scope.path = .ok resolver)
      ↔ e.field.definition.Separable :=
    exists_substituteDependencies_iff hfield.definition hid hcarries
  -- Below the field there is no fetched data any more.
  have hunder : ∀ {resolver : Expr}, substituteDependencies e.field.definition
        (m.fetched.get scope.path) (.parameter el) scope.path = .ok resolver →
      ∀ record, Ty.Under Ty.IsObject (place e.field.definition (.parameter el)
        ((bound e.field record m.next).map Prod.fst) resolver).ty
        e.field.definition.resolve.ty := by
    intro resolver hsubstitute record
    rw [ty_substituted hfield.definition hsubstitute hcarries' (ty_bound e.field record m.next)]
    exact .refl (fun name => ⟨name, rfl⟩) _
  constructor
  · rintro ⟨compiled, m', h⟩
    obtain ⟨hresolver, hcompiles⟩ := compiles_of_service hI hvalues hsimple.toSound hservice hshape
      hchanged hholds hnext (fun hok _ record => hunder hok record) h
    exact ⟨hseparable.1 hresolver, hmode ▸ hcompiles⟩
  · rintro ⟨hsep, hcompiles⟩
    obtain ⟨resolver, hsubstitute⟩ := hseparable.2 hsep
    obtain ⟨hown, hselects, hbelow⟩ := hcompiles
    obtain ⟨record, hrecord⟩ := Option.isSome_iff_exists.1 hown.record
    obtain ⟨chains, hchains, hchainsOk, hleft⟩ := substituteDependencies_eq_ok hsubstitute
    have hdangling : dangling? (place e.field.definition (.parameter el)
        ((bound e.field record m.next).map Prod.fst) resolver) scope
        ((bound e.field record m.next).map Prod.fst) = none := by
      refine dangling?_eq_none_iff.2 fun p hp => ?_
      rcases free_of_place hp with hp | hp | ⟨hp, hcontext, hargument⟩
      · exact .inl (Expr.mem_freeParameters_parameter.1 hp ▸ hholds.mem)
      · exact .inr hp
      · refine .inl ?_
        rcases free_of_substituteChains hchainsOk hp with hp | rfl
        · exact hown.mem_of_free hrecord hroot hp hcontext fun hsome => hargument (by
            rw [map_fst_bound, Option.isSome_map]
            exact hsome)
        · exact hholds.mem
    obtain ⟨compiled, m', hgives⟩ := exists_gives_compileResolved hI hvalues hsimple.toSound hmode
      hown.window hselects hrecord (m := { m with next := m.next + record.toList.length }) rfl
      (hunder hsubstitute record)
      (fun hshape' fields hsel f hf {_ _ _} hmode' hdepth' hobject' hreads' hc' hinner m =>
        exists_gives_of_compiles hI hvalues (hsimple.of_selects hsel hf).toSound hmode'
          hobject' hreads' hc'
          (hinner root hroot) (hdepth' ▸ hbelow hshape' fields hsel f hf rfl) m)
    exact ⟨compiled, m', (compileExpanded_record hshape).2 (compileField_gives.2 ⟨hown.depth, _, _,
      (resolve_service hservice hshape hchanged).2 ⟨hown.known, record, resolver, hrecord,
        hsubstitute, rfl, hdangling, rfl⟩, hgives⟩)⟩

end Fetched

/-- Where the data pass has compiled a field, the full pass over what it has fetched compiles it
exactly if all is well with it and with the fields below it, and the service fields can be separated
from their context. -/
def Recompilable (compiler : Compiler) (I : Interpretation) (next : Nat) (root : Parameter)
    (e : Expanded) : Prop :=
  ∀ {context : Expr} {c : Parameter} {scope : Scope} {m m' : Memory} {fetch : Compiled},
    Gives (compiler.compileExpanded context scope e) m fetch m' → scope.mode = .dataOnly →
    context.ty.IsObject → context.ReadsOf c → scope.Holds next root c → next ≤ m.next →
  ∀ {source : Expr} {c' : Parameter} {scope' : Scope} {n : Memory},
    scope'.mode = .full → scope'.path = scope.path → scope'.depth = scope.depth →
    source.ty = fetch.expression.ty → scope'.Holds next root c' → root ∈ scope'.parameters →
    next ≤ n.next → Memory.SameInside scope.path n m' →
  ((∃ compiled n', Gives (compileResolved e.field (compiler.selectOf e)
    ⟨source, true, none⟩ scope') n
      compiled n')
    ↔ e.Compiles (SelectedField.Checked compiler I root) .full scope.depth
      ∧ e.Deferring FieldDefinition.Separable)

/-- All is well with a field that is selected of fetched data: with the field and the fields below
it, and the service fields can be separated from their context. -/
def Rereadable (compiler : Compiler) (I : Interpretation) (root : Parameter) (depth : Nat)
    (f : Expanded) : Prop :=
  f.Compiles (Checked compiler I root) .full depth
    ∧ (f.field.definition.requiresService = false → f.Deferring Separable)
    ∧ (f.field.definition.requiresService = true → f.field.definition.Separable)

section Below

variable (hI : I.Regular) (hvalues : I.values = compiler.values) {selected : List Expanded}
  {element : Parameter} {selection : CompiledSelection}

include hI hvalues

/-- **The fields of an object of which nothing was fetched** are service fields that read nothing of
it.  They are compiled exactly if all is well with each of them. -/
theorem idle_compiles_iff (hidle : (ExpandedSelection.selects selected).idle = true)
    (hsimple : ∀ f ∈ selected, f.Every (SelectedField.Simple I.services next))
    (hobject : selected ≠ [] → (Expr.parameter element).ty.IsObject) (hmode : scope.mode = .full)
    (hholds : scope.Holds next root element) (hroot : root ∈ scope.parameters)
    (hnext : next ≤ m.next) :
    (∃ selection m', Gives (compiler.compileSelection (.parameter element) scope
      (.selects selected)) m
        selection m')
      ↔ ∀ f ∈ selected, Rereadable compiler I root (scope.depth + 1) f := by
  have hdrawn : ∀ f ∈ selected, compiler.Draws Ty.IsRecord f := fun f hf =>
    drawn_of_compileExpanded ((hsimple f hf).imp fun _ _ h => h.draws)
  refine exists_compileSelection_iff (K := fun m => next ≤ m.next) hmode hnext
    (fun f hf {_ _ _} hc hm => Nat.le_trans hm (hdrawn f hf hc).1.next) fun f hf m₁ hm₁ => ?_
  have hholdsField : (scope.field f.field.responseKey).Holds next root element :=
    ⟨hholds.mem, hholds.old⟩
  have hrootField : root ∈ (scope.field f.field.responseKey).parameters := hroot
  have hmodeField : (scope.field f.field.responseKey).mode = .full := hmode
  obtain ⟨hservice, hnothing⟩ := Bool.and_eq_true_iff.1 (all_eq_true.1 hidle f hf)
  rw [compiles_iff hI hvalues (hsimple f hf)
    (hobject (ne_nil_of_mem hf)) .parameter hholdsField hrootField hm₁, hmodeField]
  refine and_congr_right fun _ => iff_of_true (fun h => by cases h) ⟨fun hplain => ?_, fun _ =>
    FieldDefinition.separable_of_readsNothing hnothing⟩
  rw [hservice] at hplain
  cases hplain

variable
  (hprovides : Provides compiler I.services next selected element scope m m' selection)
  (hholds : scope.Holds next root element) {el : Parameter} {scope' : Scope} {n : Memory}
  (hrereads : Rereads next selection.fields scope m' el scope' n)
  (hdepth : scope'.depth = scope.depth)
  (hholds' : scope'.Holds next root el) (hroot : root ∈ scope'.parameters)

include hprovides hholds hrereads hdepth hholds' hroot

/-- **A field of a record that was fetched** is compiled exactly if all is well with it, and the
service fields can be separated from their context. -/
theorem member_compiles_iff {f : Expanded} (hf : f ∈ selected)
    (ih : Recompilable compiler I next root f) :
    (∃ compiled n', Gives (compiler.compileExpanded (.parameter el)
      (scope'.field f.field.responseKey) f) n
        compiled n')
      ↔ Rereadable compiler I root (scope.depth + 1) f := by
  have hshape : (Expr.parameter el).ty.shape?.isSome = true := by rw [Expr.ty, hrereads.ty]; rfl
  have hn : next ≤ n.next := Nat.le_trans hrereads.old (Nat.le_of_lt hrereads.new)
  have hholdsField : (scope'.field f.field.responseKey).Holds next root el :=
    ⟨hholds'.mem, hholds'.old⟩
  have hrootField : root ∈ (scope'.field f.field.responseKey).parameters := hroot
  have hdepthField : (scope'.field f.field.responseKey).depth = scope.depth + 1 :=
    congrArg (· + 1) hdepth
  have hchanged : (scope'.field f.field.responseKey).contextChanged = true := hrereads.changed
  have hmode : (scope'.field f.field.responseKey).mode = .full := hrereads.mode
  unfold Rereadable
  cases hservice : f.field.definition.requiresService with
  | true =>
    rw [service_compiles_iff hI hvalues (hprovides.simple f hf) hservice hshape hchanged
      hmode hrereads.old hholdsField hrootField hn, hdepthField]
    · simp [and_comm]
    · intro chains hchains
      obtain ⟨_, hchains', hfound⟩ := hprovides.service hrereads hf hservice
      obtain rfl := Option.some.inj (hchains.symm.trans hchains')
      intro d hd
      obtain ⟨key, hmember, -⟩ := hfound d hd
      exact ⟨key, hmember⟩
  | false =>
    obtain ⟨fetch, m₁, m₂, spelling, hm₁, hfetch, -, -, hback, hpath, hsame⟩ :=
      hrereads.plain hprovides.drawn hprovides.selects hprovides.mode
        (hprovides.lastIn hf) hservice id
    have hm₁ := Nat.le_trans hprovides.numbered hm₁
    have hholds₁ : (scope.field f.field.responseKey).Holds next root element :=
      ⟨hholds.mem, hholds.old⟩
    have hobject : (Expr.parameter element).ty.IsObject := hprovides.object
    have hdata : (scope.field f.field.responseKey).mode = .dataOnly := hprovides.mode
    have hsource :
        (Expr.member (.parameter el) spelling fetch.expression.ty).ty = fetch.expression.ty := rfl
    -- The data pass has checked the field already.
    obtain ⟨hown, -, -⟩ := compiles_of_bare hI hvalues (hprovides.simple f hf).toSound hobject.bare
      .parameter hholds₁ hm₁ hfetch
    have hiff := ih hfetch hdata hobject .parameter hholds₁ hm₁ hmode hpath hdepthField
      hsource hholdsField hrootField hn hsame
    have hresolve : ∀ compiled n', Gives (compiler.compileExpanded (.parameter el)
          (scope'.field f.field.responseKey) f) n compiled n'
        ↔ Gives (compileResolved f.field (compiler.selectOf f)
            ⟨.member (.parameter el) spelling fetch.expression.ty, true, none⟩
            (scope'.field f.field.responseKey)) n compiled n' := by
      intro compiled n'
      refine ⟨compileResolved_of_readBack hshape hback, fun hc => ?_⟩
      · rw [compileExpanded_record hshape, compileField_gives]
        refine ⟨?_, _, n, resolve_gives.2 (.inl ⟨_, hback, rfl, rfl⟩), hc⟩
        rw [hdepthField]
        exact hown.depth
    simp only [hresolve, hiff]
    simp [Scope.field]

theorem members_compile_iff (ih : ∀ f ∈ selected, Recompilable compiler I next root f) :
    (∃ selection n', Gives (compiler.compileSelection (.parameter el) scope' (.selects selected))
      n selection n')
      ↔ ∀ f ∈ selected, Rereadable compiler I root (scope.depth + 1) f := by
  refine exists_compileSelection_iff
    (K := fun n₁ => el.id < n₁.next ∧ Memory.SameInside scope.path n₁ m') hrereads.mode
    ⟨hrereads.new, hrereads.fetched⟩
    (fun f hf {_ _ _} hc hn => hrereads.kept (hprovides.drawn f hf hc).1 hn) fun f hf n₁ hn₁ => ?_
  exact member_compiles_iff hI hvalues hprovides hholds { hrereads with new := hn₁.1, fetched :=
    hn₁.2 } hdepth hholds' hroot hf (ih f hf)

end Below

section Recompiled

variable {e : Expanded} {context : Expr} {compiled : Compiled} {selected : List Expanded}

theorem Layout.Of.holds {p : Placement} {q : Projection}
    (hl : Layout.Of I next compiler e context scope m m' compiled selected p q) {c : Parameter}
    (hholds : scope.Holds next root c) : q.scope.Holds next root q.element := by
  obtain ⟨_, hholdsOwn⟩ := holds_ownScope hholds fun q hq => (hl.placement.own q hq).1
  exact hholdsOwn.bind (hl.projection.number.symm ▸ hl.memory_le)
    (le_id_bound (Nat.le_trans hl.numbered hl.placement.number)) hl.projection.parameters

/-- What the full pass finds of the type of the fetched data. -/
theorem Layout.Of.exists_objectTy? {p : Placement} {q : Projection}
    (hl : Layout.Of I next compiler e context scope m m' compiled selected p q)
    (hsimple : e.Every (SelectedField.Simple I.services next)) (hobject : context.ty.IsObject)
    (hshape : e.field.definition.shape ≠ .leaf) :
    ∃ ty, Compiler.objectTy? e.field.definition.shape compiled.expression.ty = some ty := by
  cases hempty : q.selection.fields.isEmpty with
  | true =>
    exact Compiler.exists_objectTy? hshape (hl.under hempty (fun name => ⟨name, rfl⟩) hobject)
  | false => exact ⟨_, hl.objectTy? hsimple hshape hempty⟩

variable (hshape : e.field.definition.shape ≠ .leaf) (hsel : e.selection = .selects selected)

include hshape hsel

/-- Without extensions a field is compiled over fetched data exactly if its selection is. -/
theorem exists_compileResolved_iff (hextensions : e.field.definition.extensions = [])
    {source : Expr} {ty : Ty} (hty : objectTy? e.field.definition.shape source.ty = some ty) :
    (∃ compiled m', Gives (compileResolved e.field (compiler.selectOf e) ⟨source, true, none⟩
        scope) m compiled m')
      ↔ ∃ selection m', Gives (compiler.compileSelection
          (.parameter (placeholder e.field ty m.next))
          (objectScope scope ⟨source, true, none⟩ (placeholder e.field ty m.next))
          (.selects selected)) { m with next := m.next + 1 } selection m' := by
  simp only [compileResolved_iff hshape hextensions]
  constructor
  · rintro ⟨_, m', ty₁, selection, hty₁, hselect, -⟩
    obtain rfl := Option.some.inj (hty.symm.trans hty₁)
    exact ⟨selection, m', (selectOf_gives hsel).1 hselect⟩
  · rintro ⟨selection, m', hselect⟩
    exact ⟨_, m', ty, selection, hty, (selectOf_gives hsel).2 hselect, rfl⟩

theorem rereadable_iff {depth : Nat} (hown : Checked compiler I root depth e.field) :
    e.Compiles (Checked compiler I root) .full depth ∧ e.Deferring Separable
      ↔ ∀ f ∈ selected, Rereadable compiler I root (depth + 1) f := by
  rw [Expanded.compiles_iff hshape hsel, Expanded.deferring_iff hshape hsel]
  exact ⟨fun h f hf => ⟨h.1.2 f hf rfl, h.2 f hf⟩,
    fun h => ⟨⟨hown, fun f hf _ => (h f hf).1⟩, fun f hf => (h f hf).2⟩⟩

end Recompiled

/-- **Over fetched data** a field is compiled exactly if all is well with it and with the fields
below it, and the service fields can be separated from their context. -/
theorem recompilable (hI : I.Regular) (hvalues : I.values = compiler.values) {e : Expanded}
    (hsimple : e.Every (SelectedField.Simple I.services next)) (hunambiguous : e.Unambiguous) :
    Recompilable compiler I next root e := by
  induction e using Expanded.induct with
  | field e ih =>
    intro context c scope m m' fetch hfetch hmode hobject hreads hholds hnext source c'
      scope' n hfull hpath hdepth hty hholds' hroot hn hsame
    obtain ⟨selections, hfield⟩ := hsimple.holds
    obtain ⟨hown, -, -⟩ :=
      compiles_of_bare hI hvalues hsimple.toSound hobject.bare hreads hholds hnext hfetch
    by_cases hshape : e.field.definition.shape = .leaf
    · refine iff_of_true ⟨_, n, (compileResolved_leaf hshape).2 ⟨rfl, rfl⟩⟩ ?_
      exact ⟨Expanded.compiles_of_leaf hshape hown, Expanded.deferring_of_leaf hshape⟩
    obtain ⟨selected, p, q, hl⟩ := exists_layout hvalues hsimple hobject hreads hholds.mem
      hnext hfetch hshape
    have hsel := hl.projection.selects
    obtain ⟨ty, hty'⟩ := hl.exists_objectTy? hsimple hobject hshape
    rw [← hty] at hty'
    let el := placeholder e.field ty n.next
    let inner := objectScope scope' ⟨source, true, none⟩ el
    have hnone : ∀ r ∈ ([] : List Parameter), next ≤ r.id := forall_mem_nil _
    have hholdsEl : inner.Holds next root el := hholds'.bind hn hnone rfl
    have hrootEl : root ∈ inner.parameters := mem_cons_of_mem _ hroot
    rw [exists_compileResolved_iff hshape hsel hfield.extensions hty',
      rereadable_iff hshape hsel hown]
    cases hempty : q.selection.fields.isEmpty with
    | true =>
      -- Nothing was fetched but the objects themselves.
      have hunder := hl.under hempty (R := Ty.IsObject) (fun name => ⟨name, rfl⟩) hobject
      rw [hl.isEmpty hsimple hmode] at hempty
      rw [← hdepth]
      exact idle_compiles_iff hI hvalues hempty (hl.projection.simple hsimple) (fun hne =>
        under_objectTy? (outputType?_of_selects hsimple.toSound hsel hne) (hty ▸ hunder) hty')
          hfull hholdsEl
        hrootEl (Nat.le_succ_of_le hn)
    | false =>
      have hne : selected ≠ [] := by
        rintro rfl
        rw [hl.isEmpty hsimple hmode] at hempty
        cases hempty
      have hrereads :
          Rereads next q.selection.fields q.scope m' el inner { n with next := n.next + 1 } :=
        { ty := Option.some.inj (hty'.symm.trans (hty ▸ hl.objectTy? hsimple hshape hempty))
          old := hn
          new := Nat.lt_succ_self _
          mode := hfull
          path := hpath.trans hl.path.symm
          changed := Bool.or_true _
          fetched := hl.path ▸ hsame }
      rw [← hl.depth]
      exact members_compile_iff hI hvalues (hl.provides hsimple hunambiguous hmode hne)
        (hl.holds hholds) hrereads (hdepth.trans hl.depth.symm) hholdsEl hrootEl fun f hf =>
          ih selected hsel f hf (hl.projection.simple hsimple f hf)
            (hunambiguous.of_selects hsel hf)

end Compiler
end QueryProjection
