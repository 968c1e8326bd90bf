import QueryProjection.Proofs.Passes.Once
import QueryProjection.Proofs.TwoPass.Refetch

/-!
# What the data pass provides

The data pass makes a record of the fields that are selected of an object.  If no two of them have
the same response key, the full pass finds every plain field there under its key, and what every
service field reads under the keys that are remembered for it.

* `Compiler.Provides` says that the data pass has made a record of a selection;
* `Compiler.isEmpty_eq_idle`: whether there is something in the record can be told from the fields;
* `Compiler.Provides.service` is what the full pass finds there for a service field.
-/

namespace QueryProjection

open List

namespace FieldDefinition

variable {definition : FieldDefinition}

theorem readsNothing_iff : definition.readsNothing = true ↔ definition.chains? = some [] := by
  unfold readsNothing
  cases definition.chains? with
  | none => simp
  | some chains => simp

theorem serviceDependencies_eq_ok_iff {context : Expr} {path : FieldPath}
    {dependencies : List (String × Expr)} :
    Compiler.serviceDependencies definition context path = .ok dependencies
      ↔ ∃ chains, definition.chains? = some chains
        ∧ dependencies = chains.map fun d => (d.1,
          d.2.chain.replace (.identity d.2.root) context) := by
  simp only [chains?_eq_some_iff path]
  constructor
  · intro h
    obtain ⟨chains, hchains, hok⟩ := bind_eq_ok_iff.1 h
    exact ⟨chains, hchains, (Except.ok.inj hok).symm⟩
  · rintro ⟨chains, hchains, rfl⟩
    exact bind_eq_ok_iff.2 ⟨chains, hchains, rfl⟩

end FieldDefinition

theorem Expanded.lastIn_of_apart {fields : List Expanded}
    (h : Text.Apart (fields.map Expanded.responseKey)) {f : Expanded} (hf : f ∈ fields) :
    f.LastIn fields := by
  obtain ⟨before, after, rfl⟩ := append_of_mem hf
  refine ⟨before, after, rfl, fun g hg => ?_⟩
  rw [map_append, Text.Apart, pairwise_append, map_cons, pairwise_cons] at h
  have hapart := h.2.1.1 g.responseKey (mem_map_of_mem hg)
  rw [Text.sameIgnoringCase_comm]
  exact hapart

namespace Compiler

variable {compiler : Compiler} {I : Interpretation} {services : Provider} {next : Nat}
  {scope : Scope} {m m' : Memory}

/-! ## The record of a selection -/

/-- The contribution is made of the field, with numbers from `first` on. -/
def ContributedBy (compiler : Compiler) (context : Expr) (scope : Scope) (first : Nat)
    (f : Expanded) (c : Contribution) : Prop :=
  (defers scope.mode f.field = true ∧ ∃ dependencies, serviceDependencies f.field.definition context
      (scope.path.child f.field.responseKey) = .ok dependencies
    ∧ c = .deferred (scope.path.child f.field.responseKey) dependencies)
  ∨ (defers scope.mode f.field = false ∧ ∃ compiled m₁ m₂, first ≤ m₁.next
    ∧ Gives (compiler.compileExpanded context (scope.field f.field.responseKey) f) m₁ compiled m₂
    ∧ c = .selected f.field.responseKey compiled)

variable {T : Ty → Prop} {context : Expr} {selected : List Expanded} {c : Parameter}
  {origin : Value → Option Value} {e : Expanded} {compiled : Compiled} {p : Placement}
  {q : Projection} {scope' : Scope} {n : Memory}

theorem contributed_of_compileFields (hdrawn : ∀ f ∈ selected, compiler.Draws T f)
    {contributions : List Contribution} {first : Nat} (hfirst : first ≤ m.next)
    (h : Gives (compiler.compileFields context scope selected) m contributions m') :
    Forall₂ (ContributedBy compiler context scope first) selected contributions := by
  induction selected generalizing m contributions with
  | nil =>
    obtain ⟨rfl, -⟩ := compileFields_nil_gives.1 h
    exact .nil
  | cons f rest ih =>
    obtain ⟨c, m₁, others, hc, hrest, rfl⟩ := compileFields_cons_gives.1 h
    obtain ⟨hf, hdrawn⟩ := forall_mem_cons.1 hdrawn
    rcases contribute_gives.1 hc with ⟨hd, dependencies, hok, rfl, rfl⟩ | ⟨hd, compiled,
      hcompiled, rfl⟩
    · exact .cons (.inl ⟨hd, dependencies, hok, rfl⟩) (ih hdrawn hfirst hrest)
    · exact .cons (.inr ⟨hd, compiled, m, m₁, hfirst, hcompiled, rfl⟩)
        (ih hdrawn (Nat.le_trans hfirst (hf hcompiled).1.next) hrest)

/-- Whether there is anything to be fetched for a selection can be told from its fields. -/
theorem isEmpty_eq_idle (hmode : scope.mode = .dataOnly) {selection : CompiledSelection}
    (hdrawn : ∀ f ∈ selected, compiler.Draws T f)
    (h : Gives (compiler.compileSelection context scope (.selects selected)) m selection m') :
    selection.fields.isEmpty = (ExpandedSelection.selects selected).idle := by
  have hidle : ∀ (f : Expanded) (path : FieldPath),
      (defers scope.mode f.field = true
        ∧ serviceDependencies f.field.definition context path = .ok [])
      ↔ (f.field.definition.requiresService && f.field.definition.readsNothing) = true := by
    intro f path
    rw [hmode, defers, decide_eq_true rfl, Bool.true_and, Bool.and_eq_true,
      FieldDefinition.serviceDependencies_eq_ok_iff, FieldDefinition.readsNothing_iff]
    refine and_congr_right fun _ => ⟨?_, fun h => ⟨[], h, rfl⟩⟩
    rintro ⟨chains, hchains, hnil⟩
    rw [hchains, map_eq_nil_iff.1 hnil.symm]
  rw [Bool.eq_iff_iff, ExpandedSelection.idle, all_eq_true]
  constructor
  · intro hempty f hf
    exact (hidle f _).1 (deferred_of_isEmpty h hempty f hf)
  · intro hall
    obtain ⟨_, contributions, m₁, heq, hfields, hassemble⟩ := compileSelection_gives.1 h
    cases heq
    -- No field contributes anything.
    have hnothing : ∀ c ∈ contributions, c.entry? = none ∧ c.dependencies = [] := by
      intro c hc
      obtain ⟨f, hf, ⟨-, dependencies, hok, rfl⟩ | ⟨hplain, -⟩⟩ :=
        exists_mem_of_forall₂ (contributed_of_compileFields hdrawn (Nat.zero_le _) hfields) hc
      · obtain ⟨-, hnone⟩ := (hidle f _).2 (hall f hf)
        obtain rfl := Except.ok.inj (hnone.symm.trans hok)
        exact ⟨rfl, rfl⟩
      · rw [((hidle f scope.path).2 (hall f hf)).1] at hplain
        cases hplain
    obtain ⟨merged, hfetch, rfl⟩ := assemble_gives.1 hassemble
    rw [flatMap_eq_nil_iff.2 fun c hc => (hnothing c hc).2] at hfetch
    obtain ⟨rfl, -⟩ := fetchAll_nil_gives.1 hfetch
    rw [SelectionMap.isEmpty, fields_of_contributions,
      filterMap_eq_nil_iff.2 fun c hc => (hnothing c hc).1]
    rfl

/-! ## A field with a selection -/

/-- The parts of a field that was compiled in a context of an object type, and whose selection
stands for these fields. -/
structure Layout.Of (I : Interpretation) (next : Nat) (compiler : Compiler) (e : Expanded)
    (context : Expr) (scope : Scope) (m m' : Memory) (compiled : Compiled)
    (selected : List Expanded) (p : Placement) (q : Projection) : Prop where
  object : context.ty.IsObject
  placement : Placement.Of I next compiler e context scope m m' compiled p
  projection : Projection.Of compiler e ⟨p.source, false, p.bound e.field⟩ (ownScope scope p.own)
    (p.memory m) m' p.compiled selected q
  numbered : next ≤ m.next

/-- The data pass has compiled the fields that are selected of an object. -/
structure Provides (compiler : Compiler) (services : Provider) (next : Nat)
    (selected : List Expanded)
    (element : Parameter) (scope : Scope) (m m' : Memory)
    (selection : CompiledSelection) : Prop where
  simple : ∀ f ∈ selected, f.Every (SelectedField.Simple services next)
  unambiguous : ∀ f ∈ selected, f.Unambiguous
  apart : Text.Apart (selected.map Expanded.responseKey)
  mode : scope.mode = .dataOnly
  object : element.ty.IsObject
  mem : element ∈ scope.parameters
  old : next ≤ element.id
  numbered : next ≤ m.next
  selects :
    Gives (compiler.compileSelection (.parameter element) scope (.selects selected)) m selection m'

section Layout

variable {e : Expanded} {context : Expr} {compiled : Compiled}

section Compiled

variable (hvalues : I.values = compiler.values)
  (hsimple : e.Every (SelectedField.Simple I.services next))
  (hobject : context.ty.IsObject) (hreads : context.ReadsOf c) (hc : c ∈ scope.parameters)
  (hnext : next ≤ m.next) (h : Gives (compiler.compileExpanded context scope e) m compiled m')

include hvalues hsimple hobject hreads hc hnext h

theorem exists_layout (hshape : e.field.definition.shape ≠ .leaf) :
    ∃ selected p q, Layout.Of I next compiler e context scope m m' compiled selected p q := by
  obtain ⟨p, hp⟩ := placement_of_compileExpanded hvalues hsimple.toSound hobject.bare
    hreads hc hnext h
  obtain ⟨selections, hfield⟩ := hsimple.holds
  obtain ⟨selected, q, hq⟩ := projection_of_compileResolved hshape hfield.extensions hp.gives
  exact ⟨selected, p, q, hobject, hp, hq, hnext⟩

theorem forced?_leaf (hshape : e.field.definition.shape = .leaf)
    (horigin : I.Reaches next context e.field origin)
    {env : Environment} {x : Value} (henv : I.Runs next context x compiled.constants env) :
    compiled.expression.forced? I.services env = (origin x).bind Value.force := by
  obtain ⟨p, hp⟩ := placement_of_compileExpanded hvalues hsimple.toSound hobject.bare
    hreads hc hnext h
  obtain ⟨hleaf, -⟩ := (compileResolved_leaf hshape).1 hp.gives
  rw [hp.compiled_eq, hleaf, Expr.forced?, hp.value horigin henv]

end Compiled

variable {selected : List Expanded} {p : Placement} {q : Projection}
  (hl : Layout.Of I next compiler e context scope m m' compiled selected p q)

include hl

theorem Layout.Of.memory_le : next ≤ (p.memory m).next :=
  Nat.le_trans hl.numbered (Nat.le_trans hl.placement.number (Nat.le_add_right _ _))

theorem Layout.Of.mode : q.scope.mode = scope.mode :=
  hl.projection.mode.trans (mode_ownScope scope p.own)

theorem Layout.Of.path : q.scope.path = scope.path :=
  hl.projection.path.trans (path_ownScope scope p.own)

theorem Layout.Of.depth : q.scope.depth = scope.depth :=
  hl.projection.depth.trans (depth_ownScope scope p.own)

theorem Layout.Of.deferred : compiled.deferredServices = q.selection.deferredServices := by
  rw [hl.placement.compiled_eq]
  exact hl.projection.deferred

theorem Layout.Of.under (hempty : q.selection.fields.isEmpty = true) {R : Ty → Prop}
    (hR : ∀ name, R (.object name)) (hcontext : R context.ty) :
    Ty.Under R compiled.expression.ty e.field.definition.resolve.ty := by
  obtain ⟨_, hprojected⟩ := hl.projection.expression
  have hexpression : compiled.expression = p.source.moved p.own context := by
    rw [hl.placement.compiled_eq, hprojected]
    unfold projected
    rw [hempty, if_pos rfl]
  rw [hexpression]
  exact hl.placement.under_moved hR hcontext

variable (hsimple : e.Every (SelectedField.Simple I.services next))

include hsimple

theorem Layout.Of.element_ty (hne : selected ≠ []) : q.element.ty.IsObject :=
  hl.projection.element_ty hsimple
    (hl.placement.under (R := Ty.IsObject) (fun name => ⟨name, rfl⟩) hl.object) hne

theorem Layout.Of.drawn : ∀ f ∈ selected, compiler.Draws Ty.IsRecord f :=
  fun f hf => drawn_of_compileExpanded ((hl.projection.simple hsimple f hf).imp
    fun _ _ h => h.draws)

theorem Layout.Of.isEmpty (hmode : scope.mode = .dataOnly) :
    q.selection.fields.isEmpty = (ExpandedSelection.selects selected).idle :=
  isEmpty_eq_idle (hl.mode.trans hmode) (hl.drawn hsimple) hl.projection.gives

theorem Layout.Of.objectTy? (hshape : e.field.definition.shape ≠ .leaf)
    (hempty : q.selection.fields.isEmpty = false) :
    Compiler.objectTy? e.field.definition.shape compiled.expression.ty
      = some q.selection.fields.toRecord.ty := by
  obtain ⟨_, hprojected⟩ := hl.projection.expression
  rw [hl.placement.compiled_eq, hprojected]
  exact objectTy?_projected context (hl.projection.not_mem_freeParameters hsimple
    hl.placement.own_old) hshape hempty

theorem Layout.Of.provides (hunambiguous : e.Unambiguous) (hmode : scope.mode = .dataOnly)
    (hne : selected ≠ []) :
    Provides compiler I.services next selected q.element q.scope
      { p.memory m with next := (p.memory m).next + 1 } m' q.selection where
  simple := hl.projection.simple hsimple
  unambiguous _ hf := hunambiguous.of_selects hl.projection.selects hf
  apart := hunambiguous.apart hl.projection.selects
  mode := hl.mode.trans hmode
  object := hl.element_ty hsimple hne
  mem := hl.projection.parameters ▸ mem_cons_self
  old := hl.projection.number.symm ▸ hl.memory_le
  numbered := Nat.le_succ_of_le hl.memory_le
  selects := hl.projection.gives

theorem Layout.Of.rereads (hshape : e.field.definition.shape ≠ .leaf)
    (hempty : q.selection.fields.isEmpty = false) {source : Expr} {n' : Memory} {q' : Projection}
    {full : Compiled}
    (hq' : Projection.Of compiler e ⟨source, true, none⟩ scope' n n' full selected q')
    (hfull : scope'.mode = .full) (hpath : scope'.path = scope.path)
    (hty : source.ty = compiled.expression.ty) (hn : next ≤ n.next)
    (hsame : Memory.SameInside scope.path n m') :
    Rereads next q.selection.fields q.scope m' q'.element q'.scope { n with next :=
      n.next + 1 } where
  ty := by
    have hobject : Compiler.objectTy? e.field.definition.shape source.ty = some q'.element.ty :=
      hq'.objectTy
    rw [hty, hl.objectTy? hsimple hshape hempty] at hobject
    exact (Option.some.inj hobject).symm
  old := hq'.number.symm ▸ hn
  new := by
    rw [hq'.number]
    exact Nat.lt_succ_self _
  mode := hq'.mode.trans hfull
  path := hq'.path.trans (hpath.trans hl.path.symm)
  changed := hq'.changed.trans (Bool.or_true _)
  fetched := hl.path ▸ hsame

variable {env : Environment} {x : Value}

theorem Layout.Of.forced? (hshape : e.field.definition.shape ≠ .leaf)
    (horigin : I.Reaches next context e.field origin)
    (henv : I.Runs next context x compiled.constants env) :
    compiled.expression.forced? I.services env
      = (origin x).bind fun v =>
          if q.selection.fields.isEmpty then v.force
          else v.each e.field.definition.shape fun y =>
            q.selection.fields.toRecord.forced? I.services (env.bind q.element y) := by
  rw [← hl.placement.value horigin henv, ← hl.projection.forced?_moved hsimple
    hl.placement.own_old hshape env context, hl.placement.compiled_eq]

theorem Layout.Of.runs (henv : I.Runs next context x compiled.constants env) (y : Value) :
    I.Runs next (.parameter q.element) y q.selection.constants (env.bind q.element y) :=
  hl.projection.runs hsimple (p.id_bound e.field m) hl.memory_le henv.base
    (hl.placement.constants_eq ▸ henv.constants) y

end Layout

/-! ## What the full pass finds -/

section Member

variable {selected : List Expanded} {element : Parameter} {selection : CompiledSelection}
  (hprovides : Provides compiler services next selected element scope m m' selection)

include hprovides

theorem Provides.drawn : ∀ f ∈ selected, compiler.Draws Ty.IsRecord f :=
  fun f hf => drawn_of_compileExpanded ((hprovides.simple f hf).imp fun _ _ h => h.draws)

theorem Provides.lastIn {f : Expanded} (hf : f ∈ selected) : f.LastIn selected :=
  Expanded.lastIn_of_apart hprovides.apart hf

theorem Provides.distinct : selection.fields.Distinct := by
  obtain ⟨_, _, _, -, -, hassemble⟩ := compileSelection_gives.1 hprovides.selects
  exact distinct_of_assemble hassemble

variable {el : Parameter} {scope' : Scope} {n : Memory}
  (hrereads : Rereads next selection.fields scope m' el scope' n) {f : Expanded} (hf : f ∈ selected)

include hrereads hf

/-- **What a service field reads is found** in the record, under the keys that are remembered for
it. -/
theorem Provides.service (hservice : f.field.definition.requiresService = true) :
    ∃ chains, f.field.definition.chains? = some chains ∧ ∀ d ∈ chains, ∃ key,
      (Expr.parameter el).recordMember? ((Assoc.find? d.1
          (n.fetched.get (scope'.field f.field.responseKey).path)).getD d.1)
        = some (.member (.parameter el) key d.2.chain.ty)
      ∧ selection.fields.field? key
        = some (key, d.2.chain.replace (.identity d.2.root) (.parameter element)) := by
  obtain ⟨chains, hchains, hfound⟩ := hrereads.service hprovides.drawn hprovides.selects
    hprovides.mode (hprovides.lastIn hf) .parameter hservice
  refine ⟨chains, (FieldDefinition.chains?_eq_some_iff _).2 hchains, fun d hd => ?_⟩
  obtain ⟨key, -, hkey⟩ := hfound d hd
  exact ⟨key, hkey id⟩

end Member

end Compiler
end QueryProjection
