import QueryProjection.Proofs.Passes.Checked
import QueryProjection.Proofs.Passes.Twice
import QueryProjection.Proofs.TwoPass.Root

/-!
# What a field of the operation answers

`Expanded.Answers` says of a field of an operation, for a schema without extensions, whether
executing it gives a value and which one: `Executor.exists_gives_executeRoot_iff`.  It refers to the
expanded tree and to the meanings of its fields, and not to how they are compiled.

Which way a field is executed is part of it: if service fields are left to the full pass, it has
what it means in two passes, and otherwise what it means in one.  The two are kept apart, because
they need not be the same, and an equivalence is wanted here and not a refinement.
-/

namespace QueryProjection

open Compiler List

/-- A field of the operation answers `v`: all is well with the fields, and `v` is what the field
means in two passes if service fields are left to the second one, and what it means in one pass if
not. -/
inductive Expanded.Answers (compiler : Compiler) (I : Interpretation) (context : Parameter)
    (e : Expanded) (v : Value) : Prop
  | once (checked : e.Compiles (SelectedField.Checked compiler I context) .full 1)
      (direct : e.field.definition.requiresService = false → e.Deferring fun _ => False)
      (value : (I.sourceAt? context e.field).bind (I.onceBelow e) = some v)
  | twice (checked : e.Compiles (SelectedField.Checked compiler I context) .full 1)
      (plain : e.field.definition.requiresService = false) (defers : ¬e.Deferring fun _ => False)
      (separable : e.Deferring FieldDefinition.Separable)
      (value : (I.sourceAt? context e.field).bind (I.twiceBelow e) = some v)

namespace Executor

variable {executor : Executor} {compiler : Compiler} {root : RootField} {data v : Value}
  {m m' : Memory} {I : Interpretation}

section Answers

variable (hty : executor.schema.context.ty.IsObject)
  (hid : executor.schema.context.id < executor.schema.next) (hI : I.Regular)
  (hservices : I.services = executor.services) (hvalues : I.values = compiler.values)
  (hbase : I.base = executor.base data)
  (hsimple : root.field.Every (SelectedField.Simple I.services executor.schema.next))
  (hunambiguous : root.field.Unambiguous)

theorem holds_rootScope (schema : Schema) (root : RootField) (mode : Mode) :
    (rootScope schema root mode).Holds schema.next schema.context schema.context :=
  ⟨mem_cons_self, fun _ hp _ => mem_singleton.1 hp⟩

include hty hI hvalues hsimple

theorem exists_compileExpanded_iff (mode : Mode) (hm : m.next = executor.schema.next) :
    (∃ compiled m', Gives (compiler.compileExpanded (.parameter executor.schema.context)
        (rootScope executor.schema root mode) root.field) m compiled m')
      ↔ root.field.Compiles (SelectedField.Checked compiler I executor.schema.context) mode 1
        ∧ (mode = .dataOnly → root.field.Deferring FieldDefinition.Chained) := by
  have hobject : (Expr.parameter executor.schema.context).ty.IsObject := hty
  have hmem : executor.schema.context ∈ (rootScope executor.schema root mode).parameters :=
    mem_cons_self
  exact compiles_iff hI hvalues hsimple hobject .parameter (holds_rootScope _ _ mode) hmem
    (Nat.le_of_eq hm.symm)

include hid hservices hbase hunambiguous

theorem exists_gives_runDirect_iff :
    (∃ m', Gives (executor.runDirect compiler root data) m v m')
      ↔ root.field.Compiles (SelectedField.Checked compiler I executor.schema.context) .full 1
        ∧ (I.sourceAt? executor.schema.context root.field.field).bind (I.onceBelow root.field)
            = some v := by
  obtain ⟨selections, hfield⟩ := hsimple.holds
  have hcompiles := exists_compileExpanded_iff (m := { m with next := executor.schema.next })
    hty hI hvalues hsimple .full rfl
  have hvalue :
      ∀ {compiled m'}, Gives (compiler.compileExpanded (.parameter executor.schema.context)
          (rootScope executor.schema root .full) root.field)
          { m with next := executor.schema.next } compiled m' →
      compiled.expression.forced? executor.services (executor.directEnvironment compiled data)
        = (I.sourceAt? executor.schema.context root.field.field).bind (I.onceBelow root.field) := by
    intro compiled m' hc
    obtain ⟨-, hdrawn⟩ := drawn_of_compileExpanded (hsimple.imp fun _ _ h => h.draws) hc
    rw [← hservices]
    exact meansOnce hvalues hsimple hunambiguous hc rfl hty.bare .parameter mem_cons_self
      (Interpretation.reaches_of_root hfield.definition hty hid) (Nat.le_refl _)
      (runs_directEnvironment hbase hid (Nat.le_refl _) hdrawn)
  rw [exists_runDirect_iff]
  constructor
  · rintro ⟨compiled, m', hc, hv⟩
    exact ⟨(hcompiles.1 ⟨compiled, m', hc⟩).1, (hvalue hc).symm.trans hv⟩
  · rintro ⟨hchecked, hv⟩
    obtain ⟨compiled, m', hc⟩ := hcompiles.2 ⟨hchecked, nofun⟩
    exact ⟨compiled, m', hc, (hvalue hc).trans hv⟩

theorem exists_gives_runFetched_iff {fetch : Compiled}
    (hfetch : Gives (compiler.compileExpanded (.parameter executor.schema.context)
      (rootScope executor.schema root .dataOnly) root.field)
      { m with next := executor.schema.next } fetch m') :
    (∃ m'', Gives (executor.runFetched compiler root fetch data) m' v m'')
      ↔ root.field.Compiles (SelectedField.Checked compiler I executor.schema.context) .full 1
        ∧ root.field.Deferring FieldDefinition.Separable
        ∧ (I.sourceAt? executor.schema.context root.field.field).bind (I.twiceBelow root.field)
            = some v := by
  obtain ⟨selections, hfield⟩ := hsimple.holds
  have hobject : (Expr.parameter executor.schema.context).ty.IsObject := hty
  have hdraws := hsimple.imp fun _ _ h => h.draws
  have hreaches :
      I.Reaches executor.schema.next (.parameter executor.schema.context) root.field.field
        fun _ => I.sourceAt? executor.schema.context root.field.field :=
    Interpretation.reaches_of_root hfield.definition hty hid
  have hruns := runs_directEnvironment hbase hid (Nat.le_refl _)
    (drawn_of_compileExpanded hdraws hfetch).2
  have hnone : ∀ p ∈ ([] : List Parameter), executor.schema.next ≤ p.id := nofun
  have hholds : (fetchedScope executor.schema root .full (executor.fetchedParameter fetch)).Holds
      executor.schema.next executor.schema.context (executor.fetchedParameter fetch) :=
    (holds_rootScope executor.schema root .full).bind (Nat.le_refl _) hnone rfl
  have hroot : executor.schema.context ∈ (fetchedScope executor.schema root .full
      (executor.fetchedParameter fetch)).parameters := mem_cons_of_mem _ mem_cons_self
  have hrecompiles : ∀ events, (∃ compiled m'', Gives (compileResolved root.field.field
        (compiler.selectOf root.field) ⟨.parameter (executor.fetchedParameter fetch), true, none⟩
        (fetchedScope executor.schema root .full (executor.fetchedParameter fetch)))
        ⟨⟨executor.schema.next + 1, events⟩, m'.fetched⟩ compiled m'')
      ↔ root.field.Compiles (SelectedField.Checked compiler I executor.schema.context) .full 1
        ∧ root.field.Deferring FieldDefinition.Separable := fun events =>
    recompilable hI hvalues hsimple hunambiguous hfetch rfl hobject .parameter
      (holds_rootScope _ _ .dataOnly) (Nat.le_refl _) rfl rfl rfl rfl hholds hroot (Nat.le_succ _)
      fun _ _ _ => rfl
  have hnumber : (executor.fetchedParameter fetch).id = executor.schema.next := rfl
  have hvalue : ∀ {fetched compiled events m''}, fetch.expression.forced? executor.services
        (executor.directEnvironment fetch data) = some fetched →
      Gives (compileResolved root.field.field
        (fun context scope => compiler.compileSelection context scope root.field.selection)
        ⟨.parameter (executor.fetchedParameter fetch), true, none⟩
        (fetchedScope executor.schema root .full (executor.fetchedParameter fetch)))
        ⟨⟨executor.schema.next + 1, events⟩, m'.fetched⟩ compiled m'' →
      compiled.expression.forced? executor.services
          (compiled.constants.environment.bind (executor.fetchedParameter fetch) fetched)
        = (I.sourceAt? executor.schema.context root.field.field).bind
          (I.twiceBelow root.field) := by
    intro fetched compiled events m'' hy hc
    have hdrawn := drawn_of_compileRoot_materialized hdraws
      (compileRoot_materialized_gives.2 ⟨compiled, rfl, hc⟩)
    rw [← hservices] at hy ⊢
    exact meansTwice hvalues hsimple hunambiguous hfetch rfl hobject .parameter mem_cons_self
      hreaches (Nat.le_refl _) hruns hy hc rfl rfl rfl (Nat.le_succ _) (fun _ _ _ => rfl)
      (runs_fetched hnumber hdrawn fetched)
  rw [exists_runFetched_iff]
  constructor
  · rintro ⟨fetched, compiled, m'', hy, hc, hv⟩
    obtain ⟨hchecked, hseparable⟩ := (hrecompiles _).1 ⟨compiled, m'', hc⟩
    exact ⟨hchecked, hseparable, (hvalue hy hc).symm.trans hv⟩
  · rintro ⟨hchecked, hseparable, hv⟩
    obtain ⟨fetched, hy⟩ := fetchable hvalues hsimple hunambiguous hfetch rfl hobject .parameter
      mem_cons_self hreaches (Nat.le_refl _) hruns hv
    rw [hservices] at hy
    obtain ⟨compiled, m'', hc⟩ := (hrecompiles _).2 ⟨hchecked, hseparable⟩
    exact ⟨fetched, compiled, m'', hy, hc, (hvalue hy hc).trans hv⟩

/-- **A field of the operation** gives exactly what it answers. -/
theorem exists_gives_executeRoot_iff :
    (∃ m', Gives (executor.executeRoot compiler root data) m v m')
      ↔ root.field.Answers compiler I executor.schema.context v := by
  have hobject : (Expr.parameter executor.schema.context).ty.IsObject := hty
  have hcompiles := exists_compileExpanded_iff (m := { m with next := executor.schema.next })
    hty hI hvalues hsimple .dataOnly rfl
  have hdirect := fun m => exists_gives_runDirect_iff (m := m)
    (v := v) hty hid hI hservices hvalues hbase hsimple hunambiguous
  have hdeferring :
      ∀ {fetch m'}, Gives (compiler.compileExpanded (.parameter executor.schema.context)
          (rootScope executor.schema root .dataOnly) root.field)
          { m with next := executor.schema.next } fetch m' →
      (fetch.deferredServices = false ↔ root.field.Deferring fun _ => False) := fun hc =>
    (deferring_of_compileExpanded hvalues hsimple rfl hobject .parameter mem_cons_self
      (Nat.le_refl _) hc).2
  rw [exists_executeRoot_iff]
  simp only [compileRoot_schema_gives]
  cases hservice : root.field.field.definition.requiresService with
  | true =>
    have hdefers : defers .dataOnly root.field.field = true := hservice
    simp only [hdefers, if_pos]
    constructor
    · rintro ⟨_, _, ⟨rfl, rfl⟩, ⟨_, ⟨⟩, -⟩ | ⟨-, h⟩⟩
      obtain ⟨hchecked, hv⟩ := (hdirect _).1 h
      exact .once hchecked (fun h => by rw [hservice] at h; cases h) hv
    · rintro (⟨hchecked, -, hv⟩ | ⟨-, hplain, -⟩)
      · exact ⟨none, _, ⟨rfl, rfl⟩, .inr ⟨nofun, (hdirect _).2 ⟨hchecked, hv⟩⟩⟩
      · rw [hservice] at hplain
        cases hplain
  | false =>
    have hdefers : defers .dataOnly root.field.field = false := hservice
    simp only [hdefers, if_neg Bool.false_ne_true]
    constructor
    · rintro ⟨_, m₁, ⟨fetch, rfl, hfetch⟩, ⟨_, heq, hdeferred, h⟩ | ⟨hdeferred, h⟩⟩
      · obtain rfl := Option.some.inj heq
        obtain ⟨hchecked, hseparable, hv⟩ :=
          (exists_gives_runFetched_iff hty hid hI hservices hvalues hbase
          hsimple hunambiguous hfetch).1 h
        refine .twice hchecked hservice (fun h => ?_) hseparable hv
        rw [(hdeferring hfetch).2 h] at hdeferred
        cases hdeferred
      · obtain ⟨hchecked, hv⟩ := (hdirect _).1 h
        exact .once hchecked (fun _ => (hdeferring hfetch).1 (hdeferred _ rfl)) hv
    · rintro (⟨hchecked, hdeferred, hv⟩ | ⟨hchecked, -, hdeferred, hseparable, hv⟩)
      · have hnothing := hdeferred hservice
        obtain ⟨fetch, m₁, hfetch⟩ := hcompiles.2
          ⟨hchecked.dataOnly, fun _ => hnothing.imp fun _ h => h.elim⟩
        refine ⟨some fetch, m₁, ⟨fetch, rfl, hfetch⟩,
          .inr ⟨fun _ heq => ?_, (hdirect _).2 ⟨hchecked, hv⟩⟩⟩
        obtain rfl := Option.some.inj heq
        exact (hdeferring hfetch).2 hnothing
      · obtain ⟨fetch, m₁, hfetch⟩ := hcompiles.2
          ⟨hchecked.dataOnly, fun _ => hseparable.imp fun _ h => h.chained⟩
        refine ⟨some fetch, m₁, ⟨fetch, rfl, hfetch⟩, .inl ⟨fetch, rfl, ?_,
          (exists_gives_runFetched_iff hty hid hI hservices hvalues hbase hsimple
            hunambiguous hfetch).2 ⟨hchecked, hseparable, hv⟩⟩⟩
        rw [← Bool.not_eq_false]
        exact fun h => hdeferred ((hdeferring hfetch).1 h)

end Answers

end Executor
end QueryProjection
