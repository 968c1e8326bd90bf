import QueryProjection.Proofs.Execute.Bound
import QueryProjection.Proofs.TwoPass.Compiles
import QueryProjection.Proofs.TwoPass.Refetch

/-!
# Fields of the operation

A field of the operation is compared with its full pass against the schema.  Executing it gives what
it answers for the value that it resolves to in the data, with a data pass or without
(`Executor.answer_of_executeRoot`), and so does its full pass (`Executor.direct_of_compiles`).
Whatever executing the field gives, compiling it in full against the schema therefore succeeds, and
what it compiles to evaluates to the same: `Executor.direct_of_executeRoot`.

`Executor.Refinable` is what is assumed of the field, all the way down its tree.  It is stated for
the tree and not for the schema, so that it can be checked of a single operation, whatever else the
schema declares.
-/

namespace QueryProjection

open Compiler List

namespace Executor

/-- The values of the schema's own parameters. -/
def base (executor : Executor) (data : Value) : Environment :=
  Environment.bind (fun _ => none) executor.schema.context data

theorem exists_interpretation {executor : Executor} (hservices : executor.services.Keep Value.Eager)
    {data : Value} (hdata : data.Eager) (values : VariableValues) :
    ∃ I : Interpretation, I.services = executor.services ∧ I.values = values
      ∧ I.base = executor.base data ∧ I.Regular := by
  have hmeaning : ∀ extensions, ∃ key window,
      (∃ key, Extension.Arranged executor.services extensions key) →
        Extension.Arranged executor.services extensions key
          ∧ Arrangement executor.services extensions key window := by
    intro extensions
    by_cases h : ∃ key, Extension.Arranged executor.services extensions key
    · obtain ⟨key, hkey⟩ := h
      obtain ⟨window, hwindow⟩ := hkey.arrangement
      exact ⟨key, window, fun _ => ⟨hkey, hwindow⟩⟩
    · exact ⟨none, fun _ => none, fun h' => absurd h' h⟩
  choose number window hmeaning using hmeaning
  refine ⟨⟨executor.services, values, executor.base data, number, window⟩, rfl, rfl, rfl,
    ⟨hservices, fun p v hv => ?_, fun h => (hmeaning _ h).1, fun h => (hmeaning _ h).2⟩⟩
  change executor.base data p = some v at hv
  unfold base Environment.bind at hv
  split at hv
  · exact Option.some.inj hv ▸ hdata
  · cases hv

end Executor

variable {next : Nat}

theorem Interpretation.mem_of_key? {I : Interpretation} (hI : I.Regular) {field : SelectedField}
    (hd : field.definition.Regular I.services next) {key : String} (h : I.key? field = some key) :
    field.definition.shape = .list ∧ Extension.position key ∈ field.definition.extensions := by
  unfold key? at h
  split at h
  · rename_i hlist
    obtain ⟨before, after, heq, -⟩ := h ▸ hI.number (hd.extensions hlist)
    rw [heq]
    exact ⟨hlist, mem_append_right _ mem_cons_self⟩
  · cases h

namespace Executor

variable {executor : Executor} {compiler : Compiler} {root : RootField} {data v : Value}
  {m m' : Memory} {I : Interpretation} {compiled : Compiled} {last : Nat}

theorem runs_directEnvironment (hbase : I.base = executor.base data) {first : Nat}
    (hid : executor.schema.context.id < executor.schema.next)
    (hfirst : executor.schema.next ≤ first)
    (hdrawn : compiled.constants.Drawn Ty.IsRecord first last) :
    I.Runs executor.schema.next (.parameter executor.schema.context) data compiled.constants
      (executor.directEnvironment compiled data) where
  base p hp := by
    rw [hbase]
    unfold directEnvironment base Environment.bind
    split
    · rfl
    · exact hdrawn.environment_eq_none (Nat.lt_of_lt_of_le hp hfirst)
  context := (Expr.value?_parameter _).trans (Environment.bind_self _ _ _)
  constants p w hw := by
    refine (Environment.bind_of_ne _ ?_ _).trans hw
    rintro rfl
    have := (hdrawn.range _ (Constants.mem_keys_of_get? hw)).1
    omega

/-- What a field over fetched data is evaluated in: there the schema's own parameters have no
values. -/
theorem runs_fetched {p : Parameter} (hid : p.id = next)
    (hdrawn : compiled.constants.Drawn Ty.IsRecord (next + 1) last) (fetched : Value) :
    { I with base := fun _ => none }.Runs next (.parameter p) fetched compiled.constants
      (compiled.constants.environment.bind p fetched) :=
  Interpretation.runs_bind (Nat.le_of_eq hid.symm) (hid ▸ Nat.lt_succ_self _) hdrawn
    (fun _ hq => hdrawn.environment_eq_none (Nat.lt_succ_of_lt hq)) (fun _ _ => id) fetched

section Root

variable (hty : executor.schema.context.ty.IsObject)
  (hid : executor.schema.context.id < executor.schema.next) (hdata : data.Eager)
  (hI : I.Regular) (hservices : I.services = executor.services)
  (hvalues : I.values = compiler.values) (hbase : I.base = executor.base data)
  (hreg : root.field.Every
    (SelectedField.Regular I.services compiler.values executor.schema.next))

include hty hid hdata hI hservices hvalues hbase hreg

theorem forced?_of_compileRoot (hm : executor.schema.next ≤ m.next)
    (h : Gives (compiler.compileExpanded (.parameter executor.schema.context)
      (rootScope executor.schema root .full) root.field) m compiled m') :
    compiled.expression.forced? executor.services (executor.directEnvironment compiled data)
      = (I.sourceAt? executor.schema.context root.field.field).bind
          (I.below root.field.field (I.answers root.field.selection)) := by
  obtain ⟨selections, hfield⟩ := hreg.holds
  obtain ⟨-, hdrawn⟩ := drawn_of_compileExpanded (hreg.sound.imp fun _ _ h => h.draws) h
  rw [← hservices]
  exact forced?_compileExpanded hI hvalues hreg h rfl hty.bare .parameter mem_cons_self
    (Interpretation.sources_of_root hI (hvalues ▸ hfield) hty hid) hm
    (runs_directEnvironment hbase hid hm hdrawn) hdata

/-- If all is well with a field of the operation, it can be compiled in full against the schema, and
evaluates to what it answers. -/
theorem direct_of_compiles
    (hcompiles : root.field.Compiles (SelectedField.Checked compiler I executor.schema.context)
      .full 1)
    (hv : (I.sourceAt? executor.schema.context root.field.field).bind
      (I.below root.field.field (I.answers root.field.selection)) = some v)
    (hm : executor.schema.next ≤ m.next) :
    ∃ compiled m', Gives (compiler.compileRoot executor.schema root .full .schema) m
      (some compiled) m'
      ∧ compiled.expression.forced? executor.services (executor.directEnvironment compiled data)
          = some v := by
  have hobject : (Expr.parameter executor.schema.context).ty.IsObject := hty
  have hmem : executor.schema.context ∈ (rootScope executor.schema root .full).parameters :=
    mem_cons_self
  obtain ⟨compiled, m', hgives⟩ :=
    exists_gives_of_compiles hI hvalues hreg.sound rfl hobject .parameter hmem hmem hcompiles m
  refine ⟨compiled, m', compileRoot_schema_gives.2 ?_, ?_⟩
  · rw [show defers .full root.field.field = false from rfl, if_neg Bool.false_ne_true]
    exact ⟨compiled, rfl, hgives⟩
  · rw [forced?_of_compileRoot hty hid hdata hI hservices hvalues hbase hreg hm hgives, hv]

end Root

/-- What is assumed of a field of the operation for its two passes to give what one gives.  The
schema's own parameter is an object and comes before everything that is numbered later, fields are
regular all the way down, wherever elements are numbered the fields selected of them allow it, and
the data and the results of services have no lazy sequences in them. -/
structure Refinable (executor : Executor) (compiler : Compiler) (root : RootField) (data : Value) :
    Prop where
  context_ty : executor.schema.context.ty.IsObject
  context_id : executor.schema.context.id < executor.schema.next
  services : executor.services.Keep Value.Eager
  data : data.Eager
  regular : root.field.Every
    (SelectedField.Regular executor.services compiler.values executor.schema.next)
  apart : root.field.Every fun field _ => field.definition.TypedApart
  numbers : ∀ x : Expanded, x.Within root.field → x.field.definition.shape = .list →
    ∀ key, Extension.position key ∈ x.field.definition.extensions → ∀ fields,
      x.selection = .selects fields → Expanded.Numberable key fields

/-- **Executing a field of the operation** gives what the field answers for the value that it
resolves to in the data of the query, and all is well for compiling it in full. -/
theorem answer_of_executeRoot (hroot : executor.Refinable compiler root data)
    (hI : I.Regular) (hservices : I.services = executor.services)
    (hvalues : I.values = compiler.values) (hbase : I.base = executor.base data)
    (h : Gives (executor.executeRoot compiler root data) m v m') :
    root.field.Compiles (SelectedField.Checked compiler I executor.schema.context) .full 1
      ∧ (I.sourceAt? executor.schema.context root.field.field).bind
          (I.below root.field.field (I.answers root.field.selection)) = some v := by
  obtain ⟨hty, hid, -, hdata, hreg, hapart, hnumbers⟩ := hroot
  rw [← hservices] at hreg
  have hobject : (Expr.parameter executor.schema.context).ty.IsObject := hty
  have hdraws := hreg.sound.imp fun _ _ h => h.draws
  have hholds : ∀ mode, (rootScope executor.schema root mode).Holds executor.schema.next
      executor.schema.context executor.schema.context := fun mode =>
    ⟨mem_cons_self, fun p hp _ => mem_singleton.1 hp⟩
  obtain ⟨fetch, m₁, hfetch, h⟩ := exists_executeRoot_iff.1 ⟨m', h⟩
  rcases h with ⟨fetch, rfl, -, hrun⟩ | ⟨-, hdirect⟩
  · rw [compileRoot_schema_gives] at hfetch
    split at hfetch
    · cases hfetch.1
    obtain ⟨_, heq, hfetch⟩ := hfetch
    obtain rfl := Option.some.inj heq
    obtain ⟨fetched, compiled, m₂, hy, hc, hv⟩ := exists_runFetched_iff.1 hrun
    obtain ⟨selections, hfield⟩ := hreg.holds
    have hholds' : (fetchedScope executor.schema root .full
        (executor.fetchedParameter fetch)).Holds executor.schema.next executor.schema.context
        (executor.fetchedParameter fetch) := by
      have hnone : ∀ p ∈ ([] : List Parameter), executor.schema.next ≤ p.id := nofun
      exact (hholds .full).bind (Nat.le_refl _) hnone rfl
    have hbefore : root.field.Compiles (SelectedField.Checked compiler I executor.schema.context)
        .dataOnly (fetchedScope executor.schema root .full
          (executor.fetchedParameter fetch)).depth :=
      compiles_of_bare hI hvalues hreg.sound hobject.bare .parameter (hholds .dataOnly)
        (Nat.le_refl _) hfetch
    refine ⟨compiles_of_materialized hI hreg.sound
      (fun fields hsel f hf => recompiles hI hvalues (hreg.of_selects hsel hf).sound
        (hapart.of_selects hsel hf)) hbefore rfl hholds' (Nat.le_succ _) hc, ?_⟩
    have hdrawn := drawn_of_compileRoot_materialized hdraws
      (compileRoot_materialized_gives.2 ⟨compiled, rfl, hc⟩)
    have hnumbers : I.Numbers root.field := fun x hx key hkey => by
      obtain ⟨_, hx'⟩ := hreg.within hx
      obtain ⟨hlist, hmem⟩ := Interpretation.mem_of_key? hI hx'.definition hkey
      exact hnumbers x hx hlist key hmem
    have hnone : ∀ p u, (fun _ => none : Environment) p = some u → I.base p = some u := nofun
    have hnumber : (executor.fetchedParameter fetch).id = executor.schema.next := rfl
    have hruns : { I with base := fun _ => none }.Runs executor.schema.next
        (.parameter (executor.fetchedParameter fetch)) fetched compiled.constants
        (compiled.constants.environment.bind (executor.fetchedParameter fetch) fetched) :=
      runs_fetched hnumber hdrawn fetched
    exact answer_of_refetch hI hvalues hnone hreg hnumbers
      { gives := hfetch
        mode := rfl
        bare := hobject.bare
        reads := ⟨_, mem_cons_self, .parameter⟩
        sources := Interpretation.sources_of_root hI (hvalues ▸ hfield) hty hid
        old := Nat.le_refl _
        runs := runs_directEnvironment hbase hid (Nat.le_refl _)
          (drawn_of_compileExpanded hdraws hfetch).2
        eager := hdata
        value := hservices ▸ hy }
      { gives := hc
        mode := rfl
        path := rfl
        ty := rfl
        old := Nat.le_succ _
        fetched := fun _ _ _ => rfl
        runs := hruns
        value := hservices ▸ hv }
  · obtain ⟨compiled, m₂, hc, hv⟩ := exists_runDirect_iff.1 hdirect
    rw [forced?_of_compileRoot hty hid hdata hI hservices hvalues hbase hreg
      (Nat.le_refl _) hc] at hv
    exact ⟨compiles_of_bare hI hvalues hreg.sound hobject.bare .parameter (hholds .full)
      (Nat.le_refl _) hc, hv⟩

/-- So it gives what compiling the field in full against the schema gives: that succeeds too, and
what it compiles to evaluates to the same value. -/
theorem direct_of_executeRoot (hroot : executor.Refinable compiler root data)
    (h : Gives (executor.executeRoot compiler root data) m v m') {memory : Memory}
    (hmemory : executor.schema.next ≤ memory.next) :
    ∃ compiled memory', Gives (compiler.compileRoot executor.schema root .full .schema) memory
        (some compiled) memory'
      ∧ compiled.expression.forced? executor.services (executor.directEnvironment compiled data)
          = some v := by
  obtain ⟨I, hservices, hvalues, hbase, hI⟩ :=
    exists_interpretation hroot.services hroot.data compiler.values
  obtain ⟨hcompiles, hanswer⟩ := answer_of_executeRoot hroot hI hservices hvalues hbase h
  exact direct_of_compiles hroot.context_ty hroot.context_id hroot.data hI hservices hvalues hbase
    (hservices ▸ hroot.regular) hcompiles hanswer hmemory

end Executor
end QueryProjection
