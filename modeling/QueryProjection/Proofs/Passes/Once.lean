import QueryProjection.Proofs.Expansion
import QueryProjection.Proofs.Passes.Meaning
import QueryProjection.Proofs.TwoPass.Fetched

/-!
# One pass

A field that is compiled in full in a context of an object type evaluates to what it means in one
pass, `Interpretation.once`.  That holds whether its arguments are lazy or not, if no two fields of
a selection have the same response key.

Without extensions a field is compiled to one projection of what it resolves to, and a selection
with different keys to a record in which nothing was replaced.  So the meaning can go through the
fields in turn, and nothing has to be merged.
-/

namespace QueryProjection

open List

open Interpretation SelectedField

/-! ## Assumptions -/

/-- What is assumed of a selected field of a schema without extensions. -/
structure SelectedField.Simple (services : Provider) (next : Nat) (field : SelectedField)
    (selections : List Selection) : Prop extends field.Sound services next selections where
  extensions : field.definition.extensions = []

variable {services : Provider} {e : Expanded} {fields : List Expanded}

theorem Expanded.Every.toSound {next : Nat} (h : e.Every (SelectedField.Simple services next)) :
    e.Every (SelectedField.Sound services next) :=
  h.imp fun _ _ h => h.toSound

/-- No two of the keys are the same up to case. -/
def Text.Apart (keys : List String) : Prop :=
  keys.Pairwise fun a b => Text.sameIgnoringCase a b = false

/-- No two fields of a selection set below the field have the same response key up to case. -/
def Expanded.Unambiguous (e : Expanded) : Prop :=
  ∀ x : Expanded, x.Within e → ∀ fields, x.selection = .selects fields →
    Text.Apart (fields.map Expanded.responseKey)

theorem Expanded.Unambiguous.apart (h : e.Unambiguous) (hsel : e.selection = .selects fields) :
    Text.Apart (fields.map Expanded.responseKey) :=
  h e .here fields hsel

theorem Expanded.Unambiguous.of_selects {f : Expanded} (h : e.Unambiguous)
    (hsel : e.selection = .selects fields) (hf : f ∈ fields) : f.Unambiguous :=
  fun x hx => h x (.under hsel hf hx)

theorem Merge.merge_of_apart {α : Type} {entries : List (String × α)}
    (h : Text.Apart (entries.map Prod.fst)) : merge entries = entries := by
  induction entries using reverseRecOn with
  | nil => rfl
  | append_singleton entries e ih =>
    rw [map_append, Text.Apart, pairwise_append] at h
    have hnone : ¬ (entries.map Prod.fst).any fun k => Text.sameIgnoringCase k e.1 := by
      rw [any_eq_true]
      rintro ⟨k, hk, hsame⟩
      rw [h.2.2 k hk e.1 mem_cons_self] at hsame
      cases hsame
    have hwrite : write e.1 e.2 (entries ++ []) = entries ++ write e.1 e.2 [] :=
      write_append_of_not_any hnone
    rw [append_nil] at hwrite
    rw [merge_append_singleton, ih h.1, hwrite]
    rfl

namespace Compiler

variable {compiler : Compiler} {I : Interpretation} {next : Nat} {scope : Scope} {m m' : Memory}

/-! ## A field without extensions -/

variable {resolved : Resolved} {compiled : Compiled} {e : Expanded} {env : Environment} {x : Value}

/-- Without extensions the selection of a field is applied to what the field resolves to. -/
theorem compileResolved_iff {field : SelectedField} (hshape : field.definition.shape ≠ .leaf)
    (hextensions : field.definition.extensions = []) {select : Select} :
    Gives (compileResolved field select resolved scope) m compiled m'
      ↔ ∃ ty selection, objectTy? field.definition.shape resolved.expression.ty = some ty
        ∧ Gives (select (.parameter (placeholder field ty m.next))
            (objectScope (withArguments scope resolved.arguments).2 resolved
              (placeholder field ty m.next))) { m with next := m.next + 1 } selection m'
        ∧ compiled = {
            expression := projected field.definition.shape
              (withArguments scope resolved.arguments).2
              resolved.expression (placeholder field ty m.next) selection.fields
            constants := (withArguments scope resolved.arguments).1.extend selection.constants
            deferredServices := selection.deferredServices } := by
  have hkey : field.definition.NumberedBy .empty none := by
    refine ⟨fun _ x hx => ?_, fun _ => rfl⟩
    rw [hextensions] at hx
    exact absurd hx not_mem_nil
  have hhooks : ∀ {context : HookContext} {pre pre' : PreSelection} {m m' : Memory},
      Gives (hooksOf field context pre) m pre' m' ↔ pre' = pre ∧ m' = m := by
    intro context pre pre' m m'
    unfold hooksOf
    rw [hextensions, runPreSelection, ite_self]
    exact gives_pure
  have hfields : ∀ (scope : Scope) (ty : Ty) (pre : PreSelection) (fields : SelectionMap),
      readFields field scope ty pre fields = .ok fields := by
    intro scope ty pre fields
    unfold readFields elementFields
    rw [hextensions, isEmpty_nil, Bool.not_true, Bool.and_false, Bool.false_and,
      if_neg Bool.false_ne_true]
    exact ite_self _
  rw [compileResolved_gives hshape hkey]
  simp only [hhooks, hfields, finish_none, existsAndEq, elementScope_eq, Except.ok.injEq, true_and,
    exists_and_left]

/-- The parts of a field whose selection was compiled. -/
structure Projection where
  /-- The parameter for an object that the field resolves to. -/
  element : Parameter
  /-- The scope that the selection was compiled in. -/
  scope : Scope
  selection : CompiledSelection

/-- A field that resolves to objects, and whose selection stands for these fields, has these
parts. -/
structure Projection.Of (compiler : Compiler) (e : Expanded) (resolved : Resolved) (scope : Scope)
    (m m' : Memory) (compiled : Compiled) (selected : List Expanded) (p : Projection) : Prop where
  selects : e.selection = .selects selected
  gives : Gives (compiler.compileSelection (.parameter p.element) p.scope (.selects selected))
    { m with next := m.next + 1 } p.selection m'
  objectTy : objectTy? e.field.definition.shape resolved.expression.ty = some p.element.ty
  number : p.element.id = m.next
  mode : p.scope.mode = scope.mode
  path : p.scope.path = scope.path
  depth : p.scope.depth = scope.depth
  changed : p.scope.contextChanged = (scope.contextChanged || resolved.materialized)
  parameters : p.scope.parameters
    = p.element :: ((resolved.arguments.map Prod.fst).toList ++ scope.parameters)
  expression : ∃ scope', compiled.expression
    = projected e.field.definition.shape scope' resolved.expression p.element p.selection.fields
  constants : compiled.constants
    = (withArguments scope resolved.arguments).1.extend p.selection.constants
  deferred : compiled.deferredServices = p.selection.deferredServices

theorem projection_of_compileResolved (hshape : e.field.definition.shape ≠ .leaf)
    (hextensions : e.field.definition.extensions = [])
    (h : Gives (compileResolved e.field (compiler.selectOf e) resolved scope) m compiled m') :
    ∃ selected p, Projection.Of compiler e resolved scope m m' compiled selected p := by
  obtain ⟨ty, selection, hty, hselect, rfl⟩ := (compileResolved_iff hshape hextensions).1 h
  obtain ⟨selected, _, _, hsel, -, -⟩ := compileSelection_gives.1 hselect
  rw [selectOf, hsel] at hselect
  refine ⟨selected, ⟨placeholder e.field ty m.next, _, selection⟩,
    { selects := hsel
      gives := hselect
      objectTy := hty
      number := rfl
      mode := mode_withArguments _ _
      path := ?_
      depth := ?_
      changed := ?_
      parameters := ?_
      expression := ⟨_, rfl⟩
      constants := rfl
      deferred := rfl }⟩
  all_goals cases resolved.arguments <;> rfl

section Parts

variable {e : Expanded} (hsimple : e.Every (SelectedField.Simple I.services next))
  {resolved : Resolved} {compiled : Compiled} {selected : List Expanded} {p : Projection}
  (hp : Projection.Of compiler e resolved scope m m' compiled selected p)

include hsimple hp

theorem Projection.Of.simple : ∀ f ∈ selected, f.Every (Simple I.services next) :=
  fun _ hf => hsimple.of_selects hp.selects hf

theorem Projection.Of.drawn :
    p.selection.constants.Drawn Ty.IsRecord (m.next + 1) m'.next :=
  (selectsDrawn_of_sound (soundBelow hsimple.toSound) ((selectOf_gives hp.selects).2 hp.gives)).2

theorem Projection.Of.element_ty {R : Ty → Prop}
    (hunder : Ty.Under R resolved.expression.ty e.field.definition.resolve.ty)
    (hne : selected ≠ []) : R p.element.ty :=
  under_objectTy? (outputType?_of_selects hsimple.toSound hp.selects hne) hunder hp.objectTy

variable {own : Option Parameter}

theorem Projection.Of.not_mem_freeParameters (hown : ∀ q ∈ own, next ≤ q.id ∧ q.id < m.next) :
    ∀ q ∈ own, q ∉ p.selection.fields.toRecord.freeParameters := by
  intro q hq hmem
  obtain ⟨hle, hold⟩ := hown q hq
  have hselect : Gives (compiler.selectOf e (.parameter p.element) p.scope)
      { m with next := m.next + 1 } p.selection m' := (selectOf_gives hp.selects).2 hp.gives
  obtain ⟨f, hf, hmem⟩ := SelectionMap.mem_freeParameters_toRecord.1 hmem
  rcases free_of_select (soundBelow hsimple.toSound) .parameter hselect hf
    hmem with rfl | hkey | hlow
  · rw [hp.number] at hold
    exact Nat.lt_irrefl _ hold
  · have := ((hp.drawn hsimple).range q hkey).1
    omega
  · omega

theorem Projection.Of.forced?_moved (hown : ∀ q ∈ own, next ≤ q.id ∧ q.id < m.next)
    (hshape : e.field.definition.shape ≠ .leaf) (env : Environment) (context : Expr) :
    (compiled.expression.moved own context).forced? I.services env
      = ((resolved.expression.moved own context).value? I.services env).bind fun v =>
          if p.selection.fields.isEmpty then v.force
          else v.each e.field.definition.shape fun x =>
            p.selection.fields.toRecord.forced? I.services (env.bind p.element x) := by
  obtain ⟨scope', hexpression⟩ := hp.expression
  rw [hexpression, forced?_projected context (hp.not_mem_freeParameters hsimple hown) hshape]

theorem Projection.Of.runs (hbound : ∀ b ∈ resolved.arguments, b.1.id < m.next)
    (hnext : next ≤ m.next) (hbase : ∀ q, q.id < next → env q = I.base q)
    (hconstants : ∀ q v, compiled.constants.get? q = some v → env q = some v) (x : Value) :
    I.Runs next (.parameter p.element) x p.selection.constants (env.bind p.element x) := by
  have hdrawn := hp.drawn hsimple
  have hincludes := (includes_withArguments scope hdrawn fun b hb =>
    Nat.lt_succ_of_lt (hbound b hb)).1
  exact Interpretation.runs_bind (hp.number.symm ▸ hnext)
    (hp.number.symm ▸ Nat.lt_succ_self _) hdrawn hbase
    (fun q v hv => hconstants q v (hp.constants ▸ hincludes q v hv)) x

end Parts

theorem forced?_made {made : List (Expanded × Compiled)} {fields : SelectionMap}
    (happart : Text.Apart ((made.map Prod.fst).map Expanded.responseKey)) (hfields : fields.fields
      = Merge.merge (made.map fun e => (e.1.field.responseKey, e.2.expression)))
    {value : Expanded → Value → Option Value}
    (hvalue : ∀ e ∈ made, e.2.expression.forced? services env = value e.1 x) :
    fields.toRecord.forced? services env
      = recordOf ((made.map Prod.fst).map fun f => (f.field.responseKey, value f)) x := by
  have hkeys : (made.map fun e => (e.1.field.responseKey, e.2.expression)).map Prod.fst
      = (made.map Prod.fst).map Expanded.responseKey := by
    rw [map_map, map_map]
    rfl
  rw [Merge.merge_of_apart (hkeys ▸ happart)] at hfields
  have hdistinct : fields.Distinct := by
    rw [SelectionMap.Distinct, hfields, hkeys]
    exact happart
  rw [SelectionMap.forced?_toRecord hdistinct, hfields]
  refine congrArg (Option.map Value.object) ?_
  clear happart hfields hkeys hdistinct
  induction made with
  | nil => rfl
  | cons e rest ih =>
    obtain ⟨he, hrest⟩ := forall_mem_cons.1 hvalue
    simp only [map_cons, mapEntries_cons, ih hrest, he]

/-! ## Evaluating -/

/-- Wherever the field is compiled in full, in a context that is no record, it evaluates to what it
means in one pass. -/
def MeansOnce (compiler : Compiler) (I : Interpretation) (next : Nat) (e : Expanded) : Prop :=
  ∀ {context : Expr} {c : Parameter} {scope : Scope} {m m' : Memory} {compiled : Compiled}
    {source : Value → Option Value} {env : Environment} {x : Value},
    Gives (compiler.compileExpanded context scope e) m compiled m' → scope.mode = .full →
    context.ty.Bare → context.ReadsOf c → c ∈ scope.parameters →
    I.Reaches next context e.field source → next ≤ m.next →
    I.Runs next context x compiled.constants env →
    compiled.expression.forced? I.services env = (source x).bind (I.onceBelow e)

theorem forced?_selection_once {element : Parameter} (hty : element.ty.Bare)
    {selection : CompiledSelection}
    (h : Gives (compiler.compileSelection (.parameter element) scope (.selects fields))
      m selection m')
    (hfields : ∀ f ∈ fields, f.Every (Simple I.services next))
    (happart : Text.Apart (fields.map Expanded.responseKey))
    (hbelow : ∀ f ∈ fields, MeansOnce compiler I next f) (hmode : scope.mode = .full)
    (hmem : element ∈ scope.parameters) (hid : next ≤ element.id) (hnext : next ≤ m.next)
    (henv : I.Runs next (.parameter element) x selection.constants env) :
    selection.fields.toRecord.forced? I.services env = recordOf (I.onceAll fields) x := by
  have hdrawn : ∀ f ∈ fields, compiler.Draws Ty.IsRecord f :=
    fun f hf => drawn_of_compileExpanded ((hfields f hf).imp fun _ _ h => h.draws)
  obtain ⟨made, m₁, rfl, hfields', hassemble, hrecord, hmade⟩ :=
    compileSelection_full (I := fun m => next ≤ m.next) hmode
      (fun f hf {_ _ _} hc hm => Nat.le_trans hm (hdrawn f hf hc).1.next) hnext h
  have hincludes := includes_of_assemble (drawn_of_compileFields hdrawn hfields').2 hassemble
  rw [I.onceAll_eq]
  refine forced?_made happart hrecord fun e he => ?_
  obtain ⟨m₂, m₃, hm₂, hc⟩ := hmade e he
  obtain ⟨selections, hown⟩ := (hfields e.1 (mem_map_of_mem he)).holds
  rw [I.once_eq]
  exact hbelow e.1 (mem_map_of_mem he) hc hmode hty .parameter hmem
    (reaches_of_le hown.definition .parameter hid) hm₂
    ⟨henv.base, henv.context,
      fun p v hv => henv.constants p v (hincludes _ (mem_map_of_mem he) p v hv)⟩

theorem forced?_resolved_once (hsimple : e.Every (Simple I.services next))
    (hunambiguous : e.Unambiguous)
    (hbelow : ∀ fields, e.selection = .selects fields → ∀ f ∈ fields, MeansOnce compiler I next f)
    {record : Option (List (String × Value))} {n : Nat} (hnext : next ≤ n)
    (hn : m.next = n + record.toList.length) {source : Expr}
    (h : Gives (compileResolved e.field (compiler.selectOf e)
      ⟨source, false, Resolve.bound e.field record n⟩ scope) m compiled m')
    (hmode : scope.mode = .full) (hunder : Ty.Under Ty.Bare source.ty e.field.definition.resolve.ty)
    {own : Option Parameter} (hown : ∀ q ∈ own, next ≤ q.id ∧ q.id < n) (context : Expr)
    (hbase : ∀ p, p.id < next → env p = I.base p)
    (hconstants : ∀ p v, compiled.constants.get? p = some v → env p = some v) :
    (compiled.expression.moved own context).forced? I.services env
      = ((source.moved own context).value? I.services env).bind (I.onceBelow e) := by
  obtain ⟨selections, hfield⟩ := hsimple.holds
  by_cases hshape : e.field.definition.shape = .leaf
  · obtain ⟨rfl, -⟩ := (compileResolved_leaf hshape).1 h
    refine Option.bind_congr fun v hv => ?_
    rw [onceBelow, shaped, if_pos hshape]
  · obtain ⟨selected, p, hp⟩ := projection_of_compileResolved hshape hfield.extensions h
    have hbound : ∀ b ∈ Resolve.bound e.field record n, b.1.id < m.next := by
      intro b hb
      have := Resolve.id_bound e.field record n b hb
      omega
    have hold : ∀ q ∈ own, next ≤ q.id ∧ q.id < m.next := fun q hq =>
      ⟨(hown q hq).1, by have := (hown q hq).2; omega⟩
    have hm : next ≤ m.next := by omega
    rw [hp.forced?_moved hsimple hold hshape]
    refine Option.bind_congr fun v hv => ?_
    have hfull : p.scope.mode = .full := hp.mode.trans hmode
    rw [isEmpty_compileSelection hp.gives hfull, onceBelow, hp.selects, onceOf]
    cases hselected : selected with
    | nil => exact (shaped_nil hshape false v).symm
    | cons first rest =>
      have hne : selected ≠ [] := hselected ▸ cons_ne_nil _ _
      have hmembers : I.onceAll (first :: rest) ≠ [] := cons_ne_nil _ _
      rw [shaped_members hshape hmembers, isEmpty_cons, if_neg Bool.false_ne_true, ← hselected]
      refine congrArg (v.each _) (funext fun x => ?_)
      exact forced?_selection_once (hp.element_ty hsimple hunder hne) hp.gives (hp.simple hsimple)
        (hunambiguous.apart hp.selects) (hbelow _ hp.selects) hfull
        (hp.parameters ▸ mem_cons_self) (hp.number.symm ▸ hm) (Nat.le_succ_of_le hm)
        (hp.runs hsimple hbound hm hbase hconstants x)

/-- **One pass.**  A field that is compiled in full, in a context that is no record, evaluates to
what it means in one pass. -/
theorem meansOnce (hvalues : I.values = compiler.values)
    (hsimple : e.Every (Simple I.services next)) (hunambiguous : e.Unambiguous) :
    MeansOnce compiler I next e := by
  induction e using Expanded.induct with
  | field e ih =>
    intro context c scope m m' compiled source env x h hmode hty hreads hmem hsource hnext henv
    obtain ⟨p, hp⟩ := placement_of_compileExpanded hvalues hsimple.toSound hty hreads hmem hnext h
    have hfull : (ownScope scope p.own).mode = .full := (mode_ownScope scope p.own).trans hmode
    rw [hp.compiled_eq, forced?_resolved_once hsimple hunambiguous
      (fun fields hsel f hf => ih fields hsel f hf (hsimple.of_selects hsel hf)
        (hunambiguous.of_selects hsel hf))
      (Nat.le_trans hnext hp.number) rfl hp.gives hfull (hp.under (fun _ => rfl) hty) hp.own
        context henv.base
      (hp.constants_eq ▸ henv.constants), hp.value hsource henv]

/-- **A service field over fetched data** evaluates to what it means in one pass for a value of its
context, if what was fetched is what its chains evaluate to for that value. -/
theorem forced?_service_once (hvalues : I.values = compiler.values)
    (hsimple : e.Every (Simple I.services next)) (hunambiguous : e.Unambiguous)
    (hservice : e.field.definition.requiresService = true) {el : Parameter}
    (hshape : el.ty.shape?.isSome = true) (hchanged : scope.contextChanged = true)
    (hmode : scope.mode = .full) (hid : next ≤ el.id) (hlt : el.id < m.next)
    (h : Gives (compiler.compileExpanded (.parameter el) scope e) m compiled m') {y : Value}
    (hfetched : ∀ chains, e.field.definition.resolve.dependencies
        (.identity e.field.definition.context) scope.path = .ok chains →
      Resolve.Fetched I.services el (m.fetched.get scope.path) x y chains)
    (henv : I.Runs next (.parameter el) y compiled.constants env) :
    compiled.expression.forced? I.services env = I.once e x := by
  obtain ⟨record, source, m₁, -, hnext, hm₁, hc, hty, hvalue⟩ :=
    exists_resolved_of_service hservice hshape hchanged hid hlt h hfetched henv hvalues
      hsimple.toSound
  rw [I.once_eq, ← hvalue]
  exact forced?_resolved_once hsimple hunambiguous
    (fun fields hsel f hf => meansOnce hvalues (hsimple.of_selects hsel hf)
      (hunambiguous.of_selects hsel hf)) hnext hm₁ hc hmode (hty.symm ▸ .refl (fun _ => rfl) _)
    (fun q hq => absurd hq (Option.not_mem_none q)) (.parameter el) henv.base henv.constants

end Compiler
end QueryProjection
