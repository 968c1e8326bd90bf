import QueryProjection.Proofs.Compile.Failure
import QueryProjection.Proofs.Compile.Lockstep
import QueryProjection.Proofs.Compile.Visits
import QueryProjection.Proofs.Execute.Bound
import QueryProjection.Proofs.Expr.Alike
import QueryProjection.Proofs.Isolation

/-!
# Fields without services

A field of the operation is compiled for the data pass before it is known whether it needs a
service.  If it needs none, what the data pass made of it is thrown away, and the full pass against
the schema counts.  So the data pass should not be seen, neither in the value nor in the error.
There is one way in which it can be: it finds out what the extensions of a list read of its
elements, which the full pass never asks, and finding out may fail.

* `Compiler.lockstep_compileExpanded` compares the two compilations of a field;
* `Executor.data_pass_invisible`: a field without services ends as its full pass does, unless the
  data pass fails that way.

## Why the passes are compared step by step

Their ends cannot be compared alone, because a field is compiled from the memory that its siblings
leave.  In lockstep both passes draw the same parameters.  What they make differs, since the data
pass adds chains of members to the fields of an element; but it mentions the same parameters, and
these alone decide what becomes of it when it is moved to another context.  So
`Compiler.SameCompiled` asks for no more.  Hooks do not ask for the pass, and their second halves
write chains of that kind themselves (`Known.postSelection_eq`).

## Why the exception is about visits

Whether extensions read an element as a whole depends on where their field is compiled: a hook may
have swapped the elements before, and the pass may not get to the field at all.  So
`Visit.overread?` runs the hooks where a compilation gets to the field, in the context and scope and
from the memory that it has there, and `Executor.Overread` says that one of these visits ends with
the error.  Whether it does can be computed.
-/

namespace QueryProjection

open List SelectionMap

/-! ## Extensions -/

theorem Hook.stepwise_pure : Hook.Stepwise fun _ hook => hook.Pure where
  pure _ _ _ h := ⟨rfl, h⟩
  throw _ _ _ h := ⟨rfl, h⟩
  ofFresh x j k h := by
    show (Except.ok (x.run j.next).1 : Except String _) = .ok (x.run k.next).1
      ∧ (x.run j.next).2 = (x.run k.next).2
    rw [h]
    exact ⟨rfl, rfl⟩
  bind {α β x f} hx hf j k h := by
    obtain ⟨hres, hnext⟩ := hx j k h
    rw [outcome_bind, outcome_bind]
    rcases hj : outcome x j with ⟨r, j'⟩
    rcases hk : outcome x k with ⟨r', k'⟩
    rw [hj, hk] at hres hnext
    obtain rfl : r = r' := hres
    cases r with
    | error e => exact ⟨rfl, hnext⟩
    | ok a => exact hf a j' k' hnext

variable {pre' : PreSelection}

namespace Extension

theorem Known.isPure {x : Extension} (h : x.Known) : x.Pure where
  preSelection context := (h.stepwise Hook.stepwise_pure context).1
  postSelection context := (h.stepwise Hook.stepwise_pure context).2

variable {x : Extension} {context : HookContext}

theorem Known.preSelection_mode (h : x.Known) (context : HookContext) (mode : Mode) :
    x.preSelection { context with mode } = x.preSelection context := by
  cases h <;> rfl

theorem Known.postSelection_mode (h : x.Known) (context : HookContext) (mode : Mode) :
    x.postSelection { context with mode } = x.postSelection context := by
  cases h <;> rfl

theorem Known.readsOf_preSelection (h : x.Known) {pre : PreSelection} {j j' : Journal}
    (hreads : pre.elementContext.ReadsOf pre.element)
    (hpre : Gives (x.preSelection context pre) j pre' j') :
    pre'.elementContext.ReadsOf pre'.element := by
  cases h with
  | filter argument predicate =>
    rcases filter_gives.1 hpre with ⟨-, rfl, -⟩ | ⟨-, _, _, _, -, -, -, rfl, -⟩
    · exact hreads
    · exact hreads
  | sort key =>
    rcases sort_gives.1 hpre with ⟨-, rfl, -⟩ | ⟨-, _, _, _, -, -, -, rfl, -⟩
    · exact hreads
    · exact hreads
  | offsetPaging defaultSize maxSize =>
    rcases offsetPaging_gives.1 hpre with ⟨-, rfl, -⟩ | ⟨-, -, _, _, -, -, rfl, -⟩
    · exact hreads
    · exact hreads
  | position key =>
    rcases position_gives.1 hpre with ⟨-, rfl, -⟩ | ⟨-, element, item, -, hitem, rfl, -⟩
    · exact hreads
    · exact hreads.replace (Expr.ReadsOf.parameter.recordMember? hitem)

theorem Known.postSelection_eq (h : x.Known) (context : HookContext) (element : Parameter) :
    (∀ selection, x.postSelection context ⟨selection, element⟩ = pure ⟨selection, element⟩)
      ∨ ∃ (key : String) (e : Expr), e.ReadsOf element ∧ ∀ selection : SelectionMap,
          x.postSelection context ⟨selection, element⟩
            = pure ⟨selection.insert key e, element⟩ := by
  cases h with
  | filter => exact .inl fun _ => rfl
  | sort => exact .inl fun _ => rfl
  | offsetPaging => exact .inl fun _ => rfl
  | position key =>
    unfold Extension.position
    dsimp only
    cases hm : Expr.recordMember? (.parameter element)
        (if context.materialized = true then key else "index") with
    | none => exact .inl fun _ => rfl
    | some e => exact .inr ⟨key, e, Expr.ReadsOf.parameter.recordMember? hm, fun _ => rfl⟩

end Extension

/-! ## The steps of the two passes -/

/-- The same place in the selection, compiled for this pass. -/
def Scope.inMode (scope : Scope) (mode : Mode) : Scope :=
  { scope with mode }

variable {keys : FetchedKeys} {U : CompileError → Prop} {m n : Memory}

section Supplies

variable (h : Memory.Supplies keys m n)

include h

theorem Compile.lockstep_ofHook {α : Type} (path : FieldPath) (extension : String) {hook : Hook α}
    (hpure : hook.Pure) :
    Lockstep keys U Eq (ofHook path extension hook) m (ofHook path extension hook) n := by
  obtain ⟨hres, hnext⟩ := hpure m.toJournal n.toJournal h.next
  unfold Lockstep Gives
  rw [outcome_ofHook, outcome_ofHook, ← hres]
  cases (outcome hook m.toJournal).1 with
  | error message => exact .inl ⟨_, rfl, .inr rfl⟩
  | ok a => exact .inr ⟨a, a, _, _, rfl, rfl, rfl, hnext, h.fetched⟩

open Compile

namespace Resolve

variable {field : SelectedField} {given : VariableValues} {context : Expr} {scope : Scope}

theorem lockstep_bindArguments (path : FieldPath) :
    Lockstep keys U Eq (bindArguments field given path) m (bindArguments field given path) n := by
  unfold bindArguments
  dsimp only
  split
  · exact lockstep_throw _
  · split
    · exact lockstep_pure h rfl
    · refine (lockstep_ofExcept_self h _).bind ?_
      rintro values m₁ _ n₁ - - rfl h
      refine (lockstep_ofFresh h _).bind ?_
      rintro p m₂ _ n₂ - - rfl h
      exact lockstep_pure h rfl

variable (hservice : field.definition.requiresService = false)

include hservice

theorem lockstep_build :
    Lockstep keys U Eq (build field given context scope) m (build field given context scope) n := by
  have hresolver : resolverIn field context scope = pure field.definition.resolve := by
    show (if readsFetched field context scope = true then _ else _) = _
    rw [readsFetched, hservice, Bool.and_false, Bool.false_and]
    rfl
  rw [build_eq, hresolver]
  refine (lockstep_bindArguments h _).bind ?_
  rintro arguments m₁ _ n₁ - - rfl h
  refine (lockstep_pure h rfl).bind ?_
  rintro resolver m₂ _ n₂ - - rfl h
  dsimp only
  split
  · exact lockstep_throw _
  · exact lockstep_pure h rfl

theorem lockstep_resolve (mode : Mode) :
    Lockstep keys U Eq (resolve field given context scope) m
      (resolve field given context (scope.inMode mode)) n := by
  have hmode :
      resolve field given context (scope.inMode mode) = resolve field given context scope :=
    rfl
  rw [hmode]
  unfold resolve
  split
  · split
    · exact lockstep_pure h rfl
    · exact lockstep_build h hservice
  · exact lockstep_build h hservice

end Resolve

end Supplies

open Compile

namespace Compiler

variable {compiler : Compiler} {field : SelectedField} {select : Select} {resolved : Resolved}
  {extensions : List Extension} {pre : PreSelection} {element : Parameter} {ds fs : SelectionMap}

/-- What a field is compiled to in the data pass, without a service, and in the full pass. -/
structure SameCompiled (d f : Compiled) : Prop where
  alike : d.expression.Alike f.expression
  undeferred : d.deferredServices = false

/-- What a selection is compiled to in the data pass, without a service, and in the full pass. -/
structure SameSelection (d f : CompiledSelection) : Prop where
  fields : SameFields d.fields.fields f.fields.fields
  undeferred : d.deferredServices = false

/-- Something is compiled in this situation and, from a memory of its own, in the full pass. -/
abbrev LockstepIn (keys : FetchedKeys) (U : CompileError → Prop) {α : Type} (R : α → α → Prop)
    (s : Situation) (n : Memory) (x : Expr → Scope → Compile α) : Prop :=
  Lockstep keys U R (x s.context s.scope) s.memory (x s.context (s.scope.inMode .full)) n

section Hooks

variable (hknown : ∀ x ∈ extensions, x.Known)

include hknown

theorem runPreSelection_mode (hooks : HookContext) (mode : Mode) (input : PreSelection) :
    runPreSelection { hooks with mode } extensions input
      = runPreSelection hooks extensions input := by
  induction extensions generalizing input with
  | nil => rfl
  | cons x rest ih =>
    obtain ⟨hx, hrest⟩ := forall_mem_cons.1 hknown
    rw [runPreSelection, runPreSelection, hx.preSelection_mode hooks mode]
    exact bind_congr fun input => ih hrest input

theorem runPostSelection_mode (hooks : HookContext) (mode : Mode) (input : PostSelection) :
    runPostSelection { hooks with mode } extensions input
      = runPostSelection hooks extensions input := by
  induction extensions generalizing input with
  | nil => rfl
  | cons x rest ih =>
    obtain ⟨hx, hrest⟩ := forall_mem_cons.1 hknown
    rw [runPostSelection, runPostSelection, hx.postSelection_mode hooks mode]
    exact bind_congr fun input => ih hrest input

theorem lockstep_runPreSelection (h : Memory.Supplies keys m n) (hooks : HookContext)
    (input : PreSelection) :
    Lockstep keys U Eq (runPreSelection hooks extensions input) m
      (runPreSelection hooks extensions input) n := by
  induction extensions generalizing input m n with
  | nil => exact lockstep_pure h rfl
  | cons x rest ih =>
    obtain ⟨hx, hrest⟩ := forall_mem_cons.1 hknown
    refine (lockstep_ofHook h _ _ (hx.isPure.preSelection _ _)).bind ?_
    rintro input m₁ _ n₁ - - rfl h
    exact ih hrest h input

theorem readsOf_runPreSelection {hooks : HookContext} {m m' : Memory}
    (hreads : pre.elementContext.ReadsOf pre.element)
    (hpre : Gives (runPreSelection hooks extensions pre) m pre' m') :
    pre'.elementContext.ReadsOf pre'.element :=
  keeps_of_runPreSelection (I := fun pre _ => pre.elementContext.ReadsOf pre.element)
    (fun x hmem _ _ _ _ hhook hreads => (hknown x hmem).readsOf_preSelection hreads hhook) hpre
    hreads

theorem lockstep_runPostSelection (h : Memory.Supplies keys m n) (hooks : HookContext)
    (hpadded : Padded element ds.fields fs.fields) :
    Lockstep keys U
      (fun d f => d.element = element ∧ f.element = element
        ∧ Padded element d.selection.fields f.selection.fields)
      (runPostSelection hooks extensions ⟨ds, element⟩) m
      (runPostSelection hooks extensions ⟨fs, element⟩) n := by
  induction extensions generalizing ds fs with
  | nil => exact lockstep_pure h ⟨rfl, rfl, hpadded⟩
  | cons x rest ih =>
    obtain ⟨hx, hrest⟩ := forall_mem_cons.1 hknown
    rw [runPostSelection, runPostSelection]
    rcases hx.postSelection_eq hooks element with heq | ⟨key, e, he, heq⟩
    · rw [heq, heq]
      exact ih hrest hpadded
    · rw [heq, heq]
      refine ih hrest ?_
      rw [fields_insert, fields_insert]
      exact hpadded.write key he

end Hooks

/-! ## Reading an element as a whole -/

/-- Looks for what the hooks of a resolved list field read of its elements, and returns the error
with which that fails. -/
def overread? (field : SelectedField) (resolved : Resolved) (scope : Scope) (m : Memory) :
    Option CompileError :=
  let scope := (withArguments scope resolved.arguments).2
  if field.definition.shape ≠ .list ∨ field.definition.extensions.isEmpty then none
  else
    resolved.expression.ty.element?.bind fun ty =>
      let element := placeholder field ty m.next
      match outcome (runPreSelection (hookContext scope resolved) field.definition.extensions
          ⟨resolved.expression, element, .parameter element⟩) { m with next := m.next + 1 } with
      | (.error _, _) => none
      | (.ok pre, _) =>
        match pre.collection.dependencies (.type ty) scope.path with
        | .error error => some error
        | .ok _ => none

/-- The same where a field is compiled: in its own context and scope, and from its own memory. -/
def Visit.overread? (compiler : Compiler) (visit : Visit) : Option CompileError :=
  match outcome (Resolve.resolve visit.field compiler.values visit.context visit.scope)
      visit.memory with
  | (.ok resolved, m) => Compiler.overread? visit.field resolved visit.scope m
  | (.error _, _) => none

theorem unscopedContext_of_overread? {scope : Scope} {error : CompileError}
    (h : overread? field resolved scope m = some error) :
    ∃ path name, error = .unscopedContext path name := by
  unfold overread? at h
  dsimp only at h
  split at h
  · cases h
  · obtain ⟨ty, -, h⟩ := Option.bind_eq_some_iff.1 h
    split at h
    · cases h
    · split at h <;> cases h
      rename_i hread
      obtain ⟨name, rfl⟩ := Expr.error_of_collect _ _ _ _ _ hread
      exact ⟨_, name, rfl⟩

theorem Visit.unscopedContext_of_overread? {visit : Visit} {error : CompileError}
    (h : visit.overread? compiler = some error) :
    ∃ path name, error = .unscopedContext path name := by
  unfold Visit.overread? at h
  split at h
  · exact Compiler.unscopedContext_of_overread? h
  · cases h

/-! ## One field -/

theorem alike_projectList {source : Expr} (h : Padded element ds.fields fs.fields) (scope : Scope)
    (mode : Mode) :
    (projectList scope source element ds).Alike
      (projectList (scope.inMode mode) source element fs) := by
  have halike : (Expr.projectEach source element ds.toRecord).Alike
      (.projectEach source element fs.toRecord) := Expr.alike_projectEach h
  have hleft : (projectList scope source element ds).Alike
      (.projectEach source element fs.toRecord) := by
    show Expr.Alike (if _ then _ else _) _
    split
    · exact halike.materialize_left
    · exact halike
  show Expr.Alike _ (if _ then _ else _)
  split
  · exact hleft.symm.materialize_left.symm
  · exact hleft

theorem padded_elementFields {scope : Scope} {ty : Ty} {ds' : SelectionMap}
    (hreads : pre.elementContext.ReadsOf pre.element) (hsame : SameFields ds.fields fs.fields)
    (h : elementFields field scope ty pre ds = .ok ds') :
    Padded pre.element ds'.fields fs.fields ∧ ds'.isEmpty = fs.isEmpty := by
  have hadds : ds.Adds (Expr.ReadsOf pre.element) ds'
      ∧ (ds.isEmpty = true → ds'.isEmpty = true) := by
    unfold elementFields at h
    split at h
    · rename_i hif
      obtain ⟨read, hread, heq⟩ := bind_eq_ok_iff.1 h
      cases heq
      refine ⟨adds_addElementDependencies (fun d hd => ?_) ds, fun hempty => ?_⟩
      · exact ((Expr.chainOn_of_dependencies hread d hd).readsOf .parameter).replace hreads
      · simp [hempty] at hif
    · cases h
      exact ⟨.refl _ _, id⟩
  obtain ⟨hadds, hempty⟩ := hadds
  obtain ⟨more, hmore, hreads⟩ := hadds.fields
  refine ⟨⟨ds.fields, more, fs.fields, [], hmore, (append_nil _).symm, hsame, hreads,
    forall_mem_nil _⟩, ?_⟩
  have hds : ds'.isEmpty = ds.isEmpty := Bool.eq_iff_iff.2 ⟨hadds.isEmpty, hempty⟩
  exact hds.trans hsame.isEmpty

section Lockstep

variable (h : Memory.Supplies keys m n)

include h

theorem lockstep_compileObject {scope : Scope} {constants : Constants}
    (hselect : ∀ element n, element = placeholder field resolved.expression.ty m.next →
      Memory.Supplies keys { m with next := m.next + 1 } n →
      LockstepIn keys U SameSelection
        ⟨.parameter element, objectScope scope resolved element, { m with next := m.next + 1 }⟩ n
        select) :
    Lockstep keys U SameCompiled (compileObject field select resolved scope constants) m
      (compileObject field select resolved (scope.inMode .full) constants) n := by
  unfold compileObject
  dsimp only
  split
  · exact lockstep_throw _
  · refine (lockstep_ofFresh h _).bind ?_
    rintro element m₁ _ n₁ helement - rfl h
    obtain ⟨rfl, rfl⟩ := gives_ofFresh.1 helement
    refine (hselect _ n₁ rfl h).bind fun d m₂ f n₂ _ _ hdf h => lockstep_pure h ⟨?_, hdf.undeferred⟩
    have hempty : d.fields.isEmpty = f.fields.isEmpty := hdf.fields.isEmpty
    rw [hempty]
    split
    · exact .refl _
    · exact Expr.alike_projectOne hdf.fields

variable (hknown : ∀ x ∈ field.definition.extensions, x.Known)

include hknown

theorem lockstep_compileList {scope : Scope} {constants : Constants}
    (hselect : ∀ ty pre m₁ n, resolved.expression.ty.element? = some ty →
      Gives (runPreSelection (hookContext scope resolved) field.definition.extensions
        ⟨resolved.expression, placeholder field ty m.next,
          .parameter (placeholder field ty m.next)⟩)
        { m with next := m.next + 1 } pre m₁ →
      Memory.Supplies keys m₁ n →
      LockstepIn keys U SameSelection
          ⟨pre.elementContext, elementScope scope resolved (placeholder field ty m.next) pre, m₁⟩ n
          select
        ∧ ∀ error, field.definition.extensions.isEmpty = false →
          pre.collection.dependencies (.type ty) scope.path = .error error → U error) :
    Lockstep keys U SameCompiled (compileList field select resolved scope constants) m
      (compileList field select resolved (scope.inMode .full) constants) n := by
  rw [compileList_eq, compileList_eq]
  cases hty : resolved.expression.ty.element? with
  | none => exact lockstep_throw _
  | some ty =>
    dsimp only
    have hpreSelection : runPreSelection (hookContext (scope.inMode .full) resolved)
        field.definition.extensions
          = runPreSelection (hookContext scope resolved) field.definition.extensions :=
      funext (runPreSelection_mode hknown (hookContext scope resolved) .full)
    have hreverse : ∀ x ∈ field.definition.extensions.reverse, x.Known :=
      fun x hx => hknown x (mem_reverse.1 hx)
    have hpostSelection : runPostSelection (hookContext (scope.inMode .full) resolved)
        field.definition.extensions.reverse
          = runPostSelection (hookContext scope resolved) field.definition.extensions.reverse :=
      funext (runPostSelection_mode hreverse (hookContext scope resolved) .full)
    rw [hpreSelection, hpostSelection]
    refine (lockstep_ofFresh h _).bind ?_
    rintro element m₁ _ n₁ helement - rfl h
    obtain ⟨rfl, rfl⟩ : element = placeholder field ty m.next
        ∧ m₁ = { m with next := m.next + 1 } := gives_ofFresh.1 helement
    refine (lockstep_runPreSelection hknown h _ _).bind ?_
    rintro pre m₂ _ n₂ hpre - rfl h
    have hreads := readsOf_runPreSelection hknown .parameter hpre
    obtain ⟨hbelow, hU⟩ := hselect ty pre m₂ n₂ hty hpre h
    refine hbelow.bind fun d m₃ f n₃ _ _ hdf h => ?_
    have hfull : elementFields field (scope.inMode .full) ty pre f.fields = .ok f.fields :=
      elementFields_full rfl
    refine Lockstep.bind (R := fun d' f' => Padded pre.element d'.fields f'.fields
      ∧ d'.isEmpty = f'.isEmpty) (lockstep_ofExcept h ?_) ?_
    · cases hread : elementFields field scope ty pre d.fields with
      | ok ds => exact .inr ⟨ds, _, hread, hfull, padded_elementFields hreads hdf.fields hread⟩
      | error error =>
        obtain ⟨hne, hwhole⟩ := error_of_elementFields hread
        exact .inl ⟨error, hread, .inl (hU error hne hwhole)⟩
    · rintro ds m₄ fs n₄ - - ⟨hpadded, hempty⟩ h
      rw [hempty]
      split
      · exact lockstep_pure h ⟨.refl _, hdf.undeferred⟩
      · refine (lockstep_runPostSelection hreverse h _ hpadded).bind ?_
        rintro ⟨ds', _⟩ m₅ ⟨fs', _⟩ n₅ - - ⟨rfl, rfl, hpadded⟩ h
        exact lockstep_pure h ⟨alike_projectList hpadded scope .full, hdf.undeferred⟩

theorem lockstep_compileResolved {scope : Scope}
    (hselect : ∀ inner n, Situation.below? field resolved scope m = some inner →
      Memory.Supplies keys inner.memory n → LockstepIn keys U SameSelection inner n select)
    (hU : ∀ error, overread? field resolved scope m = some error → U error) :
    Lockstep keys U SameCompiled (compileResolved field select resolved scope) m
      (compileResolved field select resolved (scope.inMode .full)) n := by
  have hscope : withArguments (scope.inMode .full) resolved.arguments
      = ((withArguments scope resolved.arguments).1,
          (withArguments scope resolved.arguments).2.inMode .full) := by
    unfold withArguments
    cases resolved.arguments <;> rfl
  unfold Situation.below? at hselect
  unfold overread? at hU
  rw [compileResolved_eq, compileResolved_eq, hscope]
  cases hshape : field.definition.shape with
  | leaf => exact lockstep_pure h ⟨.refl _, rfl⟩
  | object =>
    simp only [hshape] at hselect
    refine lockstep_compileObject h ?_
    rintro _ n rfl
    exact hselect _ n rfl
  | list =>
    simp only [hshape] at hselect hU
    refine lockstep_compileList h hknown fun ty pre m₁ n hty hpre h =>
      ⟨?_, fun error hne hread => ?_⟩
    · have hpre : outcome _ _ = (Except.ok pre, m₁) := hpre
      exact hselect _ n (by simp only [hty, Option.bind_some, hpre]) h
    · have hpre : outcome _ _ = (Except.ok pre, m₁) := hpre
      exact hU error (by simp [hne, hty, hpre, hread])

end Lockstep

section Situations

variable (hknown : ∀ x ∈ field.definition.extensions, x.Known)
  (hservice : field.definition.requiresService = false)

include hknown hservice

theorem lockstep_compileField {s : Situation} (h : Memory.Supplies keys s.memory n)
    (hselect : ∀ resolved m₁ inner n,
      Gives (Resolve.resolve field compiler.values s.context s.scope) s.memory resolved m₁ →
      Situation.below? field resolved s.scope m₁ = some inner →
      Memory.Supplies keys inner.memory n → LockstepIn keys U SameSelection inner n select)
    (hU : ∀ error, Visit.overread? compiler ⟨s, field⟩ = some error → U error) :
    LockstepIn keys U SameCompiled s n (compiler.compileField field select) := by
  have hrest : LockstepIn keys U SameCompiled s n (fun context scope => do
      let resolved ← Resolve.resolve field compiler.values context scope
      compileResolved field select resolved scope) := by
    refine (Resolve.lockstep_resolve h hservice .full).bind ?_
    rintro resolved m₁ _ n₁ hresolved - rfl h
    refine lockstep_compileResolved h hknown (fun inner n => hselect resolved m₁ inner n hresolved)
      fun error herror => hU error ?_
    have hresolved : outcome _ _ = (Except.ok resolved, m₁) := hresolved
    rw [Visit.overread?]
    dsimp only
    rw [hresolved]
    exact herror
  unfold LockstepIn compileField
  cases compiler.settings.maxDepth with
  | none => exact hrest
  | some limit =>
    show Lockstep _ U _ (if limit < s.scope.depth then _ else _) _
      (if limit < s.scope.depth then _ else _) _
    split
    · exact lockstep_throw _
    · exact hrest

theorem lockstep_compileFrom {s : Situation} (origin : Origin)
    (h : Memory.Supplies keys s.memory n)
    (hselect : ∀ resolved m₁ inner n,
      Gives (Resolve.resolve field compiler.values (s.enter origin).context (s.enter origin).scope)
        (s.enter origin).memory resolved m₁ →
      Situation.below? field resolved (s.enter origin).scope m₁ = some inner →
      Memory.Supplies keys inner.memory n → LockstepIn keys U SameSelection inner n select)
    (hU : ∀ error, Visit.overread? compiler ⟨s.enter origin, field⟩ = some error → U error) :
    LockstepIn keys U SameCompiled s n (compiler.compileFrom field origin select) := by
  unfold LockstepIn compileFrom
  cases origin with
  | direct => exact lockstep_compileField hknown hservice h hselect hU
  | fragment name typeCondition =>
    dsimp only
    rw [Situation.enter] at hselect hU
    split
    · rename_i hshape
      rw [if_pos hshape] at hselect hU
      exact lockstep_compileField hknown hservice h hselect hU
    · rename_i hshape
      rw [if_neg hshape] at hselect hU
      refine (lockstep_ofFresh h _).bind ?_
      rintro own m₁ _ n₁ hown - rfl h
      obtain ⟨rfl, rfl⟩ := gives_ofFresh.1 hown
      refine Lockstep.bind (lockstep_compileField hknown hservice h hselect hU)
        fun d m₂ f n₂ _ _ hdf h => ?_
      refine Lockstep.bind (R := fun d f => d.Alike f) (lockstep_ofRun h ?_)
        fun e m₃ e' n₃ _ _ he h => lockstep_pure h ⟨he, hdf.undeferred⟩
      exact hdf.alike.rebase _ _ _ _ _

end Situations

/-! ## A tree of fields -/

/-- The two contributions of a field that needs no service. -/
inductive SameContribution : Contribution → Contribution → Prop
  | selected (key : String) {d f : Compiled} (h : SameCompiled d f) :
      SameContribution (.selected key d) (.selected key f)

theorem lockstep_compileFields {fields : List Expanded}
    (hservice : ∀ e ∈ fields, e.field.definition.requiresService = false) {s : Situation}
    (hfields : ∀ e ∈ fields, ∀ {s : Situation} {n}, Memory.Supplies keys s.memory n →
      (∀ visit ∈ compiler.visits s e, ∀ error, visit.overread? compiler = some error → U error) →
      LockstepIn keys U SameCompiled s n fun context scope =>
        compiler.compileExpanded context scope e)
    (h : Memory.Supplies keys s.memory n)
    (hU : ∀ visit ∈ compiler.visitsAll s fields, ∀ error,
      visit.overread? compiler = some error → U error) :
    LockstepIn keys U (Forall₂ SameContribution) s n
      fun context scope => compiler.compileFields context scope fields := by
  induction fields generalizing s n with
  | nil =>
    unfold LockstepIn
    dsimp only
    rw [compileFields, compileFields]
    exact lockstep_pure h .nil
  | cons e rest ih =>
    obtain ⟨he, hrest⟩ := forall_mem_cons.1 hservice
    obtain ⟨hcompile, hcompiles⟩ := forall_mem_cons.1 hfields
    have hdefers : ∀ mode, defers mode e.field = false := by
      intro mode
      rw [defers, he, Bool.and_false]
    rw [visitsAll] at hU
    have hcontribute : LockstepIn keys U SameContribution s n
        fun context scope => compiler.contribute context scope e := by
      unfold LockstepIn contribute
      dsimp only
      rw [if_neg (by simp [hdefers]), if_neg (by simp [hdefers])]
      refine Lockstep.bind (hcompile (s := s.child e.field) h fun visit hvisit =>
        hU visit (mem_append_left _ hvisit)) fun d m₁ f n₁ _ _ hdf h => ?_
      exact lockstep_pure h (.selected _ hdf)
    unfold LockstepIn
    dsimp only
    rw [compileFields_cons, compileFields_cons]
    refine hcontribute.bind fun d m₁ f n₁ hd _ hdf h => ?_
    have hd : outcome _ _ = (Except.ok d, m₁) := hd
    rw [hd] at hU
    exact (ih (s := { s with memory := m₁ }) hrest hcompiles h fun visit hvisit =>
      hU visit (mem_append_right _ hvisit)).bind fun ds m₂ fs n₂ _ _ hdfs h =>
        lockstep_pure h (.cons hdf hdfs)

theorem sameSelection_of_contributions {ds fs : List Contribution}
    (h : Forall₂ SameContribution ds fs) {d f : CompiledSelection} (hdf : SameSelection d f) :
    SameSelection (ds.foldl CompiledSelection.add d) (fs.foldl CompiledSelection.add f)
      ∧ ds.flatMap Contribution.dependencies = [] ∧ fs.flatMap Contribution.dependencies = [] := by
  induction h generalizing d f with
  | nil => exact ⟨hdf, rfl, rfl⟩
  | cons hfirst _ ih =>
    cases hfirst with
    | selected key hcompiled =>
      refine ih ⟨?_, ?_⟩
      · show SameFields (insert _ _ _).fields (insert _ _ _).fields
        rw [fields_insert, fields_insert]
        exact hdf.fields.write key hcompiled.alike
      · show (_ || _) = false
        rw [hdf.undeferred, hcompiled.undeferred]
        rfl

/-- **Without services a field is compiled in lockstep for the two passes**, unless the data pass
gets to a list field whose hooks read an element as a whole. -/
theorem lockstep_compileExpanded (e : Expanded)
    (hservice : ∀ x : Expanded, x.Within e → x.field.definition.requiresService = false)
    (hknown : ∀ x : Expanded, x.Within e → ∀ y ∈ x.field.definition.extensions, y.Known)
    {s : Situation} (h : Memory.Supplies keys s.memory n)
    (hU : ∀ visit ∈ compiler.visits s e, ∀ error, visit.overread? compiler = some error → U error) :
    LockstepIn keys U SameCompiled s n
      fun context scope => compiler.compileExpanded context scope e := by
  induction e using Expanded.induct generalizing s n with
  | field e ih =>
    have hdefers : defers s.scope.mode e.field = false := by
      rw [defers, hservice e .here, Bool.and_false]
    unfold LockstepIn
    dsimp only
    rw [compileExpanded_eq, compileExpanded_eq]
    refine lockstep_compileFrom (s := s) (hknown e .here) (hservice e .here) e.origin h
      (fun resolved m₁ inner n hresolved hinner h => ?_)
      fun error => hU _ (mem_visits_self hdefers) error
    rw [visits_of_resolve hdefers hresolved, hinner] at hU
    unfold LockstepIn
    dsimp only
    cases hs : e.selection with
    | failed error => exact lockstep_throw _
    | selects fields =>
      rw [hs] at hU
      rw [compileSelection, compileSelection]
      refine Lockstep.bind (lockstep_compileFields (s := inner)
        (fun f hf => hservice f (.under hs hf .here))
        (fun f hf s n => ih fields hs f hf (fun x hx => hservice x (.under hs hf hx))
          fun x hx => hknown x (.under hs hf hx)) h
        fun visit hvisit => hU visit (mem_cons_of_mem _ hvisit)) fun ds m₂ fs n₂ _ _ hdfs h => ?_
      have hempty : SameSelection {} {} := ⟨.nil, rfl⟩
      obtain ⟨hsame, hnone, hnone'⟩ := sameSelection_of_contributions hdfs hempty
      unfold assemble
      dsimp only
      rw [hnone, hnone']
      exact lockstep_pure h hsame

theorem lockstep_compileRoot (compiler : Compiler) (schema : Schema) {root : RootField}
    (hservice : ∀ x : Expanded, x.Within root.field → x.field.definition.requiresService = false)
    (hknown : ∀ x : Expanded, x.Within root.field → ∀ y ∈ x.field.definition.extensions, y.Known)
    (h : Memory.Supplies keys m n) :
    Lockstep keys
      (fun error => ∃ visit ∈ compiler.rootVisits schema root .dataOnly m,
        visit.overread? compiler = some error)
      (fun d f => ∃ d' f', d = some d' ∧ f = some f' ∧ SameCompiled d' f')
      (compiler.compileRoot schema root .dataOnly .schema) m
      (compiler.compileRoot schema root .full .schema) n := by
  have hdefers : defers .dataOnly root.field.field = false := by
    rw [defers, hservice root.field .here, Bool.and_false]
  unfold compileRoot
  dsimp only
  rw [hdefers]
  exact Lockstep.bind (lockstep_compileExpanded root.field hservice hknown
    (s := ⟨.parameter schema.context, rootScope schema root .dataOnly, m⟩) h
    fun visit hvisit error herror => ⟨visit, hvisit, herror⟩)
    fun d m₁ f n₁ _ _ hdf h => lockstep_pure h ⟨d, f, rfl, rfl, hdf⟩

end Compiler

/-! ## Executing a field without services -/

namespace Executor

section Root

variable {executor : Executor} {compiler : Compiler} {root : RootField} {data : Value}

/-- What the data pass finds where it gets to a list field whose hooks read an element as a
whole. -/
def Overread (executor : Executor) (compiler : Compiler) (root : RootField) (m : Memory)
    (error : CompileError) : Prop :=
  ∃ visit ∈ compiler.rootVisits executor.schema root .dataOnly { m with next :=
    executor.schema.next }, visit.overread? compiler = some error

theorem executeRoot_eq_runDirect
    (hservice : ∀ x : Expanded, x.Within root.field → x.field.definition.requiresService = false)
    (hknown : root.field.Every fun field _ => ∀ x ∈ field.definition.extensions, x.Known)
    (m : Memory) :
    (outcome (executor.executeRoot compiler root data) m).1
        = (outcome (executor.runDirect compiler root data) m).1
      ∨ ∃ error, executor.Overread compiler root m error
        ∧ (outcome (executor.executeRoot compiler root data) m).1
          = .error (.ofCompileError error) := by
  have hlocal : LocalAt (.root root.responseKey) (executor.runDirect compiler root data) :=
    local_runDirect (hknown.imp fun _ _ h x hx => (h x hx).isPure)
  have hknown' : ∀ x : Expanded, x.Within root.field →
      ∀ y ∈ x.field.definition.extensions, y.Known :=
    fun x hx => (hknown.within hx).elim fun _ h => h
  have hcompiling : ∀ {mode error},
      (outcome (compiler.compileRoot executor.schema root mode .schema)
        { m with next := executor.schema.next }).1 = .error error →
      (outcome (compiling executor.schema.next
        (compiler.compileRoot executor.schema root mode .schema)) m).1
        = .error (.ofCompileError error) := by
    intro mode error h
    rw [outcome_compiling, h]
    rfl
  have hsupplies : Memory.Supplies m.fetched { m with next := executor.schema.next }
      { m with next := executor.schema.next } := ⟨rfl, rfl⟩
  rcases Compiler.lockstep_compileRoot compiler executor.schema hservice hknown' hsupplies with
    ⟨error, herror, hover | herror'⟩ | ⟨_, _, m', _, hd, -, ⟨d, f, rfl, rfl, hdf⟩, hm'⟩
  · exact .inr ⟨error, hover, outcome_bind_error (hcompiling herror)⟩
  · refine .inl ((outcome_bind_error (hcompiling herror)).trans ?_)
    exact (outcome_bind_error (hcompiling herror')).symm
  · refine .inl ?_
    have hgives := compiling_gives.2 hd
    have hdirect : outcome (executor.executeRoot compiler root data) m
        = outcome (executor.runDirect compiler root data) m' := by
      unfold executeRoot
      dsimp only
      rw [outcome_bind_gives hgives]
      dsimp only
      rw [hdf.undeferred]
      rfl
    rw [hdirect]
    exact (hlocal.same m' m fun other _ => by rw [hm'.fetched]).1

end Root

/-- **The data pass is invisible without services.**  A field of the operation that needs no
service, in any field below it either, ends as its full pass against the schema does: with the same
value, or with the same error.  The one exception is that the data pass gets to a list field whose
extensions read an element as a whole, and ends with the error of that. -/
theorem data_pass_invisible (executor : Executor) (document : Document) (supplied : Variables)
    (data : Value) (roots : List RootField)
    (hroots : Compiler.rootFields (.ofDocument document supplied) document = .ok roots)
    (hknown : document.Every fun field _ => ∀ x ∈ field.definition.extensions, x.Known)
    (root : RootField) (hroot : root ∈ roots)
    (hservice : ∀ x : Expanded, x.Within root.field → x.field.definition.requiresService = false)
    (m : Memory) :
    let compiler := executor.compilerFor document supplied
    (outcome (executor.executeRoot compiler root data) m).1
        = (outcome (executor.runDirect compiler root data) m).1
      ∨ ∃ path name, executor.Overread compiler root m (.unscopedContext path name)
        ∧ (outcome (executor.executeRoot compiler root data) m).1
          = .error (.ofCompileError (.unscopedContext path name)) := by
  have hevery := every_of_rootFields hknown hroots root hroot
  rcases executeRoot_eq_runDirect hservice hevery m with h | ⟨error, ⟨visit, hvisit, hover⟩, h⟩
  · exact .inl h
  · obtain ⟨path, name, rfl⟩ := visit.unscopedContext_of_overread? hover
    exact .inr ⟨path, name, ⟨visit, hvisit, hover⟩, h⟩

/-! People, searched by their name or by the whole of them. -/

namespace Search

def context : Parameter := ⟨0, "ctx", .object "Query"⟩

def person : Parameter := ⟨1, "person", .object "Person"⟩

def noArguments : Parameter := ⟨2, "args_name", .record []⟩

def search : Parameter := ⟨3, "args_people", .record [("not", .string)]⟩

def excluded : ArgumentDefinition := ⟨"not", .string, none, false⟩

/-- The name of a person is not the given one. -/
def otherName : Extension :=
  .filter excluded fun element value => return .binary .ne (.member element "name" .string) value

/-- A person is not the given value. -/
def otherPerson : Extension :=
  .filter excluded fun element value => return .binary .ne element value

def people (extension : Extension) : FieldDefinition :=
  ⟨"people", none, context, .member (.parameter context) "people"
    (.list (.object "Person")), search, [("not", excluded)], [], [extension, .position "rank"]⟩

def name : FieldDefinition :=
  ⟨"name", none, person, .member (.parameter person) "name" .string, noArguments, [], [], []⟩

def executor : Executor where
  schema := ⟨"Query", context, [], 4⟩
  services := .empty

/-- A query for `people(not: "Bob") { ...names }`, where the fragment selects the name. -/
def document (extension : Extension) : Document where
  selections := [.field ⟨"people", people extension, [("not", .literal (.string "Bob"))]⟩ []
    [.spread "names" []]]
  fragments := [("names", ⟨"names", "Person", [.field ⟨"name", name, []⟩ [] []]⟩)]

def everyone : Value :=
  .object [("people", .list [.object [("name", .string "Bob")], .object [("name", .string "Ada")]])]

theorem known (extension : Extension) (h : extension.Known) :
    (document extension).Every fun field _ => ∀ x ∈ field.definition.extensions, x.Known := by
  refine ⟨⟨⟨?_, trivial, trivial⟩, trivial⟩, ?_⟩
  · simp only [people, mem_cons, not_mem_nil, or_false, forall_eq_or_imp, forall_eq]
    exact ⟨h, .position "rank"⟩
  · simp [document, name, Selection.EveryIn, Selection.Every]

/-- The field of the operation. -/
def root (extension : Extension) : RootField :=
  ⟨"people", .mk ⟨"people", people extension, [("not", .literal (.string "Bob"))]⟩
    .direct [] fun _ =>
    .ofExcept ((Expansion.ofDocument (document extension) []).expandAllWith
      ((Expansion.ofDocument (document extension) []).enter 1) .direct [] [.spread "names" []])⟩

theorem roots (extension : Extension) :
    Compiler.rootFields (.ofDocument (document extension) []) (document extension)
      = .ok [root extension] := rfl

theorem serviceFree (extension : Extension) {x : Expanded} (hx : x.Within (root extension).field) :
    x.field.definition.requiresService = false := by
  cases hx with
  | here => rfl
  | under hs hf h =>
    cases hs
    obtain rfl := mem_singleton.1 hf
    cases h with
    | here => rfl
    | under hs hf _ =>
      cases hs
      cases hf

end Search

open Search in
/-- A search by name reads one member of each person, so the data pass finds nothing to refuse. -/
theorem data_pass_invisible_search :
    let compiler := executor.compilerFor (document otherName) []
    ((document otherName).Every fun field _ => ∀ x ∈ field.definition.extensions, x.Known)
      ∧ (∀ x : Expanded, x.Within (root otherName).field →
          x.field.definition.requiresService = false)
      ∧ (∀ error, ¬ executor.Overread compiler (root otherName) { next := 4 } error)
      ∧ (outcome (executor.executeRoot compiler (root otherName) everyone) { next := 4 }).1
        = (outcome (executor.runDirect compiler (root otherName) everyone) { next := 4 }).1
      ∧ (outcome (executor.executeRoot compiler (root otherName) everyone)
          { next := 4 }).1.map Value.text = .ok "[\x7bname: \"Ada\", rank: 0\x7d]" := by
  intro compiler
  have hnone : ∀ error, ¬ executor.Overread compiler (root otherName) { next := 4 } error := by
    have hvisits : (compiler.rootVisits executor.schema (root otherName) .dataOnly
        { next := 4 }).all fun visit => (visit.overread? compiler).isNone := by decide +kernel
    rintro error ⟨visit, hvisit, hover⟩
    simpa [hover] using all_eq_true.1 hvisits visit hvisit
  refine ⟨known otherName (.filter _ _), fun _ hx => serviceFree otherName hx, hnone, ?_,
    by decide +kernel⟩
  refine (data_pass_invisible executor (document otherName) [] everyone [root otherName]
    (roots otherName) (known otherName (.filter _ _)) (root otherName) mem_cons_self
    (fun _ hx => serviceFree otherName hx) { next := 4 }).resolve_right ?_
  rintro ⟨path, name, hover, -⟩
  exact hnone _ hover

open Search in
/-- A search that compares the whole person fails in the data pass, although no service is needed
and the full pass alone succeeds. -/
theorem data_pass_refuses_search :
    (∀ x : Expanded, x.Within (root otherPerson).field → x.field.definition.requiresService = false)
      ∧ (outcome (executor.executeRoot (executor.compilerFor (document otherPerson) [])
          (root otherPerson) everyone) { next := 4 }).1.map Value.text
        = .error (.ofCompileError (.unscopedContext (.root "people") "filter"))
      ∧ (outcome (executor.runDirect (executor.compilerFor (document otherPerson) [])
          (root otherPerson) everyone) { next := 4 }).1.map Value.text
        = .ok "[\x7bname: \"Bob\", rank: 0\x7d, \x7bname: \"Ada\", rank: 1\x7d]" :=
  ⟨fun _ hx => serviceFree otherPerson hx, by decide +kernel, by decide +kernel⟩

end Executor
end QueryProjection
