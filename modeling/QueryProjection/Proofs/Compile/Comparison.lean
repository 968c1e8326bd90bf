import QueryProjection.Proofs.Execute.Outcome
import QueryProjection.Proofs.Expr.Free
import QueryProjection.Proofs.Extension

/-!
# Comparing compilations

Much of what can be said about a compilation is said step by step: that it fails with certain errors
only, that it stays below a path, that another compiler would do the same.  The steps are then
always the same.  They are taken here once, for whatever is kept by doing one thing after the other.

* `CompileError.Local`: the errors that a field reports at its own path;
* `Compile.Comparison` is what has to be known of single steps;
* `Compile.Comparison.rel_compileExpanded` goes down the tree of fields, where `Steps` says what is
  left to look at for one field, and `Compile.Comparison.rel_compileRoot` follows for the fields of
  the operation.

A comparison is one of two compilations even where one is looked at, since that is the same as
comparing it with itself.  Where a field is, `At`, is part of it and its context is not: a path only
grows on the way down, while contexts are made by hooks and have to be followed (`Opens`).  The
second of two steps is compared for what the first can give, and that is what lets facts about
compilations that succeed be used in the comparison of those that need not.
-/

namespace QueryProjection

open CompileError List

/-! ## Errors at a path -/

variable {path : FieldPath} {e : CompileError}

theorem error_of_bind {ε α β : Type} {x : Except ε α} {f : α → Except ε β} {e : ε}
    (h : (x >>= f) = .error e) : x = .error e ∨ ∃ a, x = .ok a ∧ f a = .error e := by
  cases x with
  | error e' =>
    cases h
    exact .inl rfl
  | ok a => exact .inr ⟨a, rfl, h⟩

/-- The error arose at the path, and is neither about a cycle of fragments nor about a move by
type. -/
structure CompileError.Local (path : FieldPath) (e : CompileError) : Prop where
  path : e.path = path
  kind : e.kind ≠ .circularFragment
  notByType : ∀ path ty, e ≠ .typeMatchRejected path ty

namespace Expr

variable {tracked : Tracked} {path : FieldPath} {a : Expr} {e : CompileError}

theorem error_of_collect (a : Expr) (bound : List Parameter) (chain : Option (Expr × String))
    (found : Dependencies) (e : CompileError)
    (h : collect tracked path bound chain a found = .error e) :
    ∃ name, e = .unscopedContext path name := by
  induction a using induct_parts generalizing bound chain found e with
  | parameter p =>
    unfold collect at h
    split at h
    · split at h
      · cases h
      · cases h
        exact ⟨_, rfl⟩
    · cases h
  | node a ha ih =>
    rw [collect_eq_foldlM ha] at h
    generalize a.chainBelow chain = below, a.parts = parts at h ih
    induction parts generalizing found with
    | nil => cases h
    | cons part rest ihrest =>
      obtain ⟨hfirst, hrest⟩ := forall_mem_cons.1 ih
      rw [foldlM_cons] at h
      rcases error_of_bind h with h | ⟨found', -, h⟩
      · exact hfirst _ _ _ _ h
      · exact ihrest found' h hrest

theorem local_of_dependencies (h : a.dependencies tracked path = .error e) : e.Local path := by
  obtain ⟨name, rfl⟩ := error_of_collect a _ _ _ e h
  exact ⟨rfl, by simp [kind], nofun⟩

theorem error_of_rebase {policy : TypeMatching} {old : Parameter} {new : Expr}
    {scope : List Parameter} (h : (a.rebase policy old new scope path).result = .error e) :
    e = .typeMatchRejected path old.ty.text := by
  unfold rebase at h
  dsimp only at h
  split at h
  · cases h
  · cases policy with
    | warn => cases h
    | allow => cases h
    | deny =>
      cases h
      rfl

end Expr

namespace Resolve

variable {field : SelectedField} {given : VariableValues} {path : FieldPath} {e : CompileError}

theorem local_of_argumentValues {declared : List (String × ArgumentDefinition)}
    (h : argumentValues field given path declared = .error e) : e.Local path := by
  induction declared with
  | nil => cases h
  | cons argument rest ih =>
    rcases error_of_bind h with h | ⟨value, -, h⟩
    · obtain rfl | ⟨name, rfl⟩ := error_of_argumentValue h <;> exact ⟨rfl, by simp [kind], nofun⟩
    · rcases error_of_bind h with h | ⟨values, -, h⟩
      · exact ih h
      · cases h

variable {keys : List (String × String)} {record : Expr}

theorem local_of_substituteChains {chains : Expr.Dependencies} {resolver : Expr}
    (h : substituteChains keys record path chains resolver = .error e) : e.Local path := by
  induction chains generalizing resolver with
  | nil => cases h
  | cons chain rest ih =>
    rw [substituteChains] at h
    split at h
    · cases h
      exact ⟨rfl, by simp [kind], nofun⟩
    · exact ih h

theorem local_of_substituteDependencies {definition : FieldDefinition}
    (h : substituteDependencies definition keys record path = .error e) : e.Local path := by
  rcases error_of_bind h with h | ⟨chains, -, h⟩
  · exact Expr.local_of_dependencies h
  rcases error_of_bind h with h | ⟨resolver, -, h⟩
  · exact local_of_substituteChains h
  rcases error_of_bind h with h | ⟨left, -, h⟩
  · exact Expr.local_of_dependencies h
  split at h
  · cases h
  · cases h
    exact ⟨rfl, by simp [kind], nofun⟩

end Resolve

/-- Adding what extensions read of an element fails only if there are extensions and they read an
element as a whole. -/
theorem Compiler.error_of_elementFields {field : SelectedField} {scope : Scope} {ty : Ty}
    {pre : PreSelection} {fields : SelectionMap}
    (h : elementFields field scope ty pre fields = .error e) :
    field.definition.extensions.isEmpty = false
      ∧ pre.collection.dependencies (.type ty) scope.path = .error e := by
  unfold elementFields at h
  split at h
  · rename_i hif
    rcases error_of_bind h with h | ⟨read, -, h⟩
    · simp only [Bool.and_eq_true, Bool.not_eq_true'] at hif
      exact ⟨hif.1.2, h⟩
    · cases h
  · cases h

/-! ## Steps -/

namespace Compile

/-- What is said of two compilations, or of one of them, step by step.  `At` says where the fields
are that it is about. -/
structure Comparison where
  Rel : {α : Type} → Compile α → Compile α → Prop
  At : FieldPath → Prop
  at_child : ∀ {path : FieldPath} (key : String), At path → At (path.child key)
  rel_pure : ∀ {α : Type} (a : α), Rel (pure a) (pure a)
  /-- The second step matters only for what the first can give. -/
  rel_bind : ∀ {α β : Type} {x y : Compile α} {f g : α → Compile β}, Rel x y →
    (∀ m a m', Gives x m a m' → Rel (f a) (g a)) → Rel (x >>= f) (y >>= g)
  rel_throw : ∀ {α : Type} {path : FieldPath} {e : CompileError}, At path → e.Local path →
    Rel (throw e : Compile α) (throw e)
  rel_ofFresh : ∀ {α : Type} (x : Fresh α), Rel (ofFresh x) (ofFresh x)
  rel_getFetched : ∀ {α : Type} {path : FieldPath} {f : List (String × String) → Compile α},
    At path → (∀ keys, Rel (f keys) (f keys)) →
    Rel (do f ((← get).fetched.get path)) (do f ((← get).fetched.get path))
  rel_rememberFetched : ∀ {path : FieldPath} (name key : String), At path →
    Rel (rememberFetched path name key) (rememberFetched path name key)

namespace Comparison

open Compiler Resolve

/-- Both hooks of the extension are steps that can be compared. -/
structure Extends (R : Comparison) (x : Extension) : Prop where
  preSelection : ∀ (context : HookContext) input, R.At context.path →
    R.Rel (ofHook context.path x.name (x.preSelection context input))
      (ofHook context.path x.name (x.preSelection context input))
  postSelection : ∀ (context : HookContext) input, R.At context.path →
    R.Rel (ofHook context.path x.name (x.postSelection context input))
      (ofHook context.path x.name (x.postSelection context input))

variable {R : Comparison} {field : SelectedField} {context : Expr} {scope : Scope}

theorem rel_ofExcept {α : Type} {r : Except CompileError α} (hpath : R.At path)
    (h : ∀ e, r = .error e → e.Local path) : R.Rel (ofExcept r) (ofExcept r) := by
  cases r with
  | ok a => exact R.rel_pure a
  | error e => exact R.rel_throw hpath (h e rfl)

/-! ## Resolving -/

theorem rel_bindArguments (given : VariableValues) (hpath : R.At path) :
    R.Rel (bindArguments field given path) (bindArguments field given path) := by
  unfold bindArguments
  dsimp only
  split
  · exact R.rel_throw hpath ⟨rfl, by simp [kind], nofun⟩
  · split
    · exact R.rel_pure _
    · exact R.rel_bind (rel_ofExcept hpath fun e he => local_of_argumentValues he)
        fun _ _ _ _ => R.rel_bind (R.rel_ofFresh _) fun _ _ _ _ => R.rel_pure _

theorem rel_resolverIn (hpath : R.At scope.path) :
    R.Rel (resolverIn field context scope) (resolverIn field context scope) := by
  unfold resolverIn
  dsimp only
  split
  · exact R.rel_getFetched hpath
      (f := fun keys => ofExcept (substituteDependencies field.definition keys context scope.path))
      fun _ => rel_ofExcept hpath fun e he => local_of_substituteDependencies he
  · exact R.rel_pure _

theorem rel_build (given : VariableValues) (hpath : R.At scope.path) :
    R.Rel (build field given context scope) (build field given context scope) := by
  rw [build_eq]
  refine R.rel_bind (rel_bindArguments given hpath) fun _ arguments _ _ =>
    R.rel_bind (rel_resolverIn hpath) fun _ resolver _ _ => ?_
  dsimp only
  split
  · exact R.rel_throw hpath ⟨rfl, by simp [kind], nofun⟩
  · exact R.rel_pure _

theorem rel_resolve (given : VariableValues) (hpath : R.At scope.path) :
    R.Rel (resolve field given context scope)
      (resolve field given context scope) := by
  unfold resolve
  split
  · split
    · exact R.rel_pure _
    · exact rel_build given hpath
  · exact rel_build given hpath

/-! ## Hooks -/

variable {hooks : HookContext} {extensions : List Extension}

section Hooks

variable (hx : ∀ x ∈ extensions, R.Extends x) (hpath : R.At hooks.path)

include hx hpath

theorem rel_runPreSelection (input : PreSelection) :
    R.Rel (runPreSelection hooks extensions input) (runPreSelection hooks extensions input) := by
  induction extensions generalizing input with
  | nil => exact R.rel_pure _
  | cons x rest ih =>
    obtain ⟨hx, hrest⟩ := forall_mem_cons.1 hx
    exact R.rel_bind (hx.preSelection hooks input hpath) fun _ input _ _ => ih hrest input

theorem rel_runPostSelection (input : PostSelection) :
    R.Rel (runPostSelection hooks extensions input) (runPostSelection hooks extensions input) := by
  induction extensions generalizing input with
  | nil => exact R.rel_pure _
  | cons x rest ih =>
    obtain ⟨hx, hrest⟩ := forall_mem_cons.1 hx
    exact R.rel_bind (hx.postSelection hooks input hpath) fun _ input _ _ => ih hrest input

end Hooks

/-! ## One field -/

/-- Where the selection of a field in a scope may be compiled: in a placeholder for the object, or
in the context of the elements that the first hooks have made of a placeholder. -/
structure Opens (field : SelectedField) (scope : Scope) (context' : Expr) (scope' : Scope) :
    Prop where
  path : scope'.path = scope.path
  depth : scope'.depth = scope.depth
  made : ∃ hooks extensions input m pre m',
    (∀ x ∈ extensions, field.definition.shape = .list ∧ x ∈ field.definition.extensions)
    ∧ input.elementContext = .parameter input.element
    ∧ Gives (runPreSelection hooks extensions input) m pre m'
    ∧ context' = pre.elementContext ∧ pre.element ∈ scope'.parameters

/-- The selection of the field is compared wherever it may be compiled. -/
def Selects (R : Comparison) (field : SelectedField) (scope : Scope)
    (select select' : Select) : Prop :=
  ∀ context' scope', Opens field scope context' scope' →
    R.Rel (select context' scope') (select' context' scope')

variable {select select' : Select} {resolved : Resolved} {constants : Constants}

variable {c k : Compiler}

/-- Both compilers refuse a field at this depth, or neither does. -/
def SameLimit (c k : Compiler) (scope : Scope) : Prop :=
  k.settings.maxDepth.filter (· < scope.depth) = c.settings.maxDepth.filter (· < scope.depth)

theorem compileField_eq (c : Compiler) :
    c.compileField field select context scope
      = match c.settings.maxDepth.filter (· < scope.depth) with
        | some limit => throw (.depthLimit scope.path limit)
        | none => (do
          compileResolved field select (← resolve field c.values context scope) scope) := by
  unfold compileField
  rcases c.settings.maxDepth with _ | limit
  · rfl
  · by_cases h : limit < scope.depth <;> simp only [h, ↓reduceIte, Option.filter] <;> rfl

section Selects

variable (hpath : R.At scope.path) (hselect : R.Selects field scope select select')

include hpath hselect

theorem rel_compileObject :
    R.Rel (compileObject field select resolved scope constants)
      (compileObject field select' resolved scope constants) := by
  unfold compileObject
  dsimp only
  split
  · refine R.rel_bind (R.rel_throw hpath ⟨rfl, ?_, nofun⟩) fun _ _ _ h => (gives_throw.1 h).elim
    simp [kind]
  · refine R.rel_bind (R.rel_ofFresh _) fun m element _ _ =>
      R.rel_bind (hselect _ _ ⟨rfl, rfl, ?_⟩) fun _ _ _ _ => R.rel_pure _
    exact ⟨hookContext scope resolved, [], ⟨resolved.expression, element, .parameter element⟩,
      m, _, m, nofun, rfl, rfl, rfl, mem_cons_self⟩

theorem rel_compileList (hx : field.definition.Hooks R.Extends)
    (hshape : field.definition.shape = .list) :
    R.Rel (compileList field select resolved scope constants)
      (compileList field select' resolved scope constants) := by
  rw [compileList_eq, compileList_eq]
  split
  · exact R.rel_throw hpath ⟨rfl, by simp [kind], nofun⟩
  · refine R.rel_bind (R.rel_ofFresh _) fun _ element _ _ =>
      R.rel_bind (rel_runPreSelection (hx hshape) hpath _) fun m pre m' hpre =>
      R.rel_bind (hselect _ _ ⟨rfl, rfl, ?_⟩) fun _ selection _ _ =>
      R.rel_bind (rel_ofExcept hpath fun e he => Expr.local_of_dependencies
        (error_of_elementFields he).2) fun _ fields _ _ => ?_
    · exact ⟨_, _, _, m, pre, m', fun x hx => ⟨hshape, hx⟩, rfl, hpre, rfl, mem_cons_self⟩
    · split
      · exact R.rel_pure _
      · exact R.rel_bind (rel_runPostSelection (fun x h => hx hshape x (mem_reverse.1 h)) hpath _)
          fun _ _ _ _ => R.rel_pure _

theorem rel_compileResolved (hx : field.definition.Hooks R.Extends) :
    R.Rel (compileResolved field select resolved scope)
      (compileResolved field select' resolved scope) := by
  have hpath' : R.At (withArguments scope resolved.arguments).2.path := by
    unfold withArguments
    split <;> exact hpath
  have hselect' :
      R.Selects field (withArguments scope resolved.arguments).2 select select' := by
    intro context' scope' h
    refine hselect context' scope' ?_
    unfold withArguments at h
    split at h <;> exact ⟨h.path, h.depth, h.made⟩
  rw [compileResolved_eq, compileResolved_eq]
  cases hshape : field.definition.shape with
  | leaf => exact R.rel_pure _
  | object => exact rel_compileObject hpath' hselect'
  | list => exact rel_compileList hpath' hselect' hx hshape

theorem rel_compileField (hvalues : k.values = c.values) (hlimit : SameLimit c k scope)
    (hx : field.definition.Hooks R.Extends) :
    R.Rel (c.compileField field select context scope)
      (k.compileField field select' context scope) := by
  rw [compileField_eq, compileField_eq, hlimit, hvalues]
  split
  · exact R.rel_throw hpath ⟨rfl, by simp [kind], nofun⟩
  · exact R.rel_bind (rel_resolve _ hpath) fun _ _ _ _ => rel_compileResolved hpath hselect hx

end Selects

/-! ## Trees of fields -/

/-- What has to be known of one field, in a context and a scope, where `A` says in which contexts
and scopes the fields below it may be compiled. -/
structure Steps (R : Comparison) (c k : Compiler) (A : Expanded → Expr → Scope → Prop)
    (e : Expanded) (context : Expr) (scope : Scope) : Prop where
  at_path : R.At scope.path
  hooks : e.field.definition.Hooks R.Extends
  limit : SameLimit c k scope
  /-- Moving the field from the fragment that it comes from. -/
  move : ∀ {name typeCondition own m compiled m'}, e.origin = .fragment name typeCondition →
    own.ty = .object typeCondition →
    Gives (c.compileField e.field (fun context scope =>
      c.compileSelection context scope e.selection)
      (.parameter own) (scope.bind own)) m compiled m' →
    R.Rel (ofRun (compiled.expression.rebase c.settings.typeMatching own context scope.parameters
        scope.path))
      (ofRun (compiled.expression.rebase k.settings.typeMatching own context scope.parameters
        scope.path))
  failed : ∀ {error}, e.selection = .failed error →
    R.Rel (throw (error.at scope.path) : Compile CompiledSelection) (throw (error.at scope.path))
  below : ∀ {fields}, e.selection = .selects fields → ∀ f ∈ fields, ∀ {context' scope'},
    Opens e.field scope context' scope' → A f context' (scope'.field f.field.responseKey)

variable {A : Expanded → Expr → Scope → Prop} {e : Expanded} {fields : List Expanded}

theorem rel_compileFrom (hvalues : k.values = c.values) (h : R.Steps c k A e context scope)
    (hselect : R.Selects e.field scope
      (fun context scope => c.compileSelection context scope e.selection)
      fun context scope => k.compileSelection context scope e.selection) :
    R.Rel (c.compileExpanded context scope e) (k.compileExpanded context scope e) := by
  rw [compileExpanded_eq, compileExpanded_eq]
  cases horigin : e.origin with
  | direct => exact rel_compileField h.at_path hselect hvalues h.limit h.hooks
  | fragment name typeCondition =>
    unfold compileFrom
    dsimp only
    split
    · exact rel_compileField h.at_path hselect hvalues h.limit h.hooks
    · refine R.rel_bind (R.rel_ofFresh _) fun _ own _ hown =>
        R.rel_bind (rel_compileField h.at_path (fun context' scope' h' => hselect context' scope'
          ⟨h'.path, h'.depth, h'.made⟩) hvalues h.limit h.hooks) fun _ compiled _ hcompiled =>
        R.rel_bind (h.move horigin ?_ hcompiled) fun _ _ _ _ => R.rel_pure _
      exact congrArg Parameter.ty (gives_ofFresh.1 hown).1

theorem rel_fetchAll {dependencies : List (FieldPath × String × Expr)}
    (hpath : ∀ d ∈ dependencies, R.At d.1) (fields : SelectionMap) :
    R.Rel (fetchAll dependencies fields) (fetchAll dependencies fields) := by
  induction dependencies generalizing fields with
  | nil => exact R.rel_pure _
  | cons d rest ih =>
    obtain ⟨hd, hrest⟩ := forall_mem_cons.1 hpath
    exact R.rel_bind (R.rel_rememberFetched _ _ hd) fun _ _ _ _ => ih hrest _

theorem at_of_compileFields (hpath : R.At scope.path) {m m' : Memory}
    {contributions : List Contribution}
    (h : Gives (c.compileFields context scope fields) m contributions m') :
    ∀ d ∈ contributions.flatMap Contribution.dependencies, R.At d.1 := by
  induction fields generalizing m contributions with
  | nil =>
    rw [compileFields, gives_pure] at h
    simp [h.1]
  | cons e rest ih =>
    rw [compileFields_cons] at h
    simp only [gives_bind, gives_pure] at h
    obtain ⟨first, m₁, hfirst, others, _, hrest, rfl, rfl⟩ := h
    intro d hd
    rcases mem_append.1 (flatMap_cons ▸ hd) with hd | hd
    · rcases contribute_gives.1 hfirst with ⟨-, dependencies, -, rfl, -⟩ | ⟨-, compiled, -, rfl⟩
      · obtain ⟨⟨name, e'⟩, -, rfl⟩ := mem_map.1 hd
        exact R.at_child _ hpath
      · simp [Contribution.dependencies] at hd
    · exact ih hrest d hd

theorem rel_compileFields (hpath : R.At scope.path)
    (hfields : ∀ f ∈ fields, R.Rel
      (c.compileExpanded context (scope.field f.field.responseKey) f)
      (k.compileExpanded context (scope.field f.field.responseKey) f)) :
    R.Rel (c.compileFields context scope fields) (k.compileFields context scope fields) := by
  induction fields with
  | nil => exact R.rel_pure _
  | cons f rest ih =>
    obtain ⟨hf, hrest⟩ := forall_mem_cons.1 hfields
    rw [compileFields_cons, compileFields_cons]
    refine R.rel_bind ?_ fun _ _ _ _ => R.rel_bind (ih hrest) fun _ _ _ _ => R.rel_pure _
    unfold contribute
    dsimp only
    split
    · refine R.rel_bind (rel_ofExcept (R.at_child f.field.responseKey hpath) fun e h => ?_)
        fun _ _ _ _ => R.rel_pure _
      rcases error_of_bind h with h | ⟨chains, -, h⟩
      · exact Expr.local_of_dependencies h
      · cases h
    · exact R.rel_bind hf fun _ _ _ _ => R.rel_pure _

theorem rel_compileSelection (h : R.Steps c k A e context scope)
    (hbelow : ∀ fields, e.selection = .selects fields → ∀ f ∈ fields, ∀ context scope,
      A f context scope → R.Rel (c.compileExpanded context scope f)
        (k.compileExpanded context scope f)) :
    R.Selects e.field scope (fun context scope => c.compileSelection context scope e.selection)
      fun context scope => k.compileSelection context scope e.selection := by
  intro context' scope' hopens
  have hpath : R.At scope'.path := hopens.path ▸ h.at_path
  cases hselection : e.selection with
  | failed error =>
    simp only [compileSelection]
    exact hopens.path ▸ h.failed hselection
  | selects fields =>
    simp only [compileSelection]
    exact R.rel_bind (rel_compileFields hpath fun f hf =>
        hbelow fields hselection f hf _ _ (h.below hselection f hf hopens)) fun _ _ _ hgives =>
      R.rel_bind (rel_fetchAll (at_of_compileFields hpath hgives) _) fun _ _ _ _ => R.rel_pure _

/-- **What is known of every field that may be compiled is known of compiling a tree of fields.** -/
theorem rel_compileExpanded (hvalues : k.values = c.values)
    (hsteps : ∀ e context scope, A e context scope → R.Steps c k A e context scope) (e : Expanded)
    (context : Expr) (scope : Scope) (h : A e context scope) :
    R.Rel (c.compileExpanded context scope e) (k.compileExpanded context scope e) := by
  induction e using Expanded.induct generalizing context scope with
  | field e ih =>
    have hstep := hsteps e context scope h
    exact rel_compileFrom hvalues hstep (rel_compileSelection hstep ih)

theorem rel_compileRoot (hvalues : k.values = c.values)
    (hsteps : ∀ e context scope, A e context scope → R.Steps c k A e context scope)
    (schema : Schema) {root : RootField}
    (h : ∀ p scope, scope.path = .root root.responseKey → scope.depth = 1 → p ∈ scope.parameters →
      A root.field (.parameter p) scope) (mode : Mode) (source : RootSource) :
    R.Rel (c.compileRoot schema root mode source) (k.compileRoot schema root mode source) := by
  unfold compileRoot
  cases source with
  | schema =>
    dsimp only
    split
    · exact R.rel_pure _
    · exact R.rel_bind (rel_compileExpanded hvalues hsteps _ _ _ (h _ _ rfl rfl mem_cons_self))
        fun _ _ _ _ => R.rel_pure _
  | materialized data =>
    have hstep := hsteps _ _ _
      (h data (fetchedScope schema root mode data) rfl rfl mem_cons_self)
    exact R.rel_bind (rel_compileResolved hstep.at_path
      (rel_compileSelection hstep fun fields _ f _ =>
      rel_compileExpanded hvalues hsteps f) hstep.hooks) fun _ _ _ _ => R.rel_pure _

end Comparison
end Compile
end QueryProjection
