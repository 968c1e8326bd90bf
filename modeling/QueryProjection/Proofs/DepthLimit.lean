import QueryProjection.Proofs.Compile.Visits
import QueryProjection.Proofs.Fallback
import QueryProjection.Proofs.Isolation

/-!
# The limit on nested fields

Compiling refuses a field that is nested too deep, and looks at no field deeper than that.  The data
pass skips what is below a service field, and the full pass over fetched data does not look at the
field of the operation again; between them they look at every field.  So the limit refuses exactly
the fields that it is exceeded in, and the others are answered as if there were none.

* `Expanded.Fits` says that a field and all below it keep to a limit;
* `Compiler.fits_of_compileExpanded`: what the full pass compiles does;
* `Compiler.compileRoot_withLimit`: what does is compiled as it is without a limit.

## Why depth is counted in the tree

Fields of the operation are at depth one, and each field is one deeper than the field around it,
however many fragments are in between: expanding has moved the fields of fragments to where they are
spread, so `Expanded.Below` need only count.  The two halves are different in kind.  That what is
compiled fits is an induction on the tree along a compilation that succeeds.  That what fits is
compiled alike holds of failures too, and is one of the comparisons of two compilers, which take
each step with the same memory (`Compile.equating`).
-/

namespace QueryProjection

open Compiler List

/-- The first field is in the tree of the second, with so many fields between the root and itself,
itself counted. -/
inductive Expanded.Below (x : Expanded) : Nat → Expanded → Prop
  | here : Below x 0 x
  | under {e f : Expanded} {fields : List Expanded} {n : Nat} (hs : e.selection = .selects fields)
      (hf : f ∈ fields) (h : Below x n f) : Below x (n + 1) e

/-- No field of the tree is deeper than the limit, if its root is at this depth. -/
def Expanded.Fits (depth limit : Nat) (e : Expanded) : Prop :=
  ∀ n x, Below x n e → depth + n ≤ limit

variable {e f : Expanded} {fields : List Expanded}

theorem Expanded.Fits.of_selects {depth limit : Nat} (h : e.Fits depth limit)
    (hs : e.selection = .selects fields) (hf : f ∈ fields) : f.Fits (depth + 1) limit := by
  intro n x hx
  have := h (n + 1) x (.under hs hf hx)
  omega

theorem SelectedField.BoundIn.shape_ne_leaf {schema : Schema} (h : e.Every (BoundIn schema))
    (hs : e.selection = .selects fields) (hf : f ∈ fields) : e.field.definition.shape ≠ .leaf := by
  obtain ⟨selections, hbound, hempty, -⟩ := h
  have hne : selections ≠ [] := by
    intro hnil
    rw [hempty hnil] at hs
    cases hs
    cases hf
  obtain ⟨output, houtput⟩ := Option.isSome_iff_exists.1 (hbound.selections hne)
  exact FieldDefinition.shape_ne_leaf (FieldDefinition.outputType?_eq_some_iff.1 houtput)

/-! ## What is compiled keeps to the limit -/

namespace Compiler

variable {compiler : Compiler} {field : SelectedField} {resolved : Resolved} {scope : Scope}
  {context : Expr} {compiled : Compiled} {m m' : Memory} {d : Nat} {schema : Schema} {e : Expanded}

theorem Situation.depth_below? {inner : Situation}
    (h : below? field resolved scope m = some inner) : inner.scope.depth = scope.depth := by
  have hdepth : (withArguments scope resolved.arguments).2.depth = scope.depth := by
    cases resolved.arguments <;> rfl
  unfold below? at h
  dsimp only at h
  split at h
  · cases h
  · cases h
    exact hdepth
  · obtain ⟨ty, -, h⟩ := Option.bind_eq_some_iff.1 h
    split at h <;> cases h
    exact hdepth

theorem gives_of_compileResolved {fields : List Expanded} (hs : e.selection = .selects fields)
    (hshape : e.field.definition.shape ≠ .leaf) (hmode : scope.mode = .full)
    (h : Gives (compileResolved e.field
      (fun context scope => compiler.compileSelection context scope e.selection) resolved scope)
        m compiled m')
    {f : Expanded} (hf : f ∈ fields) :
    ∃ context scope' m compiled m', scope'.mode = .full ∧ scope'.depth = scope.depth + 1
      ∧ Gives (compiler.compileExpanded context scope' f) m compiled m' := by
  obtain ⟨hleaf, -⟩ | ⟨-, inner, selection, m₁, hinner, hinnerMode, hselect, -⟩ :=
    compileResolved_opens h
  · exact absurd hleaf hshape
  · rw [hs] at hselect
    obtain ⟨made, _, rfl, -, -, -, hmade⟩ := compileSelection_full (I := fun _ => True)
      (hinnerMode.trans hmode) (fun _ _ {_ _ _} _ _ => trivial) trivial hselect
    obtain ⟨⟨f, compiled⟩, hmem, rfl⟩ := mem_map.1 hf
    obtain ⟨m, m', -, hgives⟩ := hmade _ hmem
    exact ⟨inner.context, inner.scope.field f.field.responseKey, m, compiled, m',
      hinnerMode.trans hmode, congrArg (· + 1) (Situation.depth_below? hinner), hgives⟩

theorem depth_of_compileExpanded
    (h : Gives (compiler.compileExpanded context scope e) m compiled m') :
    (∀ limit, compiler.settings.maxDepth = some limit → scope.depth ≤ limit)
      ∧ ∃ resolved scope' m compiled m', scope'.mode = scope.mode ∧ scope'.depth = scope.depth
        ∧ Gives (compileResolved e.field (fun context scope =>
          compiler.compileSelection context scope e.selection) resolved scope') m compiled m' := by
  rw [compileExpanded_eq] at h
  obtain ⟨-, h⟩ | ⟨_, _, own, _, _, _, -, -, -, h, -⟩ := compileFrom_gives.1 h
  · obtain ⟨hlimit, resolved, m₁, -, h⟩ := compileField_gives.1 h
    exact ⟨hlimit, resolved, scope, m₁, _, _, rfl, rfl, h⟩
  · obtain ⟨hlimit, resolved, m₁, -, h⟩ := compileField_gives.1 h
    exact ⟨hlimit, resolved, scope.bind own, m₁, _, _, rfl, rfl, h⟩

/-- **What the full pass compiles keeps to the limit**, all the way down. -/
theorem fits_of_compileExpanded (hlimit : compiler.settings.maxDepth = some d)
    (hbound : e.Every (SelectedField.BoundIn schema)) (hmode : scope.mode = .full)
    (h : Gives (compiler.compileExpanded context scope e) m compiled m') :
    e.Fits scope.depth d := by
  intro n x hx
  induction hx generalizing context scope m compiled m' with
  | here => exact (depth_of_compileExpanded h).1 d hlimit
  | under hs hf _ ih =>
    obtain ⟨-, _, _, _, _, _, hmode', hdepth, h⟩ := depth_of_compileExpanded h
    obtain ⟨_, _, _, _, _, hfull, hdeeper, h⟩ := gives_of_compileResolved hs
      (SelectedField.BoundIn.shape_ne_leaf hbound hs hf) (hmode'.trans hmode) h hf
    have := ih (hbound.of_selects hs hf) hfull h
    omega

/-! ## What keeps to the limit is compiled -/

/-- The compiler with another limit. -/
def withLimit (compiler : Compiler) (limit : Option Nat) : Compiler :=
  { compiler with settings := { compiler.settings with maxDepth := limit } }

end Compiler

/-- That two compilations are the same. -/
def Compile.equating : Compile.Comparison where
  Rel x y := ∀ m, outcome x m = outcome y m
  At _ := True
  at_child _ h := h
  rel_pure _ _ := rfl
  rel_bind {α β x y f g} h hf m := by
    simp only [outcome_bind, ← h m]
    rcases hx : outcome x m with ⟨result, m'⟩
    cases result with
    | ok a => exact hf m a m' hx m'
    | error e => rfl
  rel_throw _ _ _ := rfl
  rel_ofFresh _ _ := rfl
  rel_getFetched _ _ _ := rfl
  rel_rememberFetched _ _ _ _ := rfl

/-- **What keeps to a limit is compiled as it is without one.** -/
theorem Compiler.compileRoot_withLimit (compiler : Compiler) (schema : Schema)
    {root : RootField} {d : Nat} (hfits : root.field.Fits 1 d) (mode : Mode) (source : RootSource) :
    (compiler.withLimit (some d)).compileRoot schema root mode source
      = (compiler.withLimit none).compileRoot schema root mode source := by
  refine funext (Compile.Comparison.rel_compileRoot (R := Compile.equating)
    (c := compiler.withLimit (some d)) (k := compiler.withLimit none)
    (A := fun e _ scope => e.Fits scope.depth d) rfl ?_ schema
      (fun _ _ _ h _ => h ▸ hfits) mode source)
  intro e context scope he
  refine ⟨trivial, fun _ _ _ => ⟨fun _ _ _ _ => rfl, fun _ _ _ _ => rfl⟩, ?_, fun _ _ _ _ => rfl,
    fun _ _ => rfl, fun hs f hf _ _ h => ?_⟩
  · have hdepth : ¬ d < scope.depth := Nat.not_lt.2 (he 0 e .here)
    simp [Compile.Comparison.SameLimit, withLimit, Option.filter, hdepth]
  · show f.Fits (_ + 1) d
    exact h.depth ▸ he.of_selects hs hf

/-! ## Executing -/

namespace Executor

/-- The executor with another limit. -/
def withLimit (executor : Executor) (limit : Option Nat) : Executor :=
  { executor with settings := { executor.settings with maxDepth := limit } }

variable {executor : Executor} {compiler : Compiler} {root : RootField} {data v : Value}
  {m m' : Memory} {d : Nat}

theorem fits_of_executeRoot (hlimit : compiler.settings.maxDepth = some d)
    (hbound : root.field.Every (SelectedField.BoundIn executor.schema))
    (h : Gives (executor.executeRoot compiler root data) m v m') : root.field.Fits 1 d := by
  obtain ⟨fetch, m₁, hfetch, ⟨compiled, rfl, -, h⟩ | ⟨-, h⟩⟩ := exists_executeRoot_iff.1 ⟨m', h⟩
  · -- The data pass has looked at the field itself, and the full pass looks at the fields below it.
    obtain ⟨_, _, _, -, hfull, -⟩ := exists_runFetched_iff.1 h
    rw [compileRoot_schema_gives] at hfetch
    split at hfetch
    · cases hfetch.1
    · obtain ⟨_, -, hfetch⟩ := hfetch
      intro n x hx
      cases hx with
      | here => exact (depth_of_compileExpanded hfetch).1 d hlimit
      | under hs hf hx =>
        obtain ⟨_, _, _, _, _, hmode, hdepth, h⟩ := gives_of_compileResolved hs
          (SelectedField.BoundIn.shape_ne_leaf hbound hs hf) rfl hfull hf
        have hbelow := fits_of_compileExpanded hlimit (hbound.of_selects hs hf) hmode h _ _ hx
        rw [hdepth] at hbelow
        show 1 + (_ + 1) ≤ d
        have :
          (fetchedScope executor.schema root .full (executor.fetchedParameter compiled)).depth
            = 1 := rfl
        omega
  · obtain ⟨_, _, hfull, -⟩ := exists_runDirect_iff.1 h
    exact fits_of_compileExpanded hlimit hbound rfl hfull

theorem executeRoot_withLimit (executor : Executor) (compiler : Compiler)
    (hfits : root.field.Fits 1 d) (data : Value) :
    (executor.withLimit (some d)).executeRoot (compiler.withLimit (some d)) root data
      = (executor.withLimit none).executeRoot (compiler.withLimit none) root data := by
  simp only [executeRoot, runFetched, runDirect, withLimit, compiler.compileRoot_withLimit _ hfits]
  rfl

/-- **The limit on nested fields is exact.**  A field of the operation that is answered under a
limit has no field in its tree that is deeper, and if it has none, then answering it is the same as
without a limit.  If hooks keep nothing between them, that is what is in the response. -/
theorem depth_limit_exact (executor : Executor) (text : String) (operation : Option String)
    (document : Document)
    (hparse : Document.parse executor.schema text operation = .ok document) (supplied : Variables)
    (data : Value) (d : Nat) (roots : List RootField)
    (hroots : rootFields (.ofDocument document supplied) document = .ok roots) :
    let answer := fun (limit : Option Nat) root => (executor.withLimit limit).executeRoot
      ((executor.withLimit limit).compilerFor document supplied) root data
    (∀ root ∈ roots, ∀ m, ((∃ v m', Gives (answer (some d) root) m v m') → root.field.Fits 1 d)
      ∧ (root.field.Fits 1 d → outcome (answer (some d) root) m = outcome (answer none root) m))
    ∧ ((document.Every fun field _ => ∀ x ∈ field.definition.extensions, x.Pure) → ∀ limit,
        let executor := executor.withLimit limit
        let compiler := executor.compilerFor document supplied
        (executor.execute document supplied data).1
          = { data := roots.map (executor.entryAlone compiler data)
              errors := roots.filterMap (executor.errorAlone compiler data) }) := by
  have hbound := every_of_rootFields (Document.every_of_parse hparse).1 hroots
  refine ⟨fun root hroot m => ⟨?_, fun hfits => ?_⟩, fun hpure limit => ?_⟩
  · rintro ⟨v, m', h⟩
    exact fits_of_executeRoot rfl (hbound root hroot) h
  · exact congrArg (outcome · m) (executeRoot_withLimit executor
      (executor.compilerFor document supplied) hfits data)
  · obtain ⟨fields, hfields, hmerge⟩ := rootFields_eq_ok hroots
    refine (execute_eq_executeRoots hroots).trans
      (executeRoots_eq_alone (every_of_rootFields hpure hroots) ?_ ?_)
    · rw [keys_of_merge hmerge]
      exact Merge.nodup_firstSpellings _
    · exact fun _ _ _ _ => rfl

open Club in
/-- The names of the friends of people are three fields deep, with two fragments in between. -/
theorem club_is_three_deep : ∃ document roots, Document.parse club.schema query none = .ok document
    ∧ rootFields (.ofDocument document []) document = .ok roots
    ∧ ∀ root ∈ roots, root.field.Fits 1 3 ∧ ¬ root.field.Fits 1 2 := by
  have hrun : (Document.parse club.schema query none).toOption.bind (fun document =>
      (rootFields (.ofDocument document []) document).toOption.map fun roots =>
        roots.all fun root =>
        [some 3, some 2, none].map (fun limit => ((club.withLimit limit).alone
          ((club.withLimit limit).compilerFor document []) ada root).isOk) = [true, false, true])
      = some true := by decide +kernel
  simp only [Option.bind_eq_some_iff, Option.map_eq_some_iff, toOption_eq_some_iff, all_eq_true,
    decide_eq_true_eq, map_cons, map_nil, List.cons.injEq, and_true] at hrun
  obtain ⟨document, hparse, roots, hroots, hrun⟩ := hrun
  refine ⟨document, roots, hparse, hroots, fun root hroot => ?_⟩
  obtain ⟨hthree, htwo, hnone⟩ := hrun root hroot
  have hexact := fun d => (depth_limit_exact club query none document hparse [] ada d roots
    hroots).1 root hroot { next := club.schema.next }
  refine ⟨(hexact 3).1 ?_, fun hfits => ?_⟩
  · unfold alone at hthree
    rcases hgives : outcome _ _ with ⟨_ | v, m'⟩
    · rw [hgives] at hthree
      cases hthree
    · exact ⟨v, m', hgives⟩
  · have hsame := congrArg (fun o => o.1.isOk) ((hexact 2).2 hfits)
    exact Bool.false_ne_true (htwo.symm.trans (hsame.trans hnone))

end Executor
end QueryProjection
