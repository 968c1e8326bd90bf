import QueryProjection.Proofs.Renumbered.Resolve

/-!
# Compiling a field in two places

If the selection below a field is compiled alike in contexts that are the same up to numbers, then
so is the field; and if it is compiled against a parameter that is to be replaced by its context,
the result is the same up to this replacement: `Compiler.matches_compileField`.

All steps after resolving are compared in numberings that have come of the one before.  So what was
compared at an earlier step stays compared, and a selection may draw numbers of its own.
-/

namespace QueryProjection

open List

/-! ## Fields -/

/-- The constants are the same up to numbers. -/
def Constants.Renumbered {base : Nat} (w : Numbering base)
    (constants constants' : Constants) : Prop :=
  Assoc.Entries (Parameter.Renumbered w) Eq constants.entries constants'.entries

/-- Compiled fields are the same up to numbers and what is yet to be replaced. -/
structure Compiled.Renumbered {base : Nat} (w : Numbering base) (M : Moved)
    (compiled compiled' : Compiled) : Prop where
  expression : compiled.expression.Renumbered w M [] compiled'.expression
  constants : compiled.constants.Renumbered w compiled'.constants
  deferredServices : compiled'.deferredServices = compiled.deferredServices

/-- Compiled selections are the same up to numbers. -/
structure CompiledSelection.Renumbered {base : Nat} (w : Numbering base)
    (selection selection' : CompiledSelection) : Prop where
  fields : selection.fields.Renumbered w selection'.fields
  constants : selection.constants.Renumbered w selection'.constants
  deferredServices : selection'.deferredServices = selection.deferredServices

namespace Constants.Renumbered

variable {base : Nat} {w w' : Numbering base} {constants constants' other other' : Constants}
  (h : constants.Renumbered w constants')

include h

theorem mono (hw : w ≤ w') : constants.Renumbered w' constants' :=
  Forall₂.imp (fun _ _ h => ⟨h.1.mono hw, h.2⟩) h

theorem extend (ho : other.Renumbered w other') :
    (constants.extend other).Renumbered w (constants'.extend other') :=
  Assoc.Entries.insertAll (fun hk hl => hk.eq_iff hl) h ho

theorem get? {p p' : Parameter} (hp : p.Renumbered w p') :
    constants'.get? p' = constants.get? p := by
  have hfind := Assoc.Entries.find? (fun hk hl => hk.eq_iff hl) h hp
  unfold Constants.get?
  generalize Assoc.find? p constants.entries = v, Assoc.find? p' constants'.entries = v' at hfind
  cases hfind with
  | none => rfl
  | some h => exact congrArg some h.symm

end Constants.Renumbered

namespace Compiler

open Compile

variable {schema : Schema} {base : Nat} {w w' : Numbering base} {scope scope' : Scope}
  {field : SelectedField}
  {M : Moved} {context context' : Expr} {select select' : Select} {resolved resolved' : Resolved}
  {constants constants' : Constants}

/-- The selections below a field are compiled alike, in contexts that read of a parameter in
scope. -/
def SelectsRenumbered (schema : Schema) (base : Nat) (select select' : Select) : Prop :=
  ∀ {w : Numbering base} {context context' : Expr} {scope scope' : Scope} {q : Parameter},
    context.Renumbered w .none [] context' → q ∈ scope'.parameters → context'.ReadsOf q →
    scope.Renumbered schema w scope' →
    Matches w CompiledSelection.Renumbered (select context scope) (select' context' scope')

variable {fields fields' : SelectionMap}

theorem renumbered_addElementDependencies (hcontext : context.Renumbered w .none [] context')
    {read read' : Expr.Dependencies}
    (hread : Forall₂ (fun d d' => d.1 = d'.1 ∧ d.2.root.Renumbered w d'.2.root
      ∧ d.2.chain.Renumbered w .none [] d'.2.chain) read read')
    (hfields : fields.Renumbered w fields') :
    (addElementDependencies context read fields).Renumbered w
      (addElementDependencies context' read' fields') := by
  induction hread generalizing fields fields' with
  | nil => exact hfields
  | @cons d d' _ _ hd _ ih =>
    obtain ⟨name, dependency⟩ := d
    obtain ⟨name', dependency'⟩ := d'
    obtain ⟨rfl, hroot, hchain⟩ := hd
    exact ih (hfields.insertIfAbsent name (hchain.replace hroot hcontext))

theorem rel_elementFields (hM : M.Sound w scope scope') (hscope : scope.Renumbered schema w scope')
    (ty : Ty) {pre pre' : PreSelection} (hpre : pre.Renumbered w M pre')
    (hfields : fields.Renumbered w fields') :
    Except.Rel (SelectionMap.Renumbered w) (elementFields field scope ty pre fields)
      (elementFields field scope' ty pre' fields') := by
  unfold elementFields
  rw [hscope.mode, hscope.path, hfields.isEmpty]
  split
  · have hread :
        Except.Rel (Expr.Dependencies.Renumbered w M)
          (pre.collection.dependencies (.type ty) scope.path)
          (pre'.collection.dependencies (.type ty) scope.path) := by
      refine hpre.collection.collect ?_ scope.path ?_ .nil .none .nil
      · intro bound bound' p p' hbound hp
        unfold Tracked.tracks
        rw [Bool.eq_iff_iff]
        simp only [Bool.and_eq_true, beq_iff_eq, contains_eq_mem, decide_eq_true_eq,
          Parameter.Renumbered.mem_iff hbound hp, hp.ty]
      · intro bound bound' p e hbound hm
        -- Neither the parameter nor what it will be replaced by is bound inside the collection.
        have huntracked : ∀ {bound : List Parameter} {p : Parameter}, p ∉ bound →
            (Tracked.type ty).tracks bound p = false := by
          intro bound p hp
          rw [Tracked.tracks, contains_eq_mem, decide_eq_false hp, Bool.and_false]
        obtain ⟨q, -, hreads, hq⟩ := hM.reads hm
        refine ⟨huntracked fun hp => ?_, hreads.collect (huntracked hq) scope.path⟩
        exact (Parameter.Renumbered.exists_of_mem hbound hp).elim (hM.unpaired hm)
    -- The chains start at parameters that are bound inside the collection: nothing in them is to be
    -- replaced.
    have hsettled : ∀ {found found' : Expr.Dependencies},
        (∀ d ∈ found, Expr.ChainOn (.parameter d.2.root) d.1 d.2.chain) →
        found.Renumbered w M found' →
        Forall₂ (fun d d' => d.1 = d'.1 ∧ d.2.root.Renumbered w d'.2.root
          ∧ d.2.chain.Renumbered w .none [] d'.2.chain) found found' := by
      intro found found' hchains h
      induction h with
      | nil => exact .nil
      | @cons d d' _ _ hd _ ih =>
        obtain ⟨hchain, hrest⟩ := forall_mem_cons.1 hchains
        obtain ⟨hname, hroot, bound, hrenumbered⟩ := hd
        exact .cons ⟨hname, hroot, hrenumbered.of_chainOn
          (fun e bound hm => hM.unpaired hm _ hroot.id) hchain⟩ (ih hrest)
    generalize hx : pre.collection.dependencies (.type ty) scope.path = x at hread
    generalize pre'.collection.dependencies (.type ty) scope.path = y at hread
    cases hread with
    | error e => exact .error e
    | ok hfound =>
      exact .ok (renumbered_addElementDependencies hpre.context
        (hsettled (Expr.chainOn_of_dependencies hx) hfound) hfields)
  · exact .ok hfields

theorem renumbered_projectList (hscope : scope.Renumbered schema w scope') {source source' : Expr}
    (hsource : source.Renumbered w M [] source') (hty : source'.ty = source.ty)
    {element element' : Parameter} (helement : element.Renumbered w element')
    (hfields : fields.Renumbered w fields') :
    (projectList scope source element fields).Renumbered w M []
    (projectList scope' source' element' fields') := by
  have hprojected : (Expr.projectEach source element fields.toRecord).Renumbered w M []
      (.projectEach source' element' fields'.toRecord) :=
    .projectEach hsource helement (hfields.toRecord.under _ _)
  have hty' : (Expr.projectEach source' element' fields'.toRecord).ty
      = (Expr.projectEach source element fields.toRecord).ty := by
    rw [Expr.ty, Expr.ty, hty, hfields.toRecord.ty]
  unfold projectList
  rw [hscope.mode, hscope.isRoot]
  dsimp only
  rw [hty']
  split
  · exact .materialize hprojected
  · exact hprojected

section Resolved

variable (hbase : schema.next ≤ base) (hselect : SelectsRenumbered schema base select select')
  (hresolved : resolved.Renumbered w M resolved') (hscope : scope.Renumbered schema w scope')

include hbase hselect hresolved hscope

theorem matches_compileObject (hconstants : constants.Renumbered w constants') :
    Matches w (fun w' => Compiled.Renumbered w' M)
      (compileObject field select resolved scope constants)
      (compileObject field select' resolved' scope' constants') := by
  unfold compileObject
  dsimp only
  rw [hresolved.ty, hscope.path]
  split
  · exact matches_throw _
  · refine (matches_fresh w _ _).bind fun w₁ element element' hw₁ helement => ?_
    have hinner :
        (objectScope scope resolved element).Renumbered schema w₁
          (objectScope scope' resolved' element') :=
      ((hscope.mono hw₁).bind helement.1 (Nat.le_trans hbase
        (Nat.le_trans w.base_le_next' helement.2.2))).changing
        (by rw [hscope.contextChanged, hresolved.materialized])
    refine (hselect (.parameter helement.1) mem_cons_self .parameter hinner).bind
      fun w₂ selection selection' hw₂ hselection => ?_
    have hw := Numbering.le_trans hw₁ hw₂
    refine matches_pure (R := fun w' => Compiled.Renumbered w' M)
      ⟨?_, (hconstants.mono hw).extend hselection.constants, hselection.deferredServices⟩
    rw [hselection.fields.isEmpty]
    split
    · exact hresolved.expression.mono hw
    · exact .projectOne (hresolved.expression.mono hw) (helement.1.mono hw₂)
        (hselection.fields.toRecord.under _ _)

theorem matches_compileList (hconstants : constants.Renumbered w constants')
    (hextensions : ∀ x ∈ field.definition.extensions, x.Uniform) (hM : M.Sound w scope scope') :
    Matches w (fun w' => Compiled.Renumbered w' M)
      (compileList field select resolved scope constants)
      (compileList field select' resolved' scope' constants') := by
  rw [compileList_eq, compileList_eq, hresolved.ty]
  cases resolved.expression.ty.element? with
  | none =>
    rw [hscope.path]
    exact matches_throw _
  | some ty =>
    refine (matches_fresh w _ _).bind fun w₁ element element' hw₁ helement => ?_
    have harguments : resolved'.arguments.map Prod.snd = resolved.arguments.map Prod.snd := by
      have h := hresolved.arguments
      generalize resolved.arguments = a, resolved'.arguments = a' at h
      cases h with
      | none => rfl
      | some h => exact congrArg some h.2.1.symm
    have hhooks : (hookContext scope resolved).Renumbered w₁ (hookContext scope' resolved') :=
      ⟨hscope.mode, hresolved.materialized, hscope.path,
        Option.rel_map hresolved.arguments fun _ _ ha => ha.1.mono hw₁, harguments⟩
    have hinitial : PreSelection.Renumbered w₁ M ⟨resolved.expression, element, .parameter element⟩
        ⟨resolved'.expression, element', .parameter element'⟩ :=
      ⟨hresolved.expression.mono hw₁, hresolved.ty, helement.1, .parameter helement.1, .parameter,
        Nat.le_trans w.base_le_next' helement.2.2⟩
    refine (matches_runPreSelection hextensions hhooks hinitial).bind fun w₂ pre pre' hw₂ hpre => ?_
    have hscope₂ := (hscope.mono hw₁).mono hw₂
    have hchanged : (pre'.element != element') = (pre.element != element) := by
      rw [Bool.eq_iff_iff, bne_iff_ne, bne_iff_ne, ne_eq, ne_eq,
        hpre.element.eq_iff (helement.1.mono hw₂)]
    have hinner : (elementScope scope resolved element pre).Renumbered schema w₂
        (elementScope scope' resolved' element' pre') :=
      (hscope₂.bind hpre.element (Nat.le_trans hbase hpre.drawn)).changing
        (by rw [hscope.contextChanged, hresolved.materialized, hchanged])
    refine (hselect hpre.context mem_cons_self hpre.reads hinner).bind
      fun w₃ selection selection' hw₃ hselection => ?_
    have hw₀ := Numbering.le_trans hw₁ (Numbering.le_trans hw₂ hw₃)
    have hpre₃ := hpre.mono hw₃
    have hconstants₃ := (hconstants.mono hw₀).extend hselection.constants
    rw [helement.1.ty]
    refine (matches_ofExcept (rel_elementFields (hM.mono hscope hw₀) (hscope.mono hw₀) _ hpre₃
      hselection.fields)).bind fun w₄ fields fields' hw₄ hfields => ?_
    rw [hfields.isEmpty]
    split
    · exact matches_pure (R := fun w' => Compiled.Renumbered w' M)
        ⟨(hpre₃.mono hw₄).collection, hconstants₃.mono hw₄, hselection.deferredServices⟩
    · have hpost : PostSelection.Renumbered w₄ ⟨fields, pre.element⟩ ⟨fields', pre'.element⟩ :=
        ⟨hfields, (hpre₃.mono hw₄).element⟩
      have hhooks₄ := hhooks.mono (Numbering.le_trans hw₂ (Numbering.le_trans hw₃ hw₄))
      refine (matches_runPostSelection (fun x hx => hextensions x (mem_reverse.1 hx))
        hhooks₄ hpost).bind fun w₅ post post' hw₅ hpost => ?_
      have hw := Numbering.le_trans hw₄ hw₅
      exact matches_pure (R := fun w' => Compiled.Renumbered w' M)
        ⟨renumbered_projectList (hscope.mono (Numbering.le_trans hw₀ hw)) (hpre₃.mono hw).collection
          (hpre₃.mono hw).ty hpost.element hpost.selection, hconstants₃.mono hw,
          hselection.deferredServices⟩

theorem matches_compileResolved (hextensions : field.definition.Hooks Extension.Uniform)
    (hM : M.Sound w scope scope') :
    Matches w (fun w' => Compiled.Renumbered w' M) (compileResolved field select resolved scope)
      (compileResolved field select' resolved' scope') := by
  have hbound :
      (withArguments scope resolved.arguments).1.Renumbered w
        (withArguments scope' resolved'.arguments).1
        ∧ (withArguments scope resolved.arguments).2.Renumbered schema w
          (withArguments scope' resolved'.arguments).2
        ∧ M.Sound w (withArguments scope resolved.arguments).2
          (withArguments scope' resolved'.arguments).2 := by
    have h := hresolved.arguments
    generalize resolved.arguments = arguments, resolved'.arguments = arguments' at h
    cases h with
    | none => exact ⟨.nil, hscope, hM⟩
    | some h =>
      refine ⟨.cons ⟨h.1, h.2.1⟩ .nil, hscope.bind h.1 (Nat.le_trans hbase h.2.2), ?_⟩
      refine ⟨hM.unpaired, fun hm => mem_cons_of_mem _ (hM.inner hm), fun hm => ?_⟩
      obtain ⟨q, hq, h⟩ := hM.reads hm
      exact ⟨q, mem_cons_of_mem _ hq, h⟩
  obtain ⟨hconstants, hscope', hM'⟩ := hbound
  rw [compileResolved_eq, compileResolved_eq]
  cases hshape : field.definition.shape with
  | leaf =>
    exact matches_pure (R := fun w' => Compiled.Renumbered w' M)
      ⟨hresolved.expression, hconstants, rfl⟩
  | object => exact matches_compileObject hbase hselect hresolved hscope' hconstants
  | list =>
    exact matches_compileList hbase hselect hresolved hscope' hconstants (hextensions hshape) hM'

end Resolved

/-- **A field is compiled alike in two places.**  If one of the contexts is yet to be replaced by
the other, then so it is in what the field is compiled to. -/
theorem matches_compileField (compiler : Compiler) (hbase : schema.next ≤ base)
    (hfield : field.definition.Numbered schema)
    (hselect : SelectsRenumbered schema base select select')
    (hscope : scope.Renumbered schema w scope')
    (h : Placed w scope scope' field.definition M context context') :
    Matches w (fun w' => Compiled.Renumbered w' M)
      (compiler.compileField field select context scope)
      (compiler.compileField field select' context' scope') := by
  have hresolve := Resolve.matches_resolve hbase hfield hscope h compiler.values
  have hcompile := hresolve.bind fun w₁ resolved resolved' hw₁ hresolved =>
    matches_compileResolved hbase hselect hresolved (hscope.mono hw₁) hfield.extensions
      (h.mono hscope hw₁).sound
  unfold compileField
  rw [hscope.depth, hscope.path]
  cases compiler.settings.maxDepth with
  | none => exact hcompile
  | some limit =>
    dsimp only
    split
    · exact matches_throw _
    · exact hcompile

end Compiler
end QueryProjection
