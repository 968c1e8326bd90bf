import QueryProjection.Proofs.Compile.Closed

/-!
# What compiled fields are made of

A field is compiled from its context, from its resolver and from what its extensions add.  If these
have a property that putting expressions together keeps, then so has what the field resolves to, and
what it is compiled to is made of such expressions by projecting them.

* `Extension.Keeps` says that an extension keeps it;
* `Compiler.Making` says what projections make of the sources, and
  `Compiler.made_of_compileExpanded` carries that down the tree of fields.
-/

namespace QueryProjection

open Expr List

variable {H C D R : Expr → Prop}

/-! ## Sources -/

namespace Expr.Nodewise

variable (K : Nodewise H C) {e : Expr} {name : String}

include K

theorem recordMember? {member : Expr} (h : C e)
    (hm : e.recordMember? name = some member) : C member := by
  obtain ⟨shape, -, hm⟩ := Option.bind_eq_some_iff.1 hm
  obtain ⟨field, -, hm⟩ := Option.bind_eq_some_iff.1 hm
  cases hm
  exact K.of_member _ _ h

theorem argument? {context : HookContext} (h : context.argument? name = some e) : C e := by
  obtain ⟨p, -, h⟩ := Option.bind_eq_some_iff.1 h
  exact K.recordMember? (K.of_parameter _) h

theorem of_dependencies {tracked : Tracked} {path : FieldPath} {found : Dependencies}
    {context : Expr} (hcontext : C context) (h : e.dependencies tracked path = .ok found) :
    ∀ d ∈ found, C (d.2.chain.replace (.identity d.2.root) context) := by
  intro d hd
  refine K.replace ?_ hcontext _
  have hreads := (chainOn_of_dependencies h d hd).readsOf .parameter
  generalize d.2.chain = chain at hreads
  induction hreads with
  | parameter => exact K.of_parameter _
  | member _ name ty ih => exact K.of_member name ty ih

end Expr.Nodewise

/-! ## Extensions -/

/-- The first hook of the extension keeps `C` of the collection and of the context of its elements,
and the second hook keeps `D` of the selected fields. -/
structure Extension.Keeps (C D : Expr → Prop) (x : Extension) : Prop where
  preSelection : ∀ {context input j pre j'}, Gives (x.preSelection context input) j pre j' →
    C input.collection ∧ C input.elementContext → C pre.collection ∧ C pre.elementContext
  postSelection : ∀ {context input j post j'}, Gives (x.postSelection context input) j post j' →
    (∀ f ∈ input.selection.fields, D f.2) → ∀ f ∈ post.selection.fields, D f.2

namespace Extension

variable (K : Nodewise H C)

include K

theorem keeps_filter {argument : ArgumentDefinition} {predicate : Expr → Expr → Fresh Expr}
    (hpredicate : ∀ element value n, C element → C value → C ((predicate element value).run n).1) :
    (filter argument predicate).Keeps C D where
  preSelection hpre h := by
    rcases filter_gives.1 hpre with ⟨-, rfl, -⟩ | ⟨-, value, p, condition, hvalue, -, rfl, rfl, -⟩
    · exact h
    · refine ⟨K.of_call _ h.1 fun a ha => mem_singleton.1 ha ▸ K.of_lambda p ?_, h.2⟩
      exact hpredicate _ _ _ (K.replace h.2 (K.of_parameter p) _) (K.argument? hvalue)
  postSelection hpost h := (gives_pure.1 hpost).1 ▸ h

theorem keeps_sort {key : Expr → Fresh Expr}
    (hkey : ∀ element n, C element → C ((key element).run n).1) : (sort key).Keeps C D where
  preSelection hpre h := by
    rcases sort_gives.1 hpre with ⟨-, rfl, -⟩ | ⟨-, descending, p, k, hdescending, -, rfl, rfl, -⟩
    · exact h
    · refine ⟨K.of_call _ h.1 ?_, h.2⟩
      simp only [mem_cons, not_mem_nil, or_false, forall_eq_or_imp, forall_eq]
      exact ⟨K.of_lambda p (hkey _ _ (K.replace h.2 (K.of_parameter p) _)), K.argument? hdescending⟩
  postSelection hpost h := (gives_pure.1 hpost).1 ▸ h

theorem keeps_offsetPaging {defaultSize maxSize : Option Int64} :
    (offsetPaging defaultSize maxSize).Keeps C D where
  preSelection hpre h := by
    rcases offsetPaging_gives.1 hpre with ⟨-, rfl, -⟩ | ⟨-, -, skip, take, hskip, htake, rfl, -⟩
    · exact h
    · exact ⟨K.of_call _ (K.of_call _ h.1 fun a ha => mem_singleton.1 ha ▸ K.argument? hskip)
        fun a ha => mem_singleton.1 ha ▸ K.argument? htake, h.2⟩
  postSelection hpost h := (gives_pure.1 hpost).1 ▸ h

theorem keeps_position {key : String} (hD : ∀ {e}, C e → D e) : (position key).Keeps C D where
  preSelection hpre h := by
    rcases position_gives.1 hpre with ⟨-, rfl, -⟩ | ⟨-, element, item, -, hitem, rfl, -⟩
    · exact h
    · exact ⟨K.of_call _ h.1 nofun, K.replace h.2 (K.recordMember? (K.of_parameter _) hitem) _⟩
  postSelection hpost h := by
    rcases ((Known.position key).postSelection_gives hpost).2 with rfl | ⟨_, _, e, he, rfl⟩
    · exact h
    · intro f hf
      rw [SelectionMap.fields_insert] at hf
      rcases Merge.mem_write hf with hf | rfl
      · exact h f hf
      · exact hD (K.recordMember? (K.of_parameter _) he)

end Extension

namespace Compiler

variable {compiler : Compiler} {field : SelectedField} {select : Select} {context : Expr}
  {scope : Scope} {resolved : Resolved} {compiled : Compiled} {m m' : Memory}

/-! ## Resolving -/

theorem closed_of_resolve (K : Nodewise H C) {values : VariableValues}
    (hresolve : C field.definition.resolve)
    (hcontext : C context) (h : Gives (Resolve.resolve field values context scope) m resolved m') :
    C resolved.expression := by
  rcases Resolve.resolve_gives.1 h with ⟨e, he, rfl, -⟩ | ⟨-, h⟩
  · unfold Resolve.readBack? at he
    split at he
    · exact K.recordMember? hcontext he
    · cases he
  · obtain ⟨arguments, resolver, -, hresolver, rfl, -⟩ := Resolve.build_gives.1 h
    have hresolver := Resolve.of_resolverIn (fun h hm =>
      K.substitute h (K.recordMember? hcontext hm)) hresolve hresolver
    have hplaced := K.replace hresolver hcontext (.identity field.definition.context)
    rcases arguments with _ | ⟨p, value⟩
    · exact hplaced
    · exact K.replace hplaced (K.of_parameter p) _

/-! ## Fields -/

/-- What fields are made of sources, where `D` holds of the fields below: in this mode, at fields of
the operation or below them, `R` holds of what is made. -/
structure Making (C D R : Expr → Prop) (mode : Mode) (isRoot : Bool) : Prop where
  source : ∀ {e : Expr}, C e → R e
  object : ∀ {source : Expr} (element : Parameter) {fields : SelectionMap}, C source →
    (∀ f ∈ fields.fields, D f.2) → R (.projectOne source element fields.toRecord)
  list : ∀ {scope : Scope} {source : Expr} (element : Parameter) {fields : SelectionMap},
    scope.mode = mode → scope.isRoot = isRoot → C source → (∀ f ∈ fields.fields, D f.2) →
    R (projectList scope source element fields)
  /-- The fields of a fragment are moved from an object. -/
  move :
    ∀ {e context moved : Expr} {own : Parameter} {typeCondition : String} {policy : TypeMatching}
    {parameters : List Parameter} {path : FieldPath}, own.ty = .object typeCondition →
    R e → C context → (e.rebase policy own context parameters path).result = .ok moved → R moved

variable {mode : Mode} {isRoot : Bool} (K : Nodewise H C) (hR : Making C D R mode isRoot)

/-- The selection below a field is made of such fields, in a context of which `C` holds. -/
def SelectsMade (C D : Expr → Prop) (mode : Mode) (select : Select) : Prop :=
  ∀ {context : Expr} {scope : Scope} {m selection m'}, Gives (select context scope) m selection m' →
    scope.mode = mode → C context → ∀ f ∈ selection.fields.fields, D f.2

include K hR

theorem made_of_compileResolved (hD : ∀ {e}, C e → D e) (hselect : SelectsMade C D mode select)
    (hx : field.definition.Hooks (Extension.Keeps C D)) (hmode : scope.mode = mode)
    (hroot : scope.isRoot = isRoot) (hresolved : C resolved.expression)
    (h : Gives (compileResolved field select resolved scope) m compiled m') :
    R compiled.expression := by
  have hmode' : (withArguments scope resolved.arguments).2.mode = mode := by
    rw [mode_withArguments, hmode]
  have hroot' : (withArguments scope resolved.arguments).2.isRoot = isRoot := by
    rw [← hroot]
    cases resolved.arguments <;> rfl
  rw [compileResolved_eq] at h
  split at h
  · obtain ⟨rfl, -⟩ := gives_pure.1 h
    exact hR.source hresolved
  · obtain ⟨-, element, selection, -, hs, rfl⟩ := compileObject_gives.1 h
    dsimp only [projectObject]
    split
    · exact hR.source hresolved
    · exact hR.object element hresolved (hselect hs hmode' (K.of_parameter element))
  · rename_i hshape
    obtain ⟨ty, element, pre, m₁, selection, m₂, fields, -, -, hpre, hs, hf, h⟩ :=
      compileList_gives.1 h
    have hpre : C pre.collection ∧ C pre.elementContext :=
      keeps_of_runPreSelection (I := fun pre _ => C pre.collection ∧ C pre.elementContext)
        (fun x hmem _ _ _ _ hhook => (hx hshape x hmem).preSelection hhook) hpre
        ⟨hresolved, K.of_parameter element⟩
    have hselected := hselect hs hmode' hpre.2
    have hfields : ∀ f ∈ fields.fields, D f.2 := by
      unfold elementFields at hf
      split at hf
      · obtain ⟨read, hread, hf⟩ := bind_eq_ok_iff.1 hf
        cases hf
        have hadds := adds_addElementDependencies (K.of_dependencies hpre.2 hread) selection.fields
        exact fun f hf => (hadds.mem hf).elim (hselected f) hD
      · cases hf
        exact hselected
    split at h
    · obtain ⟨-, rfl⟩ := h
      exact hR.source hpre.1
    · obtain ⟨post, hpost, rfl⟩ := h
      exact hR.list post.element hmode' hroot' hpre.1
        (keeps_of_runPostSelection (I := fun post _ => ∀ f ∈ post.selection.fields, D f.2)
          (fun x hmem _ _ _ _ hhook => (hx hshape x (mem_reverse.1 hmem)).postSelection hhook) hpost
          hfields)

theorem made_of_compileFrom {origin : Origin} (hD : ∀ {e}, C e → D e)
    (hselect : SelectsMade C D mode select)
    (hx : field.definition.Hooks (Extension.Keeps C D)) (hresolve : C field.definition.resolve)
    (hmode : scope.mode = mode) (hroot : scope.isRoot = isRoot) (hcontext : C context)
    (h : Gives (compiler.compileFrom field origin select context scope) m compiled m') :
    R compiled.expression := by
  obtain ⟨-, h⟩ | ⟨name, typeCondition, own, compiled', m₁, run, -, -, rfl, hc, rfl, hrun, -, -⟩ :=
    compileFrom_gives.1 h
  · obtain ⟨-, resolved, m₁, hresolved, h⟩ := compileField_gives.1 h
    exact made_of_compileResolved K hR hD hselect hx hmode hroot
      (closed_of_resolve K hresolve hcontext hresolved) h
  · obtain ⟨-, resolved, m₁, hresolved, hc⟩ := compileField_gives.1 hc
    refine hR.move rfl (made_of_compileResolved K hR hD hselect hx ?_ ?_ ?_ hc) hcontext hrun
    · exact hmode
    · exact hroot
    · exact closed_of_resolve K hresolve (K.of_parameter _) hresolved

omit hR

theorem made_of_compileSelection (hD : ∀ {e}, C e → D e) {fields : List Expanded}
    {selection : CompiledSelection} (hmode : scope.mode = mode) (hcontext : C context)
    (hbelow : ∀ f ∈ fields, defers mode f.field = false → ∀ {scope m compiled m'},
      Gives (compiler.compileExpanded context scope f) m compiled m' → scope.mode = mode →
        scope.isRoot = false → D compiled.expression)
    (h : Gives (compiler.compileSelection context scope (.selects fields)) m selection m') :
    ∀ f ∈ selection.fields.fields, D f.2 := by
  obtain ⟨_, contributions, m₁, heq, hfields, hassemble⟩ := compileSelection_gives.1 h
  cases heq
  intro entry hentry
  rcases mem_of_assemble hassemble hentry with ⟨key, compiled, hc, heq⟩ | ⟨path, read, hc,
    d, hd, heq⟩ <;>
    rw [heq] <;> obtain ⟨f, hf, _, _, hgives⟩ := exists_contribute hfields hc <;>
    obtain ⟨-, _, hread, hsame, -⟩ | ⟨hdefers, _, hgives, hsame⟩ := contribute_gives.1 hgives <;>
    cases hsame
  · exact hbelow f hf (hmode ▸ hdefers) hgives hmode rfl
  · obtain ⟨chains, hchains, hread⟩ := bind_eq_ok_iff.1 hread
    cases hread
    obtain ⟨chain, hchain, rfl⟩ := mem_map.1 hd
    exact hD (K.of_dependencies hcontext hchains chain hchain)

/-- **What a field is compiled to is made of sources.**  In a tree of fields it is enough to know of
the resolvers of the fields that are compiled and of their extensions. -/
theorem made_of_compileExpanded (hmaking : Making C D D mode false) {e : Expanded}
    (hfields : e.Every fun field _ => (defers mode field = false → C field.definition.resolve)
      ∧ field.definition.Hooks (Extension.Keeps C D)) (hdefers : defers mode e.field = false) :
    ∀ {R isRoot}, Making C D R mode isRoot → ∀ {context scope m compiled m'}, scope.mode = mode →
      scope.isRoot = isRoot → C context →
      Gives (compiler.compileExpanded context scope e) m compiled m' → R compiled.expression := by
  induction e using Expanded.induct with
  | field e ih =>
    intro R isRoot hR context scope m compiled m' hmode hroot hcontext h
    obtain ⟨_, hresolve, hx⟩ := hfields.holds
    rw [compileExpanded_eq] at h
    refine made_of_compileFrom K hR hmaking.source
      (fun {context scope m selection m'} hs hmode hcontext => ?_)
      hx (hresolve hdefers) hmode hroot hcontext h
    obtain ⟨fields, _, _, hsel, -, -⟩ := compileSelection_gives.1 hs
    rw [hsel] at hs
    exact made_of_compileSelection K hmaking.source hmode hcontext
      (fun f hf hdefers _ _ _ _ h hmode hroot =>
      ih fields hsel f hf (hfields.of_selects hsel hf) hdefers hmaking hmode hroot hcontext h) hs

end Compiler
end QueryProjection
