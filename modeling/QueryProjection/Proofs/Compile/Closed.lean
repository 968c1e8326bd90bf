import QueryProjection.Proofs.Compile.Fields
import QueryProjection.Proofs.Compile.Supply

/-!
# Compiled expressions are closed

Compiling introduces parameters in many places: for the arguments of a field, for objects and
elements, for the context of a fragment, inside the predicates of extensions.  Only resolving checks
anything about them, and it checks against a list of parameters that is wider than what will be
bound: the context of the schema is on it even where the field is compiled over fetched data.

The invariant that holds nevertheless is `Allowed`.  A free parameter of what a field compiles to is
free in the context of the field, or one of the constants that come with it, or bound further out
and not one that must stay out.  `Compiler.closed_of_compileExpanded` carries it through the
compiler, together with what is known of its constants.

What has to be assumed of a field is `FieldDefinition.Contained`: its resolver does not mention what
must stay out unless that is its own context, and its extensions are of the known kinds, with
expressions that are made of what they are given.
-/

namespace QueryProjection

open List

open Assoc Constants SelectionMap

variable {P : Value → Prop}

/-! ## What may be free -/

/-- A free parameter of a compiled field is free in the context of the field, or one of its
constants, or bound around the field and not one of the outer ones. -/
def Allowed (outer : Parameter → Prop) (context : Expr) (scope : Scope) (constants : Constants)
    (p : Parameter) : Prop :=
  p ∈ context.freeParameters ∨ p ∈ Assoc.keys constants.entries ∨ (p ∈ scope.parameters ∧ ¬ outer p)

/-- `P` holds of the values of the constants. -/
def Constants.All (P : Value → Prop) (constants : Constants) : Prop :=
  ∀ e ∈ constants.entries, P e.2

theorem Constants.All.extend {constants other : Constants} (h : constants.All P)
    (ho : other.All P) : (constants.extend other).All P :=
  fun e he => (mem_insertAll he).elim (h e) (ho e)

/-- The expression of a compiled field keeps to what is allowed, and `P` holds of its constants. -/
structure Compiled.Closed (P : Value → Prop) (outer : Parameter → Prop) (context : Expr)
    (scope : Scope) (compiled : Compiled) : Prop where
  keeps : compiled.expression.Over P (Allowed outer context scope compiled.constants)
  constants : compiled.constants.All P

/-- The same for a selection. -/
structure CompiledSelection.Closed (P : Value → Prop) (outer : Parameter → Prop) (context : Expr)
    (scope : Scope) (selection : CompiledSelection) : Prop where
  keeps : ∀ f ∈ selection.fields.fields,
    f.2.Over P (Allowed outer context scope selection.constants)
  constants : selection.constants.All P

/-- What has to be assumed of a field.  Its resolver mentions no outer parameter but its own
context; its extensions are of the known kinds; and `P` holds of the constants of the resolver and
the extensions. -/
structure FieldDefinition.Contained (P : Value → Prop) (outer : Parameter → Prop)
    (definition : FieldDefinition) : Prop where
  own : ∀ p ∈ definition.resolve.freeParameters, outer p → p = definition.context
  resolve : definition.resolve.Built P True
  defaults : ∀ a ∈ definition.arguments, ∀ v ∈ a.2.default, P v
  extensions : definition.Hooks (Extension.BuiltIn P)

/-- `P` holds of the value of an argument wherever it is written or supplied. -/
def SelectedField.Given (P : Value → Prop) (values : VariableValues)
    (field : SelectedField) : Prop :=
  ∀ a ∈ field.arguments, ∀ v, values.resolve a.2 = .ok v → P v

section Closed

variable {E : EvaluationError → Prop} {outer : Parameter → Prop} {context : Expr} {scope : Scope}
  {field : SelectedField} {values : VariableValues} {m m' : Memory}

namespace Resolve

theorem ty_place (definition : FieldDefinition) (context : Expr) {arguments : Option Parameter}
    (harguments : ∀ p ∈ arguments, p.ty = definition.argumentsParameter.ty) (resolver : Expr) :
    (place definition context arguments resolver).ty
      = (resolver.replace (.identity definition.context) context).ty := by
  cases arguments with
  | none => rfl
  | some p =>
    have hty : (Expr.parameter p).ty = definition.argumentsParameter.ty := harguments p rfl
    exact Expr.ty_replaceUnder hty _ []

variable {path : FieldPath} {A : Parameter → Prop} {e : Expr}

theorem all_argumentValues (kept : Value.Kept P E) (hgiven : field.Given P values)
    {declared : List (String × ArgumentDefinition)}
    (hdefaults : ∀ a ∈ declared, ∀ v ∈ a.2.default, P v) {result : List (String × Value)}
    (h : argumentValues field values path declared = .ok result) : ∀ e ∈ result, P e.2 := by
  induction declared generalizing result with
  | nil =>
    cases h
    exact forall_mem_nil _
  | cons a rest ih =>
    obtain ⟨name, definition⟩ := a
    obtain ⟨hown, hrest⟩ := forall_mem_cons.1 hdefaults
    obtain ⟨value, hvalue, h⟩ := bind_eq_ok_iff.1 h
    obtain ⟨others, hothers, h⟩ := bind_eq_ok_iff.1 h
    cases h
    refine forall_mem_cons.2 ⟨?_, ih hrest hothers⟩
    obtain ⟨hwritten, hdefault, -⟩ := argumentValue_eq_ok_iff.1 hvalue
    cases hfind : find? definition.name field.arguments with
    | some a => exact hgiven _ (mem_of_find? hfind) _ (hwritten a hfind)
    | none =>
      rw [← hdefault hfind]
      cases hsome : definition.default with
      | none => exact kept.null
      | some v => exact hown v hsome

/-- What putting members of the context in place of chains keeps holds of the resolver that is
used. -/
theorem of_resolverIn {Q : Expr → Prop} (hstep : ∀ {resolver chain member : Expr} {name : String},
      Q resolver → context.recordMember? name = some member → Q (resolver.substitute chain member))
    (hfield : Q field.definition.resolve) (h : Gives (resolverIn field context scope) m e m') :
    Q e := by
  have hall : ∀ {keys} {chains : Expr.Dependencies} {resolver}, Q resolver →
      substituteChains keys context scope.path chains resolver = .ok e → Q e := by
    intro keys chains
    induction chains with
    | nil =>
      intro resolver hresolver h
      cases h
      exact hresolver
    | cons c rest ih =>
      intro resolver hresolver h
      simp only [substituteChains] at h
      split at h
      · cases h
      · rename_i member hmember
        exact ih (hstep hresolver hmember) h
  obtain ⟨-, h⟩ := resolverIn_gives.1 h
  split at h
  · obtain ⟨chains, -, h⟩ := bind_eq_ok_iff.1 h
    obtain ⟨resolver, hresolver, h⟩ := bind_eq_ok_iff.1 h
    obtain ⟨left, -, h⟩ := bind_eq_ok_iff.1 h
    split at h <;> cases h
    exact hall hfield hresolver
  · exact h ▸ hfield

theorem all_withArguments (kept : Value.Kept P E) (hgiven : field.Given P values)
    (hfield : field.definition.Contained P outer) {arguments : Option (Parameter × Value)}
    (h : Gives (bindArguments field values scope.path) m arguments m') :
    (Compiler.withArguments scope arguments).1.All P := by
  obtain ⟨-, ⟨-, rfl, -⟩ | ⟨-, result, hresult, rfl, -⟩⟩ := bindArguments_gives.1 h
  · exact forall_mem_nil _
  · intro e he
    obtain rfl := mem_singleton.1 he
    exact (kept.object _).2 (all_argumentValues kept hgiven hfield.defaults hresult)

theorem over_resolve (kept : Value.Kept P E) (hgiven : field.Given P values)
    (hfield : field.definition.Contained P outer) (hcontext : context.Built P True) {r : Resolved}
    (h : Gives (resolve field values context scope) m r m') :
    r.expression.Over P (Allowed outer context scope (Compiler.withArguments scope r.arguments).1)
      ∧ (Compiler.withArguments scope r.arguments).1.All P := by
  have hown : context.Over P (· ∈ context.freeParameters) := ⟨fun _ => id, hcontext⟩
  rcases resolve_gives.1 h with ⟨e, he, rfl, -⟩ | ⟨-, h⟩
  · refine ⟨?_, forall_mem_nil _⟩
    unfold readBack? at he
    split at he
    · exact (hown.recordMember? he).mono fun _ => .inl
    · cases he
  · obtain ⟨arguments, resolver, hbind, hresolver, rfl, hdangling⟩ := build_gives.1 h
    refine ⟨?_, all_withArguments kept hgiven hfield hbind⟩
    -- The resolver mentions an outer parameter only as the context that is replaced.
    have hplain : ∀ e : Expr, e.Built P True → e.Over P (· ∈ e.freeParameters) :=
      fun e he => ⟨fun _ => id, he⟩
    have hresolver : resolver.Over P fun p =>
        (p ∈ context.freeParameters ∨ ¬ outer p) ∨ p = field.definition.context := by
      refine of_resolverIn (fun h hm => h.substitute
        ((hown.mono fun _ h => .inl (.inl h)).recordMember? hm)) ?_ hresolver
      refine (hplain _ hfield.resolve).mono fun p hp => ?_
      by_cases hp' : outer p
      · exact .inr (hfield.own p hp hp')
      · exact .inl (.inr hp')
    have hplaced : (place field.definition context (arguments.map Prod.fst) resolver).Over P
        fun p => (p ∈ context.freeParameters ∨ ¬ outer p) ∨ p ∈ arguments.map Prod.fst := by
      have hreplaced := hresolver.replace (hown.mono fun _ => .inl)
      rcases arguments with _ | ⟨q, v⟩
      · exact hreplaced.mono fun _ => .inl
      · exact (hreplaced.mono fun _ h => .inl (.inl h)).replace (.parameter (.inr rfl))
    -- Everything else is bound around the field: that is what resolving checks.
    have hbound := find?_eq_none.1 hdangling
    refine ⟨fun p hp => ?_, hplaced.built⟩
    have harguments : p ∈ arguments.map Prod.fst →
        p ∈ keys (Compiler.withArguments scope arguments).1.entries := by
      rcases arguments with _ | ⟨q, v⟩
      · exact fun h => nomatch h
      · rintro ⟨⟩
        exact mem_cons_self
    have hp' := hbound p hp
    simp only [Bool.and_eq_true, Bool.not_eq_true', contains_eq_mem, decide_eq_false_iff_not,
      bne_iff_ne, ne_eq, not_and, not_not] at hp'
    by_cases hscope : p ∈ scope.parameters
    · rcases hplaced.free p hp with (h | h) | h
      · exact .inl h
      · exact .inr (.inr ⟨hscope, h⟩)
      · exact .inr (.inl (harguments h))
    · exact .inr (.inl (harguments (hp' hscope)))

end Resolve

variable {fields' : SelectionMap}

namespace Compiler

variable {select : Select} {resolved : Resolved} {constants : Constants} {compiled : Compiled}

/-- The selection below a field is closed, in every context it is compiled in. -/
def SelectsClosed (P : Value → Prop) (outer : Parameter → Prop) (select : Select) : Prop :=
  ∀ {context : Expr} {scope : Scope} {m selection m'}, Gives (select context scope) m selection m' →
    context.Built P True → selection.Closed P outer context scope

variable {selected : Constants} {p : Parameter} {A : Parameter → Prop} {fields : SelectionMap}

theorem Allowed.of_selection {element : Parameter} {inner : Expr}
    (hinner : ∀ p ∈ inner.freeParameters, p = element) {scope' : Scope}
    (hscope : scope'.parameters = element :: scope.parameters)
    (h : Allowed outer inner scope' selected p) :
    Allowed outer context scope (constants.extend selected) p ∨ p = element := by
  rcases h with h | h | ⟨h, hne⟩
  · exact .inr (hinner p h)
  · exact .inl (.inr (.inl (mem_keys_extend.2 (.inr h))))
  · rw [hscope] at h
    rcases mem_cons.1 h with h | h
    · exact .inr h
    · exact .inl (.inr (.inr ⟨h, hne⟩))

theorem Allowed.extend (h : Allowed outer context scope constants p) :
    Allowed outer context scope (constants.extend selected) p :=
  h.imp_right fun h => h.imp_left fun h => mem_keys_extend.2 (.inl h)

theorem closed_of_compileObject (hselect : SelectsClosed P outer select)
    (hresolved : resolved.expression.Over P (Allowed outer context scope constants))
    (hconstants : constants.All P)
    (h : Gives (compileObject field select resolved scope constants) m compiled m') :
    compiled.Closed P outer context scope
      ∧ ∀ p ∈ keys constants.entries, p ∈ keys compiled.constants.entries := by
  obtain ⟨-, element, selection, -, hs, rfl⟩ := compileObject_gives.1 h
  have hselection := hselect hs trivial
  have hsource : resolved.expression.Over P
      (Allowed outer context scope (constants.extend selection.constants)) :=
    hresolved.mono fun p hp => Allowed.extend hp
  refine ⟨⟨?_, hconstants.extend hselection.constants⟩, fun p hp =>
    mem_keys_extend.2 (.inl hp)⟩
  dsimp only [projectObject]
  split
  · exact hsource
  · exact hsource.projectOne (.toRecord fun f hf => (hselection.keeps f hf).mono fun p hp =>
      Allowed.of_selection (fun q hq => Expr.mem_freeParameters_parameter.1 hq) rfl hp)

theorem over_elementFields {ty : Ty} {pre : PreSelection} (hcontext : pre.elementContext.Over P A)
    (hfields : ∀ f ∈ fields.fields, f.2.Over P A)
    (h : elementFields field scope ty pre fields = .ok fields') :
    ∀ f ∈ fields'.fields, f.2.Over P A := by
  unfold elementFields at h
  split at h
  · obtain ⟨read, hread, h⟩ := bind_eq_ok_iff.1 h
    cases h
    have hadds := adds_addElementDependencies (Q := (·.Over P A)) (fun d hd =>
      Expr.Over.replace_chain (Expr.chainOn_of_dependencies hread d hd) hcontext) fields
    exact fun f hf => (hadds.mem hf).elim (hfields f) id
  · cases h
    exact hfields

theorem closed_of_compileList (hselect : SelectsClosed P outer select)
    (hextensions : ∀ x ∈ field.definition.extensions, x.BuiltIn P)
    (harguments : ∀ p ∈ resolved.arguments.map Prod.fst, p ∈ keys constants.entries)
    (hresolved : resolved.expression.Over P (Allowed outer context scope constants))
    (hconstants : constants.All P)
    (h : Gives (compileList field select resolved scope constants) m compiled m') :
    compiled.Closed P outer context scope
      ∧ ∀ p ∈ keys constants.entries, p ∈ keys compiled.constants.entries := by
  obtain ⟨ty, element, pre, m₁, selection, m₂, fields, -, -, hpre, hs, hf, h⟩ :=
    compileList_gives.1 h
  have hpre : pre.Over P (Allowed outer context scope constants) :=
    over_runPreSelection hextensions (fun p hp => .inr (.inl (harguments p hp)))
      (.initial hresolved) hpre
  have hselection := hselect hs hpre.context.built
  have hcollection : pre.collection.Over P
      (Allowed outer context scope (constants.extend selection.constants)) :=
    hpre.collection.mono fun p hp => Allowed.extend hp
  have hfields : ∀ f ∈ fields.fields, f.2.Over P fun p =>
      Allowed outer context scope (constants.extend selection.constants) p ∨ p = pre.element :=
    over_elementFields (hpre.context.mono fun _ => .inr)
      (fun f hf => (hselection.keeps f hf).mono fun p hp =>
        Allowed.of_selection hpre.context.free rfl hp) hf
  refine ⟨?_, fun p hp => ?_⟩
  · split at h
    · obtain ⟨-, rfl⟩ := h
      exact ⟨hcollection, hconstants.extend hselection.constants⟩
    · obtain ⟨post, hpost, rfl⟩ := h
      obtain ⟨hpost, helement⟩ := over_runPostSelection
        (fun x hx => hextensions x (mem_reverse.1 hx)) (.inr rfl) hfields hpost
      refine ⟨?_, hconstants.extend hselection.constants⟩
      have hprojected := hcollection.projectEach (.toRecord hpost)
      dsimp only [projectList]
      rw [helement]
      split
      · exact hprojected.materialize
      · exact hprojected
  · split at h
    · obtain ⟨-, rfl⟩ := h
      exact mem_keys_extend.2 (.inl hp)
    · obtain ⟨post, -, rfl⟩ := h
      exact mem_keys_extend.2 (.inl hp)

/-- A parameter that is one of the constants need not be bound around the field. -/
theorem Closed.unbind (h : compiled.Closed P outer context (scope.bind p))
    (hp : p ∈ keys compiled.constants.entries) : compiled.Closed P outer context scope := by
  refine ⟨h.keeps.mono fun q hq => ?_, h.constants⟩
  rcases hq with hq | hq | ⟨hq, hne⟩
  · exact .inl hq
  · exact .inr (.inl hq)
  · rcases mem_cons.1 hq with rfl | hq
    · exact .inr (.inl hp)
    · exact .inr (.inr ⟨hq, hne⟩)

theorem closed_of_compileResolved (hselect : SelectsClosed P outer select)
    (hextensions : field.definition.Hooks (Extension.BuiltIn P))
    (hresolved : resolved.expression.Over P
      (Allowed outer context scope (withArguments scope resolved.arguments).1))
    (hconstants : (withArguments scope resolved.arguments).1.All P)
    (h : Gives (compileResolved field select resolved scope) m compiled m') :
    compiled.Closed P outer context scope := by
  obtain ⟨expression, materialized, arguments⟩ := resolved
  have hscope : (expression.Over P (Allowed outer context (withArguments scope arguments).2
      (withArguments scope arguments).1)) := by
    rcases arguments with _ | ⟨q, v⟩
    · exact hresolved
    · exact hresolved.mono fun p hp =>
        hp.imp_right (.imp_right fun hp => ⟨mem_cons_of_mem _ hp.1, hp.2⟩)
  have harguments : ∀ p ∈ arguments.map Prod.fst,
      p ∈ keys (withArguments scope arguments).1.entries := by
    rcases arguments with _ | ⟨q, v⟩
    · exact fun p hp => nomatch hp
    · rintro p ⟨⟩
      exact mem_cons_self
  have hunbind : compiled.Closed P outer context (withArguments scope arguments).2
      ∧ (∀ p ∈ keys (withArguments scope arguments).1.entries,
          p ∈ keys compiled.constants.entries) → compiled.Closed P outer context scope := by
    rintro ⟨hclosed, hkeys⟩
    rcases arguments with _ | ⟨q, v⟩
    · exact hclosed
    · exact Closed.unbind hclosed (hkeys q mem_cons_self)
  rw [compileResolved_eq] at h
  split at h
  · obtain ⟨rfl, -⟩ := gives_pure.1 h
    exact ⟨hresolved, hconstants⟩
  · exact hunbind (closed_of_compileObject hselect hscope hconstants h)
  · rename_i hshape
    exact hunbind
      (closed_of_compileList hselect (hextensions hshape) harguments hscope hconstants h)

theorem closed_of_compileFrom {compiler : Compiler} {origin : Origin} (kept : Value.Kept P E)
    (hgiven : field.Given P compiler.values) (hfield : field.definition.Contained P outer)
    (hselect : SelectsClosed P outer select) (hcontext : context.Built P True)
    (h : Gives (compiler.compileFrom field origin select context scope) m compiled m') :
    compiled.Closed P outer context scope := by
  have hown : ∀ {context : Expr} {scope : Scope} {m compiled m'},
      Gives (compiler.compileField field select context scope) m compiled m' →
        context.Built P True → compiled.Closed P outer context scope := by
    intro context scope m compiled m' h hcontext
    obtain ⟨-, resolved, m₁, hresolve, h⟩ := compileField_gives.1 h
    obtain ⟨hresolved, hconstants⟩ := Resolve.over_resolve kept hgiven hfield hcontext hresolve
    exact closed_of_compileResolved hselect hfield.extensions hresolved hconstants h
  obtain ⟨-, h⟩ | ⟨name, typeCondition, own, compiled', m₁, run, -, -, -, hc, rfl,
      hrun, hcompiled, -⟩ :=
    compileFrom_gives.1 h
  · exact hown h hcontext
  · -- The fragment's own parameter is gone once its fields have been moved to the context.
    obtain ⟨hover, hconstants⟩ := hown hc trivial
    rw [hcompiled]
    refine ⟨Expr.Over.rebase (hover.mono fun p hp => ?_) ⟨fun p hp => .inl hp, hcontext⟩ hrun,
      hconstants⟩
    rcases hp with hp | hp | ⟨hp, hne⟩
    · exact .inr (Expr.mem_freeParameters_parameter.1 hp)
    · exact .inl (.inr (.inl hp))
    · rcases mem_cons.1 hp with hp | hp
      · exact .inr hp
      · exact .inl (.inr (.inr ⟨hp, hne⟩))

end Compiler

namespace Compiler

variable {selection : CompiledSelection} {contributions : List Contribution} {compiler : Compiler}

theorem constants_of_assemble (h : Gives (assemble contributions) m selection m') :
    (∀ e ∈ selection.constants.entries, ∃ c ∈ contributions, e ∈ c.constants.entries)
      ∧ ∀ c ∈ contributions, ∀ p ∈ keys c.constants.entries,
        p ∈ keys selection.constants.entries := by
  obtain ⟨fields, -, rfl⟩ := assemble_gives.1 h
  clear h
  dsimp only
  induction contributions using reverseRecOn with
  | nil => exact ⟨forall_mem_nil _, forall_mem_nil _⟩
  | append_singleton before c ih =>
    have hadd : ∀ start : CompiledSelection,
        (CompiledSelection.add start c).constants = start.constants.extend c.constants :=
      fun start => by cases c <;> rfl
    rw [foldl_append, foldl_cons, foldl_nil, hadd]
    refine ⟨fun e he => ?_, fun d hd p hp => mem_keys_extend.2 ?_⟩
    · rcases mem_insertAll he with he | he
      · obtain ⟨d, hd, he⟩ := ih.1 e he
        exact ⟨d, mem_append_left _ hd, he⟩
      · exact ⟨c, mem_append_right _ mem_cons_self, he⟩
    · rcases mem_append.1 hd with hd | hd
      · exact .inl (ih.2 d hd p hp)
      · exact .inr (mem_singleton.1 hd ▸ hp)

theorem selectsClosed {expanded : ExpandedSelection}
    (hbelow : ∀ fields, expanded = .selects fields → ∀ f ∈ fields, ∀ {context scope m compiled m'},
      Gives (compiler.compileExpanded context scope f) m compiled m' → context.Built P True →
        compiled.Closed P outer context scope) :
    SelectsClosed P outer fun context scope =>
      compiler.compileSelection context scope expanded := by
  intro context scope m selection m' h hcontext
  obtain ⟨fields, contributions, m₁, hsel, hcontributions, h⟩ := compileSelection_gives.1 h
  have hclosed : ∀ {key compiled}, .selected key compiled ∈ contributions →
      compiled.Closed P outer context scope := by
    intro key compiled hc
    obtain ⟨f, hf, _, _, hgives⟩ := exists_contribute hcontributions hc
    obtain ⟨-, _, -, heq, -⟩ | ⟨-, _, hgives, heq⟩ := contribute_gives.1 hgives <;> cases heq
    obtain ⟨hkeeps, hconstants⟩ := hbelow fields hsel f hf hgives hcontext
    exact ⟨hkeeps, hconstants⟩
  obtain ⟨hentries, hkeys⟩ := constants_of_assemble h
  refine ⟨fun entry hentry => ?_, fun e he => ?_⟩
  · rcases mem_of_assemble h hentry with ⟨key, compiled, hc, heq⟩ | ⟨path, read, hc, d, hd, heq⟩
    · rw [heq]
      exact (hclosed hc).keeps.mono fun p hp => hp.imp_right (.imp_left (hkeys _ hc p))
    · obtain ⟨f, -, _, _, hgives⟩ := exists_contribute hcontributions hc
      obtain ⟨-, _, hread, hsame, -⟩ | ⟨-, _, -, hsame⟩ := contribute_gives.1 hgives <;> cases hsame
      obtain ⟨chains, hchains, hread⟩ := bind_eq_ok_iff.1 hread
      cases hread
      obtain ⟨chain, hchain, rfl⟩ := mem_map.1 hd
      exact heq ▸ (Expr.Over.replace_chain (Expr.chainOn_of_dependencies hchains chain hchain)
        ⟨fun _ => id, hcontext⟩).mono fun _ => .inl
  · obtain ⟨c, hc, he⟩ := hentries e he
    cases c with
    | selected key compiled => exact (hclosed hc).constants e he
    | deferred => cases he

/-- **Compiled fields are closed.**  A free parameter of what a field compiles to is free in the
context of the field, or one of its constants, or bound around the field and not an outer one. -/
theorem closed_of_compileExpanded (kept : Value.Kept P E) {e : Expanded}
    (hfields : e.Every fun field _ =>
      field.definition.Contained P outer ∧ field.Given P compiler.values) :
    ∀ {context scope m compiled m'}, Gives (compiler.compileExpanded context scope e)
      m compiled m' → context.Built P True → compiled.Closed P outer context scope := by
  induction e using Expanded.induct with
  | field e ih =>
    intro context scope m compiled m' h hcontext
    obtain ⟨_, hown, hgiven⟩ := hfields.holds
    rw [compileExpanded_eq] at h
    refine closed_of_compileFrom kept hgiven hown (selectsClosed ?_) hcontext h
    exact fun fields hsel f hf => ih fields hsel f hf (hfields.of_selects hsel hf)

end Compiler

end Closed

end QueryProjection
