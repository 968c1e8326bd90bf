import QueryProjection.Proofs.TwoPass.Service

/-!
# When a field compiles

Compiling a field may fail: it is nested too deep, its arguments have no values, its resolver
mentions a parameter that nothing binds, or its extensions refuse the arguments.  In the data pass
that is checked of plain fields, and in the full pass over fetched data of service fields, and of
nothing that is read back.  Between them the two passes check every field, so a field that both of
them compile can be compiled without a data pass:

* `Expanded.Compiles` says of a field and of those below it that all of that is well;
* `Compiler.compiles_of_bare` and `Compiler.compiles_of_materialized` find it out from the two
  passes;
* `Compiler.exists_gives_of_compiles` is the converse for the full pass without fetched data.

Over fetched data a service field may turn out to resolve to a record if the type of its resolver is
that of a member that it reads, and then what stands below it is read back unchecked.
`Expr.TypedApart` excludes that.
-/

namespace QueryProjection

open Expr Resolve SelectedField Ty

/-! ## The type of a resolver -/

/-- The type of the expression is not that of a member that it reads, of anything but its
arguments. -/
def Expr.TypedApart (arguments : Parameter) : Expr → Prop
  | .parameter _ => True
  | .constant _ _ _ => True
  | .member receiver _ _ => ∀ q, receiver.ReadsOf q → q = arguments
  | .call _ receiver _ => receiver.TypedApart arguments
  | .binary _ left _ => left.TypedApart arguments
  | .serviceCall _ _ _ _ => True
  | .lambda _ _ => True
  | .record _ _ => True
  | .projectEach _ _ body => body.TypedApart arguments
  | .projectOne _ _ body => body.TypedApart arguments
  | .materialize inner => inner.TypedApart arguments

section Substitute

variable {root : Parameter} {target : Expr} (htarget : target.ReadsOf root)
include htarget

variable {e : Expr}

theorem Expr.readsOf_of_substitute {replacement : Expr} {q : Parameter}
    (h : (e.substitute target replacement).ReadsOf q) : e.ReadsOf q ∨ e.ReadsOf root := by
  unfold substitute at h
  induction e using induct with
  | member receiver name ty ih =>
    rw [substituteIn] at h
    split at h
    · rename_i hs
      exact .inr (htarget.eq_of_same hs ▸ htarget)
    · cases h with
      | member h => exact (ih h).imp (.member · _ _) (.member · _ _)
  | _ =>
    rw [substituteIn] at h
    split at h
    · rename_i hs
      exact .inr (htarget.eq_of_same hs ▸ htarget)
    · first | exact .inl h | cases h

theorem Expr.TypedApart.substitute {arguments : Parameter} (hroot : root ≠ arguments)
    {name : String} {base : Expr} (hchain : ChainOn base name target) (replacement : Expr)
    (h : e.TypedApart arguments) :
    (e.substitute target replacement).TypedApart arguments
      ∧ Ty.Under Ty.IsObject (e.substitute target replacement).ty e.ty := by
  have hkept : ∀ {x : Expr}, x.TypedApart arguments → ¬ same x target = true := by
    intro x hx hs
    rw [htarget.eq_of_same hs] at hx
    cases hchain with
    | first | next =>
      cases htarget with
      | member hreads => exact hroot (hx _ hreads)
  unfold Expr.substitute
  induction e using Expr.induct_all with
  | h e ih =>
    rw [substituteIn_eq, if_neg (hkept h)]
    have hrefl : ∀ ty, Ty.Under Ty.IsObject ty ty := .refl fun name => ⟨name, rfl⟩
    cases e with
    | member receiver name ty =>
      refine ⟨fun q hq => ?_, hrefl _⟩
      rcases readsOf_of_substitute htarget hq with hreads | hreads
      · exact h q hreads
      · exact absurd (h root hreads) hroot
    | call method receiver =>
      have ihr := ih ([], receiver) List.mem_cons_self h
      exact ⟨ihr.1, ihr.2.callTy method⟩
    | binary op left =>
      have ihl := ih ([], left) List.mem_cons_self h
      exact ⟨ihl.1, ihl.2.binaryTy op⟩
    | lambda => exact ⟨trivial, trivial⟩
    | projectEach source element body =>
      have ihb := ih ([element], body) (by simp [parts]) h
      have helement :
          ∀ (c : Bool) (t : Ty), (if c then Ty.map t else .list t).element? = some t := by
        rintro (_ | _) t <;> rfl
      refine ⟨ihb.1, ?_⟩
      rw [mapParts, ty, ty]
      cases source.ty.isMap with
      | true => exact ⟨_, helement _ _, ihb.2⟩
      | false => exact ⟨_, helement _ _, ihb.2⟩
    | projectOne _ element body => exact ih ([element], body) (by simp [parts]) h
    | materialize inner => exact ih ([], inner) List.mem_cons_self h
    | _ => exact ⟨h, hrefl _⟩

end Substitute

/-- A service field with fields below it does not have the type of a member that its resolver reads,
of anything but its arguments. -/
def FieldDefinition.TypedApart (definition : FieldDefinition) : Prop :=
  definition.requiresService = true → definition.outputType?.isSome = true →
    definition.resolve.TypedApart definition.argumentsParameter

variable {root : Parameter} {scope : Scope} {field : SelectedField} {given : VariableValues}
  {record : Option (List (String × Value))} {depth : Nat}

namespace Resolve

variable {keys : List (String × String)} {path : FieldPath} {record : Expr}
  {chains : Expr.Dependencies} {resolver e : Expr} {p : Parameter} {arguments : Option Parameter}
  {definition : FieldDefinition}

theorem under_substituteChains {arguments : Parameter} (hroot : root ≠ arguments)
    (hchains : ∀ d ∈ chains, ChainOn (.parameter d.2.root) d.1 d.2.chain ∧ d.2.root = root)
    (h : substituteChains keys record path chains resolver = .ok e)
    (hapart : resolver.TypedApart arguments) : Under IsObject e.ty resolver.ty := by
  induction chains generalizing resolver with
  | nil =>
    cases h
    exact .refl (fun name => ⟨name, rfl⟩) _
  | cons d rest ih =>
    obtain ⟨member, -, h⟩ := substituteChains_cons h
    obtain ⟨⟨hd, hd'⟩, hchains⟩ := List.forall_mem_cons.1 hchains
    obtain ⟨hapart, hunder⟩ := hapart.substitute (hd.readsOf .parameter) (hd' ▸ hroot) hd member
    exact (ih hchains h hapart).trans hunder

/-- With members of a parameter in place of chains, a resolver mentions that parameter besides what
it mentions anyway. -/
theorem free_of_substituteChains {el : Parameter}
    (h : substituteChains keys (.parameter el) path chains resolver = .ok e)
    (hmem : p ∈ e.freeParameters) : p ∈ resolver.freeParameters ∨ p = el := by
  induction chains generalizing resolver with
  | nil =>
    cases h
    exact .inl hmem
  | cons d rest ih =>
    obtain ⟨member, hmember, h⟩ := substituteChains_cons h
    rcases ih h with hp | hp
    · rcases mem_freeParameters_substitute _ hp with hp | hp
      · exact .inl hp
      · exact .inr ((Expr.ReadsOf.parameter.recordMember? hmember).mem_freeParameters_iff.1 hp)
    · exact .inr hp

theorem dangling?_eq_none_iff :
    dangling? e scope arguments = none
      ↔ ∀ p ∈ e.freeParameters, p ∈ scope.parameters ∨ p ∈ arguments := by
  simp only [dangling?, List.find?_eq_none, Bool.and_eq_true, Bool.not_eq_true', bne_iff_ne,
    List.contains_eq_mem, decide_eq_false_iff_not, not_and_or, not_not, Option.mem_def]

theorem mem_freeParameters_place (hp : p ∈ resolver.freeParameters)
    (hcontext : p ≠ definition.context)
    (harguments : arguments.isSome = true → p ≠ definition.argumentsParameter) (context : Expr) :
    p ∈ (place definition context arguments resolver).freeParameters := by
  have hplaced := mem_freeParameters_replace_of_ne hp hcontext context
  cases arguments with
  | none => exact hplaced
  | some q => exact mem_freeParameters_replace_of_ne hplaced (harguments rfl) _

/-- What a resolver in its place mentions: its context, its arguments, and what else it mentions. -/
theorem free_of_place {context : Expr}
    (h : p ∈ (place definition context arguments resolver).freeParameters) :
    p ∈ context.freeParameters ∨ p ∈ arguments
      ∨ (p ∈ resolver.freeParameters ∧ p ≠ definition.context
      ∧ (arguments.isSome = true → p ≠ definition.argumentsParameter)) := by
  cases arguments with
  | none =>
    rcases mem_freeParameters_replace h with ⟨hp, hne⟩ | hp
    · exact .inr (.inr ⟨hp, hne, nofun⟩)
    · exact .inl hp
  | some q =>
    rcases mem_freeParameters_replace h with ⟨hp, hne⟩ | hp
    · rcases mem_freeParameters_replace hp with ⟨hp, hne'⟩ | hp
      · exact .inr (.inr ⟨hp, hne', fun _ => hne⟩)
      · exact .inl hp
    · exact .inr (.inl (congrArg some (mem_freeParameters_parameter.1 hp).symm))

end Resolve

theorem SelectedField.isSome_of_record? (h : field.record? given = some record) :
    record.isSome = true ↔ field.definition.arguments ≠ [] := by
  unfold record? at h
  split at h
  · rename_i hnil
    cases h
    simp [hnil]
  · rename_i hne
    obtain ⟨values, -, rfl⟩ := Option.map_eq_some_iff.1 h
    simp [hne]

/-! ## What is checked -/

/-- What is checked of a field when it is compiled at a depth.  `root` is the parameter that
resolvers may mention besides their own. -/
structure SelectedField.Checked (compiler : Compiler) (I : Interpretation) (root : Parameter)
    (depth : Nat) (field : SelectedField) : Prop where
  depth : ∀ limit, compiler.settings.maxDepth = some limit → depth ≤ limit
  known : field.Known
  record : (field.record? compiler.values).isSome = true
  free : ∀ p ∈ field.definition.resolve.freeParameters, p = field.definition.context
    ∨ (field.definition.arguments ≠ [] ∧ p = field.definition.argumentsParameter) ∨ p = root
  window : field.definition.shape ≠ .leaf → (I.window? field).isSome = true

/-- What a resolver mentions besides its context and its arguments, if it was checked. -/
theorem SelectedField.Checked.mem_of_free {compiler : Compiler} {I : Interpretation}
    (h : field.Checked compiler I root depth)
    (hrecord : field.record? compiler.values = some record) {parameters : List Parameter}
    (hroot : root ∈ parameters) {p : Parameter} (hp : p ∈ field.definition.resolve.freeParameters)
    (hcontext : p ≠ field.definition.context)
    (hargument : record.isSome = true → p ≠ field.definition.argumentsParameter) :
    p ∈ parameters := by
  rcases h.free p hp with heq | ⟨hne, heq⟩ | rfl
  · exact absurd heq hcontext
  · exact absurd heq (hargument ((isSome_of_record? hrecord).2 hne))
  · exact hroot

/-- The field and the fields below it can be compiled, those that are left to the full pass
excepted. -/
inductive Expanded.Compiles (checked : Nat → SelectedField → Prop) (mode : Mode) :
    Nat → Expanded → Prop
  | field {depth : Nat} {e : Expanded} (own : checked depth e.field)
      (selects : e.field.definition.shape ≠ .leaf → ∃ fields, e.selection = .selects fields)
      (below : e.field.definition.shape ≠ .leaf → ∀ fields, e.selection = .selects fields →
        ∀ f ∈ fields, Compiler.defers mode f.field = false → Compiles checked mode (depth + 1) f) :
      Compiles checked mode depth e

theorem Expanded.Compiles.of_selects {checked : Nat → SelectedField → Prop} {e : Expanded}
    (h : e.Compiles checked .dataOnly depth) (hshape : e.field.definition.shape ≠ .leaf)
    {fields : List Expanded} (hsel : e.selection = .selects fields) {f : Expanded} (hf : f ∈ fields)
    (hplain : f.field.definition.requiresService = false) :
    f.Compiles checked .dataOnly (depth + 1) := by
  obtain ⟨-, -, hbelow⟩ := h
  exact hbelow hshape fields hsel f hf (by rw [Compiler.defers, hplain]; rfl)

/-- The scope binds the context of a field.  Of the parameters of the schema it binds at most
one. -/
structure Scope.Holds (next : Nat) (root : Parameter) (scope : Scope) (c : Parameter) : Prop where
  mem : c ∈ scope.parameters
  old : ∀ p ∈ scope.parameters, p.id < next → p = root

theorem Scope.Holds.bind {next : Nat} {c : Parameter} (h : scope.Holds next root c)
    {element : Parameter} (hnew : next ≤ element.id) {others : List Parameter}
    (hothers : ∀ p ∈ others, next ≤ p.id) {inner : Scope}
    (hinner : inner.parameters = element :: (others ++ scope.parameters)) :
    inner.Holds next root element where
  mem := by
    rw [hinner]
    exact List.mem_cons_self
  old p hp hlt := by
    rw [hinner] at hp
    rcases List.mem_cons.1 hp with rfl | hp
    · exact absurd hlt (Nat.not_lt_of_le hnew)
    · rcases List.mem_append.1 hp with hp | hp
      · exact absurd hlt (Nat.not_lt_of_le (hothers p hp))
      · exact h.old p hp hlt

namespace Compiler

variable {compiler : Compiler} {I : Interpretation} {next : Nat} {root : Parameter} {scope : Scope}
  {m m' : Memory} {compiled : Compiled}

/-! ## What the passes find out -/

variable {fields : List Expanded} {context source : Expr} {f e : Expanded} {field : SelectedField}
  {record : Option (List (String × Value))} {n : Nat} {c : Parameter}

theorem holds_ownScope (hholds : scope.Holds next root c) {own : Option Parameter}
    (hown : ∀ q ∈ own, next ≤ q.id) : ∃ c', (ownScope scope own).Holds next root c' := by
  cases own with
  | none => exact ⟨c, hholds⟩
  | some q =>
    have hnone : ∀ p ∈ ([] : List Parameter), next ≤ p.id := nofun
    exact ⟨q, hholds.bind (hown q rfl) hnone rfl⟩

theorem le_id_bound (hn : next ≤ n) :
    ∀ p ∈ ((bound field record n).map Prod.fst).toList, next ≤ p.id := by
  intro p hp
  obtain ⟨b, hb, rfl⟩ := Option.map_eq_some_iff.1 (Option.mem_toList.1 hp)
  exact id_eq_of_bound b hb ▸ hn

theorem gives_of_compileSelection (hdrawn : ∀ f ∈ fields, compiler.Draws IsRecord f)
    {selection : CompiledSelection}
    (h : Gives (compiler.compileSelection context scope (.selects fields)) m selection m')
    (hf : f ∈ fields) (hdefers : defers scope.mode f.field = false) :
    ∃ m₁ compiled m₂, m.next ≤ m₁.next
      ∧ Gives (compiler.compileExpanded context (scope.field f.field.responseKey) f)
        m₁ compiled m₂ := by
  obtain ⟨_, contributions, _, heq, hfields, -⟩ := compileSelection_gives.1 h
  cases heq
  obtain ⟨before, after, rfl⟩ := List.append_of_mem hf
  obtain ⟨first, m₁, second, hbefore, hafter, -⟩ := compileFields_append_gives.1 hfields
  obtain ⟨c, m₂, others, hc, -, -⟩ := compileFields_cons_gives.1 hafter
  obtain ⟨hd, -⟩ | ⟨-, compiled, hc, -⟩ := contribute_gives.1 hc
  · rw [hdefers] at hd
    cases hd
  · have honward := (drawn_of_compileFields
      (fun f hf => hdrawn f (List.mem_append_left _ hf)) hbefore).1
    exact ⟨m₁, compiled, m₂, honward.next, hc⟩

theorem free_of_dangling (hd : field.definition.Regular I.services next)
    (hrecord : field.record? given = some record) (hn : next ≤ n) (hholds : scope.Holds next root c)
    {resolver : Expr}
    (hkept : ∀ p ∈ field.definition.resolve.freeParameters, p ≠ field.definition.context →
      p ∈ resolver.freeParameters)
    (hdangling : dangling? (place field.definition context
        ((bound field record n).map Prod.fst) resolver) scope
      ((bound field record n).map Prod.fst) = none) :
    ∀ p ∈ field.definition.resolve.freeParameters, p = field.definition.context
      ∨ (field.definition.arguments ≠ [] ∧ p = field.definition.argumentsParameter) ∨ p = root := by
  intro p hp
  have hid := hd.free p hp
  by_cases hcontext : p = field.definition.context
  · exact .inl hcontext
  by_cases hargument : field.definition.arguments ≠ [] ∧ p = field.definition.argumentsParameter
  · exact .inr (.inl hargument)
  have hplace : p ∈ (place field.definition context
      ((bound field record n).map Prod.fst) resolver).freeParameters := by
    refine mem_freeParameters_place (hkept p hp hcontext) hcontext (fun hsome heq => ?_) context
    rw [map_fst_bound, Option.isSome_map] at hsome
    exact hargument ⟨(isSome_of_record? hrecord).1 hsome, heq⟩
  rcases dangling?_eq_none_iff.1 hdangling p hplace with hmem | hmem
  · exact .inr (.inr (hholds.old p hmem hid))
  · obtain ⟨b, hb, rfl⟩ := Option.map_eq_some_iff.1 hmem
    have := id_eq_of_bound b hb
    omega

section Built

variable (hI : I.Regular) (hvalues : I.values = compiler.values) {e : Expanded}
  (hreg : e.Every (SelectedField.Sound I.services next))

include hI hvalues hreg

variable {c : Parameter}

/-- A field that was built from its resolver can be compiled if the fields below it can. -/
theorem compiles_of_built
    (hdepth : ∀ limit, compiler.settings.maxDepth = some limit → scope.depth ≤ limit)
    (hknown : e.field.Known) (hrecord : e.field.record? compiler.values = some record)
    (hfree : ∀ p ∈ e.field.definition.resolve.freeParameters, p = e.field.definition.context
      ∨ (e.field.definition.arguments ≠ [] ∧ p = e.field.definition.argumentsParameter) ∨ p = root)
    (hn : next ≤ n) (hm : m.next = n + record.toList.length) (hholds : scope.Holds next root c)
    (h : Gives (compileResolved e.field (compiler.selectOf e)
      ⟨source, false, bound e.field record n⟩ scope) m compiled m')
    (hbelow : ∀ fields, e.selection = .selects fields → ∀ f ∈ fields,
      defers scope.mode f.field = false → ∀ {context : Expr} {c' : Parameter} {inner : Scope}
        {m₁ m₂ : Memory} {below : Compiled},
      Gives (compiler.compileExpanded context inner f) m₁ below m₂ →
      objectTy? e.field.definition.shape source.ty = some context.ty → context.ReadsOf c' →
      inner.Holds next root c' → inner.mode = scope.mode → inner.depth = scope.depth + 1 →
      (scope.contextChanged = true → inner.contextChanged = true) → next ≤ m₁.next →
      f.Compiles (Checked compiler I root) scope.mode inner.depth) :
    e.Compiles (Checked compiler I root) scope.mode scope.depth := by
  obtain ⟨selections, hfield⟩ := hreg.holds
  have hbound : ∀ b ∈ bound e.field record n, b.1.id < m.next := by
    intro b hb
    have := id_bound e.field record n b hb
    omega
  have hanatomy : e.field.definition.shape ≠ .leaf → ∃ a, Anatomy.Of I e.field (compiler.selectOf e)
      (bound e.field record n) source scope m m' compiled a := fun hshape =>
    anatomy_of_compileResolved hI hfield.definition hshape (hvalues ▸ hrecord) hbound h
  refine .field
    { depth := hdepth
      known := hknown
      record := hrecord ▸ rfl
      free := hfree
      window := fun hshape => ?_ } (fun hshape => ?_) fun hshape fields hsel f hf hdefers => ?_
  · obtain ⟨a, ha⟩ := hanatomy hshape
    rw [ha.window]
    rfl
  · obtain ⟨a, ha⟩ := hanatomy hshape
    obtain ⟨fields, hsel, -⟩ := ha.exists_selects
    exact ⟨fields, hsel⟩
  · obtain ⟨a, ha⟩ := hanatomy hshape
    obtain ⟨_, hsel', hselect⟩ := ha.exists_selects
    obtain rfl := ExpandedSelection.selects.inj (hsel.symm.trans hsel')
    have hold := ha.element_old
    have hnew := ha.element_new
    obtain ⟨m₁, below, m₂, hm₁, hgives⟩ := gives_of_compileSelection
      (fun f hf => drawn_of_compileExpanded ((hreg.of_selects hsel hf).imp fun _ _ h => h.draws))
        hselect
      hf (ha.mode.symm ▸ hdefers)
    have hinner : (a.scope.field f.field.responseKey).Holds next root a.element :=
      hholds.bind (by omega) (le_id_bound hn) ha.parameters
    have hcompiles := hbelow fields hsel f hf hdefers hgives
      (by rw [View.ty_context ha.element_ty]; exact ha.objectTy) (View.readsOf_context _ _ _) hinner
      ha.mode (congrArg (· + 1) ha.depth) ha.changed (by omega)
    exact ha.depth ▸ hcompiles

/-- **What a context that is no record tells.**  A field that was compiled there, in either pass,
can be compiled. -/
theorem compiles_of_bare (hbare : context.ty.Bare) (hreads : context.ReadsOf c)
    (hholds : scope.Holds next root c) (hnext : next ≤ m.next)
    (h : Gives (compiler.compileExpanded context scope e) m compiled m') :
    e.Compiles (Checked compiler I root) scope.mode scope.depth := by
  induction e using Expanded.induct generalizing context c scope m m' compiled with
  | field e ih =>
    obtain ⟨compiled', hc, -⟩ := (compileExpanded_iff hreg hbare hreads hholds.mem).1 h
    obtain ⟨hdepth, resolved, m₁, hresolve, hc⟩ := compileField_gives.1 hc
    have hown_ty : (ownContext (ownOf m.next e.origin) context).ty.Bare :=
      ownContext_ty (R := Bare) (fun _ => rfl) hbare
    obtain ⟨hknown, record, hrecord, rfl, hdangling, rfl⟩ := (resolve_iff hown_ty).1 hresolve
    obtain ⟨selections, hfield⟩ := hreg.holds
    have hnumber : next ≤ (ownMemory m (ownOf m.next e.origin)).next :=
      Nat.le_trans hnext (Nat.le_add_right _ _)
    obtain ⟨c', hholds'⟩ := holds_ownScope hholds fun q (hq : q ∈ ownOf m.next e.origin) =>
      id_ownOf q hq ▸ hnext
    have hfree := free_of_dangling hfield.definition hrecord hnumber hholds'
      (fun _ hp _ => hp) hdangling
    rw [← mode_ownScope scope (ownOf m.next e.origin),
      ← depth_ownScope scope (ownOf m.next e.origin)]
    refine compiles_of_built hI hvalues hreg hdepth hknown hrecord hfree hnumber rfl hholds' hc
      fun fields hsel f hf hdefers => ?_
    intro context' c'' inner m₁ m₂ below hgives hty hreads' hholds'' hmode' _ _ hm₁
    rw [← hmode']
    refine ih fields hsel f hf (hreg.of_selects hsel hf) ?_ hreads' hholds'' hm₁ hgives
    exact under_objectTy? (outputType?_of_selects hreg hsel (List.ne_nil_of_mem hf))
      (under_place (fun _ => rfl) hown_ty hfield.definition.context_ty
        (ty_bound e.field record _) _) hty

/-- **What a service field over fetched data tells.**  A field that was compiled there can be
compiled, if it does not resolve to a record. -/
theorem compiles_of_service (hservice : e.field.definition.requiresService = true)
    (hshape : context.ty.shape?.isSome = true) (hchanged : scope.contextChanged = true)
    (hholds : scope.Holds next root c) (hnext : next ≤ m.next)
    (hunder : ∀ {resolver : Expr}, substituteDependencies e.field.definition
        (m.fetched.get scope.path) context scope.path = .ok resolver →
      e.field.definition.outputType?.isSome = true → ∀ record, Under IsObject
        (place e.field.definition context ((bound e.field record m.next).map Prod.fst) resolver).ty
        e.field.definition.resolve.ty)
    (h : Gives (compiler.compileExpanded context scope e) m compiled m') :
    (∃ resolver, substituteDependencies e.field.definition (m.fetched.get scope.path) context
        scope.path = .ok resolver)
      ∧ e.Compiles (Checked compiler I root) scope.mode scope.depth := by
  obtain ⟨hdepth, resolved, m₁, hresolve, hc⟩ :=
    compileField_gives.1 ((compileExpanded_record hshape).1 h)
  obtain ⟨hknown, record, resolver, hrecord, hok, rfl, hdangling, rfl⟩ :=
    (resolve_service hservice hshape hchanged).1 hresolve
  refine ⟨⟨resolver, hok⟩, ?_⟩
  obtain ⟨selections, hfield⟩ := hreg.holds
  obtain ⟨chains, hchains, hsubstitute, -⟩ := substituteDependencies_eq_ok hok
  have hfree := free_of_dangling hfield.definition hrecord hnext hholds (fun p hp hne =>
    mem_freeParameters_substituteChains (absurd · hne) (fun d hd =>
      ⟨chainOn_of_dependencies hchains d hd, root_of_dependencies hchains d hd⟩)
      hsubstitute hp) hdangling
  refine compiles_of_built hI hvalues hreg hdepth hknown hrecord hfree hnext rfl hholds hc
    fun fields hsel f hf _ => ?_
  intro context' c' inner m₁ m₂ below hgives hty hreads' hholds' hmode' _ _ hm₁
  have hout := outputType?_of_selects hreg hsel (List.ne_nil_of_mem hf)
  rw [← hmode']
  exact compiles_of_bare hI hvalues (hreg.of_selects hsel hf)
    (under_objectTy? hout (hunder hok hout record) hty).bare hreads' hholds' hm₁ hgives

end Built

/-! ## What the full pass over fetched data finds out -/

/-- Wherever the full pass has compiled the field over fetched data, the field can be compiled, if
that could be told of plain fields before. -/
def Recompiles (compiler : Compiler) (I : Interpretation) (next : Nat) (root : Parameter)
    (e : Expanded) : Prop :=
  ∀ {context : Expr} {c : Parameter} {scope : Scope} {m m' : Memory} {compiled : Compiled},
    Gives (compiler.compileExpanded context scope e) m compiled m' → scope.mode = .full →
    scope.contextChanged = true → context.ReadsOf c → scope.Holds next root c → next ≤ m.next →
    (e.field.definition.requiresService = false →
      e.Compiles (SelectedField.Checked compiler I root) .dataOnly scope.depth) →
    e.Compiles (SelectedField.Checked compiler I root) .full scope.depth

theorem compiles_of_materialized (hI : I.Regular)
    (hreg : e.Every (Sound I.services next))
    (hbelow : ∀ fields, e.selection = .selects fields → ∀ f ∈ fields,
      Recompiles compiler I next root f)
    (hbefore : e.Compiles (Checked compiler I root) .dataOnly scope.depth)
    (hmode : scope.mode = .full) (hholds : scope.Holds next root c) (hnext : next ≤ m.next)
    (h : Gives (compileResolved e.field (compiler.selectOf e) ⟨source, true, none⟩ scope) m compiled
      m') : e.Compiles (Checked compiler I root) .full scope.depth := by
  obtain ⟨selections, hfield⟩ := hreg.holds
  obtain ⟨hown, hselects, -⟩ := id hbefore
  refine .field hown hselects fun hshape fields hsel f hf _ => ?_
  obtain ⟨ty, _, selection, -, rfl, hselect, -⟩ :=
    (compileResolved_materialized hshape (hI.numberedBy hfield.definition) hmode).1 h
  rw [selectOf, hsel] at hselect
  obtain ⟨m₁, below, m₂, hm₁, hgives⟩ := gives_of_compileSelection
    (fun f hf => drawn_of_compileExpanded ((hreg.of_selects hsel hf).imp fun _ _ h => h.draws))
      hselect
    hf (by rw [show (objectScope scope _ _).mode = .full from hmode]; rfl)
  have hnone : ∀ p ∈ ([] : List Parameter), next ≤ p.id := List.forall_mem_nil _
  have hnew : next ≤ (placeholder e.field ty m.next).id := hnext
  exact hbelow fields hsel f hf hgives hmode (Bool.or_true _) .parameter
    (hholds.bind hnew hnone rfl)
    (Nat.le_trans (Nat.le_succ_of_le hnext) hm₁) (hbefore.of_selects hshape hsel hf)

/-- **What a context of fetched data tells.** -/
theorem recompiles (hI : I.Regular) (hvalues : I.values = compiler.values)
    (hreg : e.Every (Sound I.services next))
    (hapart : e.Every fun field _ => field.definition.TypedApart) :
    Recompiles compiler I next root e := by
  induction e using Expanded.induct with
  | field e ih =>
    intro context c scope m m' compiled h hmode hchanged hreads hholds hnext hbefore
    have hbelow : ∀ fields, e.selection = .selects fields → ∀ f ∈ fields,
        Recompiles compiler I next root f := fun fields hsel f hf =>
      ih fields hsel f hf (hreg.of_selects hsel hf) (hapart.of_selects hsel hf)
    cases hshape : context.ty.shape?.isSome with
    | false =>
      have hbare : context.ty.Bare := Option.isNone_iff_eq_none.1 (by simpa using hshape)
      exact hmode ▸ compiles_of_bare hI hvalues hreg hbare hreads hholds hnext h
    | true =>
      obtain ⟨selections, hfield⟩ := hreg.holds
      cases hservice : e.field.definition.requiresService with
      | true =>
        rw [← hmode]
        refine (compiles_of_service hI hvalues hreg hservice hshape hchanged hholds hnext
          (fun {resolver} hok hout record => ?_) h).2
        -- The service field does not resolve to a record.
        obtain ⟨chains, hchains, hsubstitute, hleft⟩ := substituteDependencies_eq_ok hok
        obtain ⟨_, happly⟩ := hapart.holds
        rw [ty_place _ _ (ty_bound e.field record m.next),
          replace_of_not_mem (not_mem_freeParameters_of_dependencies hleft)]
        exact under_substituteChains hfield.definition.takes_context.other (fun d hd =>
          ⟨chainOn_of_dependencies hchains d hd, root_of_dependencies hchains d hd⟩)
          hsubstitute (happly hservice hout)
      | false =>
        obtain ⟨hdepth, resolved, m₁, hresolve, hc⟩ :=
          compileField_gives.1 ((compileExpanded_record hshape).1 h)
        obtain ⟨source, -, rfl, rfl⟩ | ⟨-, hbuild⟩ := resolve_gives.1 hresolve
        · exact compiles_of_materialized hI hreg hbelow (hbefore hservice) hmode hholds hnext hc
        · obtain ⟨arguments, resolver, hbind, hresolver, rfl, hdangling⟩ := build_gives.1 hbuild
          obtain ⟨hknown, record, hrecord, rfl, rfl⟩ := bindArguments_gives_iff.1 hbind
          have hreadsFetched : readsFetched e.field context scope = false := by
            rw [readsFetched, hservice, Bool.and_false, Bool.false_and]
          obtain ⟨-, hresolver⟩ := resolverIn_gives.1 hresolver
          rw [hreadsFetched, if_neg Bool.false_ne_true] at hresolver
          subst hresolver
          have hfree := free_of_dangling hfield.definition hrecord hnext hholds (fun _ hp _ => hp)
            hdangling
          rw [← hmode]
          refine compiles_of_built hI hvalues hreg hdepth hknown hrecord hfree hnext rfl hholds hc
            fun fields hsel f hf _ => ?_
          intro context' c' inner m₁ m₂ below hgives hty hreads' hholds' hmode'
            hdepth' hchanged' hm₁
          have hshape' : e.field.definition.shape ≠ .leaf := by
            intro hleaf
            rw [hleaf] at hty
            cases hty
          rw [hmode]
          refine hbelow fields hsel f hf hgives (hmode'.trans hmode)
            (hchanged' hchanged) hreads' hholds' hm₁ fun hplain => ?_
          exact hdepth' ▸ (hbefore hservice).of_selects hshape' hsel hf hplain

/-! ## Compiling in full -/

theorem exists_objectTy? {definition : FieldDefinition} (hshape : definition.shape ≠ .leaf) {a : Ty}
    (h : Under IsObject a definition.resolve.ty) :
    ∃ ty, objectTy? definition.shape a = some ty := by
  unfold FieldDefinition.shape at hshape ⊢
  cases hresolve : definition.resolve.ty with
  | object name =>
    rw [hresolve] at h
    obtain ⟨name', rfl⟩ : a.IsObject := h
    exact ⟨_, rfl⟩
  | record fields =>
    rw [hresolve] at h
    cases a with
    | record fields' => exact ⟨_, rfl⟩
    | _ => cases h
  | list inner | map inner =>
    rw [hresolve] at h hshape
    obtain ⟨inner', hinner', -⟩ := h
    cases hcomposite : inner.isComposite with
    | true => exact ⟨inner', by simp [hcomposite, objectTy?, hinner']⟩
    | false => simp [hcomposite] at hshape
  | _ =>
    rw [hresolve] at hshape
    exact absurd rfl hshape

theorem exists_gives_fetchAll (dependencies : List (FieldPath × String × Expr))
    (fields : SelectionMap)
    (m : Memory) : ∃ fields' m', Gives (fetchAll dependencies fields) m fields' m' := by
  induction dependencies generalizing fields m with
  | nil => exact ⟨fields, m, fetchAll_nil_gives.2 ⟨rfl, rfl⟩⟩
  | cons d rest ih =>
    obtain ⟨path, name, e⟩ := d
    obtain ⟨fields', m', h⟩ := ih (fields.insertFetched name e).2
      { m with fetched := m.fetched.insert path name (fields.insertFetched name e).1 }
    exact ⟨fields', m', fetchAll_cons_gives.2 h⟩

/-- A selection can be compiled if each of its fields contributes something.  What holds of the
memory before a field may be needed for it. -/
theorem exists_gives_compileSelection {K : Memory → Prop} (hm : K m)
    (hfields : ∀ f ∈ fields, ∀ m, K m → ∃ contribution m',
      Gives (compiler.contribute context scope f) m contribution m' ∧ K m') :
    ∃ selection m', Gives (compiler.compileSelection context scope (.selects fields))
      m selection m' := by
  have hcontributions : ∃ contributions m',
      Gives (compiler.compileFields context scope fields) m contributions m' := by
    induction fields generalizing m with
    | nil => exact ⟨[], m, compileFields_nil_gives.2 ⟨rfl, rfl⟩⟩
    | cons f rest ih =>
      obtain ⟨hf, hrest⟩ := List.forall_mem_cons.1 hfields
      obtain ⟨c, m₁, hc, hm₁⟩ := hf m hm
      obtain ⟨others, m', hothers⟩ := ih hm₁ hrest
      exact ⟨c :: others, m', compileFields_cons_gives.2 ⟨c, m₁, others, hc, hothers, rfl⟩⟩
  obtain ⟨contributions, m₁, hcontributions⟩ := hcontributions
  obtain ⟨merged, m', hfetch⟩ := exists_gives_fetchAll
    (contributions.flatMap Contribution.dependencies)
    (contributions.foldl CompiledSelection.add {}).fields m₁
  exact ⟨_, m', compileSelection_gives.2 ⟨fields, contributions, m₁, rfl, hcontributions,
    assemble_gives.2 ⟨merged, hfetch, rfl⟩⟩⟩

theorem exists_gives_contribute (hmode : scope.mode = .full) (h : ∃ compiled m',
      Gives (compiler.compileExpanded context (scope.field f.field.responseKey) f) m compiled m') :
    ∃ contribution m', Gives (compiler.contribute context scope f) m contribution m' := by
  obtain ⟨compiled, m', h⟩ := h
  have hdefers : defers scope.mode f.field = false := by rw [hmode]; rfl
  exact ⟨_, m', contribute_gives.2 (.inr ⟨hdefers, compiled, h, rfl⟩)⟩

theorem exists_gives_hooksOf (hI : I.Regular) (hd : field.definition.Regular I.services next)
    (hwindow : (I.window? field).isSome = true) (hrecord : field.record? I.values = some record)
    (source : Expr) (pre : PreSelection) (m : Memory) :
    ∃ pre' m', Gives (hooksOf field (hookContext scope ⟨source, false, bound field record n⟩) pre)
      m pre' m' := by
  unfold hooksOf
  unfold Interpretation.window? at hwindow
  split
  · rename_i hlist
    rw [if_pos hlist, hrecord] at hwindow
    exact (hI.window (hd.extensions hlist)).accepts rfl (sees_bound source) hwindow pre m
  · exact ⟨pre, m, gives_pure.2 ⟨rfl, rfl⟩⟩

section Full

variable (hI : I.Regular) (hvalues : I.values = compiler.values) {e : Expanded}
  (hreg : e.Every (SelectedField.Sound I.services next))

include hI hvalues hreg

theorem exists_gives_compileResolved (hmode : scope.mode = .full)
    (hwindow : e.field.definition.shape ≠ .leaf → (I.window? e.field).isSome = true)
    (hselects : e.field.definition.shape ≠ .leaf → ∃ fields, e.selection = .selects fields)
    (hrecord : e.field.record? compiler.values = some record)
    (hm : m.next = n + record.toList.length)
    (hunder : Under IsObject source.ty e.field.definition.resolve.ty)
    (hbelow : e.field.definition.shape ≠ .leaf → ∀ fields, e.selection = .selects fields →
      ∀ f ∈ fields, ∀ {context : Expr} {c : Parameter} {inner : Scope}, inner.mode = .full →
      inner.depth = scope.depth + 1 → context.ty.IsObject → context.ReadsOf c →
      c ∈ inner.parameters →
      (∀ p ∈ scope.parameters, p ∈ inner.parameters) → ∀ m, ∃ compiled m',
        Gives (compiler.compileExpanded context inner f) m compiled m') :
    ∃ compiled m', Gives (compileResolved e.field (compiler.selectOf e)
      ⟨source, false, bound e.field record n⟩ scope) m compiled m' := by
  obtain ⟨selections, hfield⟩ := hreg.holds
  by_cases hshape : e.field.definition.shape = .leaf
  · exact ⟨_, m, (compileResolved_leaf hshape).2 ⟨rfl, rfl⟩⟩
  obtain ⟨fields, hsel⟩ := hselects hshape
  obtain ⟨ty, hty⟩ := exists_objectTy? hshape hunder
  have hbound : ∀ b ∈ bound e.field record n, b.1.id < m.next + 1 := by
    intro b hb
    have := id_bound e.field record n b hb
    omega
  have hhooks : ∃ pre m₁, Gives (hooksOf e.field
      (hookContext (withArguments scope (bound e.field record n)).2
        ⟨source, false, bound e.field record n⟩)
      ⟨source, placeholder e.field ty m.next, .parameter (placeholder e.field ty m.next)⟩)
      { m with next := m.next + 1 } pre m₁ :=
    exists_gives_hooksOf hI hfield.definition (hwindow hshape) (hvalues ▸ hrecord) _ _ _
  obtain ⟨pre, m₁, hpre⟩ := hhooks
  obtain ⟨_, cs, k, -, rfl, -⟩ :=
    arranged_of_hooksOf hI hfield.definition (hvalues ▸ hrecord) hty rfl hbound hpre
  have hmode' : (withArguments scope (bound e.field record n)).2.mode = .full :=
    (mode_withArguments _ _).trans hmode
  have hselect : ∃ selection m', Gives (compiler.selectOf e
      ((View.of (I.key? e.field)).context ty
        (elementOf (I.key? e.field) (placeholder e.field ty m.next) k))
      (elementScope (withArguments scope (bound e.field record n)).2
        ⟨source, false, bound e.field record n⟩ (placeholder e.field ty m.next)
        ⟨source.calls cs, elementOf (I.key? e.field) (placeholder e.field ty m.next) k,
          (View.of (I.key? e.field)).context ty
            (elementOf (I.key? e.field) (placeholder e.field ty m.next) k)⟩)) m₁ selection m' := by
    rw [selectOf, hsel]
    refine exists_gives_compileSelection (K := fun _ => True) trivial fun f hf m' _ => ?_
    have hobject : ty.IsObject :=
      under_objectTy? (outputType?_of_selects hreg hsel (List.ne_nil_of_mem hf)) hunder hty
    suffices h : ∃ contribution m'', Gives (compiler.contribute _ _ f) m' contribution m'' by
      obtain ⟨c, m'', hc⟩ := h
      exact ⟨c, m'', hc, trivial⟩
    refine exists_gives_contribute (by exact hmode') ?_
    refine hbelow hshape fields hsel f hf (by exact hmode') ?_ ?_ (View.readsOf_context _ _ _)
      List.mem_cons_self (fun p hp => List.mem_cons_of_mem _ ?_) m'
    · cases record <;> rfl
    · have helement : (elementOf (I.key? e.field) (placeholder e.field ty m.next) k).ty
          = (View.of (I.key? e.field)).elementTy ty := elementTy_elementOf _ _ k
      rw [View.ty_context helement]
      exact hobject
    · cases record with
      | none => exact hp
      | some values => exact List.mem_cons_of_mem _ hp
  obtain ⟨selection, m', hselect⟩ := hselect
  exact ⟨_, m', (compileResolved_gives hshape (hI.numberedBy hfield.definition)).2
    ⟨ty, _, _, m₁, selection, _, hty, rfl, hpre, hselect, readFields_full hmode', rfl⟩⟩

end Full

/-- A field of which all is well is compiled in a context of an object type, if what it resolves to
can be. -/
theorem exists_gives_compileExpanded (hreg : e.Every (Sound I.services next))
    (hobject : context.ty.IsObject) (hreads : context.ReadsOf c) (hc : c ∈ scope.parameters)
    (hroot : root ∈ scope.parameters)
    (hown : Checked compiler I root scope.depth e.field)
    (hresolved : ∀ {record : Option (List (String × Value))} {n : Nat} {source : Expr}
      {inner : Scope}
      {m : Memory}, e.field.record? compiler.values = some record →
        m.next = n + record.toList.length →
      Under IsObject source.ty e.field.definition.resolve.ty → inner.mode = scope.mode →
      inner.depth = scope.depth → (∀ p ∈ scope.parameters, p ∈ inner.parameters) → ∃ compiled m',
        Gives (compileResolved e.field (compiler.selectOf e)
          ⟨source, false, bound e.field record n⟩ inner) m compiled m') :
    ∃ compiled m', Gives (compiler.compileExpanded context scope e) m compiled m' := by
  obtain ⟨selections, hfield⟩ := hreg.holds
  obtain ⟨record, hrecord⟩ := Option.isSome_iff_exists.1 hown.record
  obtain ⟨c', hreads', hc'⟩ : ∃ c', (ownContext (ownOf m.next e.origin) context).ReadsOf c'
      ∧ c' ∈ (ownScope scope (ownOf m.next e.origin)).parameters := by
    cases ownOf m.next e.origin with
    | none => exact ⟨c, hreads, hc⟩
    | some q => exact ⟨q, .parameter, List.mem_cons_self⟩
  have hscope :
      ∀ p ∈ scope.parameters, p ∈ (ownScope scope (ownOf m.next e.origin)).parameters := by
    intro p hp
    cases ownOf m.next e.origin with
    | none => exact hp
    | some q => exact List.mem_cons_of_mem _ hp
  have hmode' : (ownScope scope (ownOf m.next e.origin)).mode = scope.mode := by
    cases ownOf m.next e.origin <;> rfl
  have hdepth' : (ownScope scope (ownOf m.next e.origin)).depth = scope.depth := by
    cases ownOf m.next e.origin <;> rfl
  have hobject' : (ownContext (ownOf m.next e.origin) context).ty.IsObject :=
    ownContext_ty (R := IsObject) (fun name => ⟨name, rfl⟩) hobject
  let number := (ownMemory m (ownOf m.next e.origin)).next
  -- Nothing dangles in the place of the resolver.
  have hdangling : dangling? (place e.field.definition
        (ownContext (ownOf m.next e.origin) context)
        ((bound e.field record number).map Prod.fst) e.field.definition.resolve)
      (ownScope scope (ownOf m.next e.origin)) ((bound e.field record number).map Prod.fst)
        = none := by
    refine dangling?_eq_none_iff.2 fun p hp => ?_
    rcases free_of_place hp with hp | hp | ⟨hp, hcontext, hargument⟩
    · exact .inl (hreads'.mem_freeParameters_iff.1 hp ▸ hc')
    · exact .inr hp
    · exact .inl (hscope p (hown.mem_of_free hrecord hroot hp hcontext (fun hsome => hargument (by
        rw [map_fst_bound, Option.isSome_map]
        exact hsome))))
  obtain ⟨compiled, m', hgives⟩ := hresolved hrecord
    (m := { m with next := number + record.toList.length }) rfl
    (under_place (fun name => ⟨name, rfl⟩) hobject' hfield.definition.context_ty
      (ty_bound e.field record number) _) hmode' hdepth' hscope
  refine ⟨_, m', (compileExpanded_iff hreg hobject.bare hreads hc).2 ⟨compiled,
    compileField_gives.2 ⟨?_, _, _, (resolve_iff hobject'.bare).2 ⟨hown.known, record, hrecord,
      rfl, hdangling, rfl⟩, hgives⟩, rfl⟩⟩
  rw [hdepth']
  exact hown.depth

/-- **Compiling in full.**  A field of which all is well is compiled in a context of an object
type. -/
theorem exists_gives_of_compiles (hI : I.Regular) (hvalues : I.values = compiler.values)
    (hreg : e.Every (Sound I.services next)) (hmode : scope.mode = .full)
    (hobject : context.ty.IsObject) (hreads : context.ReadsOf c) (hc : c ∈ scope.parameters)
    (hroot : root ∈ scope.parameters)
    (h : e.Compiles (Checked compiler I root) .full scope.depth) (m : Memory) :
    ∃ compiled m', Gives (compiler.compileExpanded context scope e) m compiled m' := by
  induction e using Expanded.induct generalizing context c scope m with
  | field e ih =>
    obtain ⟨hown, hselects, hbelow⟩ := h
    refine exists_gives_compileExpanded hreg hobject hreads hc hroot hown ?_
    intro record n source inner m₁ hrecord hm₁ hunder hmode' hdepth' hscope
    exact exists_gives_compileResolved hI hvalues hreg
      (hmode'.trans hmode) hown.window hselects hrecord hm₁ hunder
      (fun hshape fields hsel f hf {_ _ _} hmode'' hdepth'' hobject'' hreads'' hc'' hinner m =>
        ih fields hsel f hf (hreg.of_selects hsel hf) hmode'' hobject'' hreads'' hc''
          (hinner root (hscope root hroot))
          (hdepth''.trans (congrArg (· + 1) hdepth') ▸ hbelow hshape fields hsel f hf rfl) m)

end Compiler
end QueryProjection
