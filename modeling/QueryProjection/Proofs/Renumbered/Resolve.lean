import QueryProjection.Proofs.Compile.Closed
import QueryProjection.Proofs.Expr.Dependency
import QueryProjection.Proofs.Renumbered.Lockstep

/-!
# Resolving a field in two places

A field is compiled in its context, and once more against a parameter that is to be replaced by the
context afterwards.  Both compilations give the same up to numbers, and up to this replacement.

* `FieldDefinition.Numbered` is what has to be known about the numbers in a field of the schema;
* `FieldDefinition.Settled` says that the type of a field does not depend on its context.  Otherwise
  the parameter, which has the type that a fragment says, would make a difference;
* `Scope.Renumbered` compares the scopes, and `Placed` the contexts, of the two compilations;
* `Resolve.matches_resolve` is what follows for what the field resolves to.
-/

namespace QueryProjection

open Expr List

/-! ## Assumptions -/

/-- What is assumed of a field of the schema.  Its numbers are below those that are drawn later.
The parameter of its arguments is a record and not the context of the schema, and the resolver binds
the context of the schema only where that is the field's own context.  Its extensions are
uniform. -/
structure FieldDefinition.Numbered (schema : Schema) (definition : FieldDefinition) : Prop where
  resolve : ∀ i ∈ definition.resolve.ids, i < schema.next
  context : definition.context.id < schema.next
  arguments : definition.argumentsParameter.id < schema.next
  arguments_ty : ∃ shape, definition.argumentsParameter.ty = .record shape
  apart : definition.argumentsParameter ≠ schema.context
  binds : schema.context ∈ definition.resolve.binders → definition.context = schema.context
  extensions : definition.Hooks Extension.Uniform

/-- The type of the field is the same whatever stands for its context. -/
def FieldDefinition.Settled (definition : FieldDefinition) : Prop :=
  ∀ target, (definition.resolve.replace (.identity definition.context) target).ty
    = definition.resolve.ty

variable {e : Expr} {base : Nat}

theorem Expr.mem_ids_of_mem_binders {p : Parameter} (h : p ∈ e.binders) : p.id ∈ e.ids := by
  induction e using induct_parts with
  | parameter => exact absurd h not_mem_nil
  | node e he ih =>
    obtain ⟨part, hpart, h⟩ := mem_binders.1 h
    exact (mem_ids he).2 (.inr ⟨part, hpart, h.imp (fun h => mem_map_of_mem h) (ih part hpart)⟩)

/-! ## Scopes and contexts -/

/-- The scopes are the same up to numbers.  The first may bind more parameters, but none that stands
for something.  What the second binds is the context of the schema or was drawn. -/
structure Scope.Renumbered (schema : Schema) {base : Nat} (w : Numbering base)
    (scope scope' : Scope) : Prop where
  mode : scope'.mode = scope.mode
  contextChanged : scope'.contextChanged = scope.contextChanged
  isRoot : scope'.isRoot = scope.isRoot
  path : scope'.path = scope.path
  depth : scope'.depth = scope.depth
  mem_iff : ∀ {p p'}, p.Renumbered w p' → (p' ∈ scope'.parameters ↔ p ∈ scope.parameters)
  lt : ∀ p ∈ scope.parameters, p.id < w.next
  lt' : ∀ p ∈ scope'.parameters, p.id < w.next'
  drawn : ∀ p ∈ scope'.parameters, p = schema.context ∨ schema.next ≤ p.id

namespace Scope.Renumbered

variable {schema : Schema} {base : Nat} {w w' : Numbering base} {scope scope' : Scope}
  {p : Parameter} (h : scope.Renumbered schema w scope')

include h

theorem mono (hw : w ≤ w') : scope.Renumbered schema w' scope' :=
  { h with
    mem_iff := fun {p p'} hp => by
      rcases hw.drawn hp.id with hpairs | ⟨hnext, hnext'⟩
      · exact h.mem_iff ⟨hpairs, hp.name, hp.ty⟩
      · -- Neither scope knows a number that was drawn later.
        exact iff_of_false (fun hmem => Nat.not_lt_of_le hnext' (h.lt' p' hmem))
          (fun hmem => Nat.not_lt_of_le hnext (h.lt p hmem))
    lt := fun p hp => Nat.lt_of_lt_of_le (h.lt p hp) hw.next
    lt' := fun p hp => Nat.lt_of_lt_of_le (h.lt' p hp) hw.next' }

theorem bind {p' : Parameter} (hp : p.Renumbered w p') (hdrawn : schema.next ≤ p'.id) :
    (scope.bind p).Renumbered schema w (scope'.bind p') :=
  { h with
    mem_iff := fun hq => by
      rw [Scope.bind, Scope.bind, mem_cons, mem_cons, hq.eq_iff hp, h.mem_iff hq]
    lt := forall_mem_cons.2 ⟨w.left_lt hp.id, h.lt⟩
    lt' := forall_mem_cons.2 ⟨w.right_lt hp.id, h.lt'⟩
    drawn := forall_mem_cons.2 ⟨.inr hdrawn, h.drawn⟩ }

/-- The first scope may bind a parameter that stands for nothing. -/
theorem bindLeft {own : Parameter} (hown : ∀ i, ¬ w.pairs own.id i) (hlt : own.id < w.next) :
    (scope.bind own).Renumbered schema w scope' :=
  { h with
    mem_iff := fun hp => by
      rw [h.mem_iff hp, Scope.bind, mem_cons]
      exact (or_iff_right fun heq => hown _ (heq ▸ hp.id)).symm
    lt := forall_mem_cons.2 ⟨hlt, h.lt⟩ }

theorem field (key : String) : (scope.field key).Renumbered schema w (scope'.field key) :=
  { h with
    isRoot := rfl
    path := congrArg (FieldPath.child · key) h.path
    depth := congrArg (· + 1) h.depth }

theorem changing {changed changed' : Bool} (hchanged : changed' = changed) :
    { scope with contextChanged := changed }.Renumbered schema w
      { scope' with contextChanged := changed' } :=
  { h with contextChanged := hchanged }

/-- A number that stands for nothing, and that the scope knows, will never stand for anything. -/
theorem unpaired (hp : p ∈ scope.parameters)
    (hunpaired : ∀ i, ¬ w.pairs p.id i) (hw : w ≤ w') (i : Nat) : ¬ w'.pairs p.id i :=
  fun hi => (hw.drawn hi).elim (hunpaired i) fun hdrawn => Nat.not_lt_of_le hdrawn.1 (h.lt p hp)

end Scope.Renumbered

/-- What is yet to be replaced does not get in the way: the parameters stand for nothing else and
are in scope, and what they will be replaced by reads of a parameter in scope that is not bound in
between. -/
structure Moved.Sound {base : Nat} (w : Numbering base) (scope scope' : Scope)
    (M : Moved) : Prop where
  unpaired : ∀ {p e bound}, M p e bound → ∀ i, ¬ w.pairs p.id i
  inner : ∀ {p e bound}, M p e bound → p ∈ scope.parameters
  reads : ∀ {p e bound}, M p e bound → ∃ q ∈ scope'.parameters, e.ReadsOf q ∧ q ∉ bound

theorem Moved.Sound.mono {schema : Schema} {w w' : Numbering base} {scope scope' : Scope}
    {M : Moved} (hM : M.Sound w scope scope') (hscope : scope.Renumbered schema w scope')
    (hw : w ≤ w') : M.Sound w' scope scope' :=
  ⟨fun hm => hscope.unpaired (hM.inner hm) (hM.unpaired hm) hw, hM.inner, hM.reads⟩

/-- How the contexts of a field are related: they are the same up to numbers, or the first is a
parameter that is to be replaced by the second.  In that case neither is a record, and the type of
the field does not depend on its context. -/
inductive Placed {base : Nat} (w : Numbering base) (scope scope' : Scope)
    (definition : FieldDefinition) : Moved → Expr → Expr → Prop
  | here {context context' : Expr} (h : context.Renumbered w .none [] context') :
      Placed w scope scope' definition .none context context'
  | moved {own q : Parameter} {context : Expr} (settled : definition.Settled)
      (own_ty : own.ty.shape? = none) (context_ty : context.ty.shape? = none)
      (unpaired : ∀ i, ¬ w.pairs own.id i) (inner : own ∈ scope.parameters)
      (mem : q ∈ scope'.parameters)
      (reads : context.ReadsOf q) :
      Placed w scope scope' definition (.to own context) (.parameter own) context

namespace Placed

variable {schema : Schema} {base : Nat} {w w' : Numbering base} {scope scope' : Scope}
  {definition : FieldDefinition} {M : Moved} {context context' : Expr}
  (h : Placed w scope scope' definition M context context')

include h

theorem mono (hscope : scope.Renumbered schema w scope') (hw : w ≤ w') :
    Placed w' scope scope' definition M context context' := by
  cases h with
  | here h => exact .here (h.mono hw)
  | moved settled own_ty context_ty unpaired inner mem reads =>
    exact .moved settled own_ty context_ty (hscope.unpaired inner unpaired hw) inner mem reads

theorem sound : M.Sound w scope scope' := by
  cases h with
  | here => exact ⟨fun h => h.elim, fun h => h.elim, fun h => h.elim⟩
  | @moved own q context settled own_ty context_ty unpaired inner mem reads =>
    refine ⟨?_, ?_, ?_⟩
    · rintro p e bound ⟨rfl, -, -⟩
      exact unpaired
    · rintro p e bound ⟨rfl, -, -⟩
      exact inner
    · rintro p e bound ⟨-, rfl, hbound⟩
      exact ⟨q, mem, reads, hbound q (reads.mem_freeParameters_iff.2 rfl)⟩

theorem isSome_shape? : context'.ty.shape?.isSome = context.ty.shape?.isSome := by
  cases h with
  | here h => rw [h.ty]
  | moved settled own_ty context_ty => rw [context_ty, ty, own_ty]

theorem recordMember? (name : String) :
    Option.Rel (fun m m' => m.Renumbered w .none [] m') (context.recordMember? name)
      (context'.recordMember? name) := by
  cases h with
  | here h => exact h.recordMember? name
  | @moved own q context settled own_ty context_ty =>
    have hnone : ∀ {e : Expr}, e.ty.shape? = none → e.recordMember? name = none := by
      intro e he
      rw [recordMember?, he]
      rfl
    rw [hnone context_ty, hnone (e := .parameter own) own_ty]
    exact .none

end Placed

/-! ## Resolving -/

/-- What a field resolves to is the same up to numbers and what is yet to be replaced. -/
structure Resolved.Renumbered {base : Nat} (w : Numbering base) (M : Moved)
    (r r' : Resolved) : Prop where
  expression : r.expression.Renumbered w M [] r'.expression
  ty : r'.expression.ty = r.expression.ty
  materialized : r'.materialized = r.materialized
  arguments :
    Option.Rel (fun a a' => a.1.Renumbered w a'.1 ∧ a.2 = a'.2 ∧ base ≤ a'.1.id) r.arguments
    r'.arguments

theorem Compile.matches_get {w : Numbering base} {α β : Type} {R : Numbering base → α → β → Prop}
    {f : FetchedKeys → Compile α} {g : FetchedKeys → Compile β}
    (h : ∀ fetched, Matches w R (f fetched) (g fetched)) :
    Matches w R (get >>= fun m => f m.fetched) (get >>= fun m => g m.fetched) := by
  intro m n hmn
  have hm : Gives (get : Compile Memory) m m m := rfl
  have hn : Gives (get : Compile Memory) n n n := rfl
  unfold Gives
  rw [outcome_bind_gives hm, outcome_bind_gives hn, hmn.fetched]
  exact h m.fetched m n hmn

namespace Resolve

open Compile

variable {schema : Schema} {base : Nat} {w w' : Numbering base} {scope scope' : Scope}
  {field : SelectedField} {M : Moved} {context context' : Expr}

theorem matches_bindArguments (w : Numbering base) (field : SelectedField) (given : VariableValues)
    (path : FieldPath) :
    Matches w (fun w' => Option.Rel fun a a' =>
      (a.1.Renumbered w' a'.1 ∧ a.2 = a'.2 ∧ base ≤ a'.1.id)
        ∧ a.1.ty = field.definition.argumentsParameter.ty)
      (bindArguments field given path) (bindArguments field given path) := by
  unfold bindArguments
  dsimp only
  split
  · exact matches_throw _
  · split
    · exact matches_pure .none
    · refine (matches_ofExcept (R := fun _ => Eq) ?_).bind fun w₁ values values' hw₁ hvalues => ?_
      · cases argumentValues field given path field.definition.arguments with
        | error e => exact .error e
        | ok values => exact .ok rfl
      · refine (matches_fresh w₁ _ _).bind_of_gives fun w₂ p p' m m' _ hgives hp =>
          matches_pure (.some ?_)
        obtain ⟨rfl, -⟩ := gives_ofFresh.1 hgives
        exact ⟨⟨hp.1, congrArg Value.object hvalues, Nat.le_trans w₁.base_le_next' hp.2.2⟩, rfl⟩

variable {record record' : Expr} {arguments arguments' : Option Parameter}

theorem rel_substituteChains (hrecord : record.Renumbered w .none [] record')
    (keys : List (String × String)) (path : FieldPath) {chains : Dependencies}
    (hchains : ∀ d ∈ chains, d.2.chain.Renumbered w .none [] d.2.chain) {resolver resolver' : Expr}
    (h : resolver.Renumbered w .none [] resolver') :
    Except.Rel (fun e e' => e.Renumbered w .none [] e')
      (substituteChains keys record path chains resolver)
      (substituteChains keys record' path chains resolver') := by
  induction chains generalizing resolver resolver' with
  | nil => exact .ok h
  | cons d rest ih =>
    obtain ⟨name, dependency⟩ := d
    obtain ⟨hd, hrest⟩ := forall_mem_cons.1 hchains
    have hmember := hrecord.recordMember? ((Assoc.find? name keys).getD name)
    simp only [substituteChains]
    generalize record.recordMember? ((Assoc.find? name keys).getD name) = member,
      record'.recordMember? ((Assoc.find? name keys).getD name) = member' at hmember
    cases hmember with
    | none => exact .error _
    | some hmember => exact ih hrest (h.substituteIn hd hmember)

theorem rel_substituteDependencies (hbase : schema.next ≤ base) {definition : FieldDefinition}
    (hdefinition : definition.Numbered schema) (hrecord : record.Renumbered w .none [] record')
    (keys : List (String × String)) (path : FieldPath) :
    Except.Rel (fun e e' => e.Renumbered w .none [] e')
      (substituteDependencies definition keys record path)
      (substituteDependencies definition keys record' path) := by
  have hcontext : definition.context.Renumbered w definition.context :=
    .known (Nat.lt_of_lt_of_le hdefinition.context hbase)
  have hresolve : definition.resolve.Renumbered w .none [] definition.resolve :=
    renumbered_self w .none [] fun i hi => Nat.lt_of_lt_of_le (hdefinition.resolve i hi) hbase
  unfold substituteDependencies
  dsimp only
  cases hfound : definition.resolve.dependencies (.identity definition.context) path with
  | error e => exact .error e
  | ok chains =>
    have hchains : ∀ d ∈ chains, d.2.chain.Renumbered w .none [] d.2.chain := by
      intro d hd
      have hchain := chainOn_of_dependencies hfound d hd
      rw [root_of_dependencies hfound d hd] at hchain
      exact hchain.renumbered (Nat.lt_of_lt_of_le hdefinition.context hbase) w
    refine (rel_substituteChains hrecord keys path hchains hresolve).bind fun e e' he => ?_
    -- What is left over is the same, too.
    have hleft : Except.Rel (Expr.Dependencies.Renumbered w .none)
        (e.dependencies (.identity definition.context) path)
        (e'.dependencies (.identity definition.context) path) := by
      refine he.collect ?_ path (fun _ h => h.elim) .nil .none .nil
      intro bound bound' p p' hbound hp
      unfold Tracked.tracks
      rw [Bool.eq_iff_iff]
      simp only [Bool.and_eq_true, beq_iff_eq, Bool.not_eq_true', contains_eq_mem,
        decide_eq_false_iff_not, Parameter.Renumbered.mem_iff hbound hp, hcontext.eq_iff hp]
    refine hleft.bind fun found found' hfound => ?_
    cases hfound with
    | nil => exact .ok he
    | @cons d d' _ _ hd _ =>
      obtain ⟨name, _⟩ := d
      obtain ⟨name', _⟩ := d'
      obtain ⟨rfl, -⟩ := hd
      exact .error _

theorem rel_dangling? (hscope : scope.Renumbered schema w scope') (hM : M.Sound w scope scope')
    {e' : Expr} (h : e.Renumbered w M [] e')
    (harguments : Option.Rel (Parameter.Renumbered w) arguments arguments') :
    Option.Rel (Parameter.Renumbered w) (dangling? e scope arguments)
      (dangling? e' scope' arguments') := by
  unfold dangling? freeParameters
  rw [find?_eraseDups, find?_eraseDups]
  refine h.find?_freeOccurrences ?_ ?_ .nil
  · intro p p' hp
    have hsome : arguments' = some p' ↔ arguments = some p := by
      cases harguments with
      | none => exact iff_of_false nofun nofun
      | some hq => rw [Option.some_inj, Option.some_inj, hq.eq_iff hp]
    rw [Bool.eq_iff_iff]
    simp only [Bool.and_eq_true, Bool.not_eq_true', contains_eq_mem, decide_eq_false_iff_not,
      bne_iff_ne, ne_eq, hscope.mem_iff hp, hsome]
  · intro p e bound hm
    obtain ⟨root, hroot, hreads, -⟩ := hM.reads hm
    have hcontains : ∀ {l : List Parameter} {q : Parameter} {o : Option Parameter}, q ∈ l →
        (!l.contains q && o != some q) = false := by
      intro l q o hq
      rw [contains_eq_mem, decide_eq_true hq]
      rfl
    exact ⟨hcontains (hM.inner hm), fun q hq =>
      hcontains (hreads.mem_freeParameters_iff.1 hq ▸ hroot)⟩

theorem resolve_eq (field : SelectedField) (given : VariableValues) (context : Expr)
    (scope : Scope) : resolve field given context scope
      = match readBack? field context scope with
        | some expression => pure ⟨expression, true, none⟩
        | none => build field given context scope := by
  unfold resolve readBack?
  split
  · rfl
  · rfl

variable (hbase : schema.next ≤ base) (hfield : field.definition.Numbered schema)
  (hscope : scope.Renumbered schema w scope')

include hbase hfield hscope

theorem renumbered_resolve (h : Placed w scope scope' field.definition M context context') :
    (field.definition.resolve.replace (.identity field.definition.context) context).Renumbered
      w M []
        (field.definition.resolve.replace (.identity field.definition.context) context')
      ∧ (field.definition.resolve.replace (.identity field.definition.context) context').ty
        = (field.definition.resolve.replace (.identity field.definition.context) context).ty := by
  have hcontext : field.definition.context.Renumbered w field.definition.context :=
    .known (Nat.lt_of_lt_of_le hfield.context hbase)
  have hresolve : field.definition.resolve.Renumbered w .none [] field.definition.resolve :=
    renumbered_self w .none [] fun i hi => Nat.lt_of_lt_of_le (hfield.resolve i hi) hbase
  cases h with
  | here h => exact ⟨hresolve.replace hcontext h, (hresolve.replace hcontext h).ty⟩
  | @moved own q context settled own_ty context_ty unpaired inner mem reads =>
    refine ⟨?_, (settled _).trans (settled _).symm⟩
    refine hresolve.replaceUnder (Q := (· ∈ field.definition.resolve.binders)) hcontext ?_
      (fun _ _ _ h => h.elim) .nil (forall_mem_nil _) (fun _ h => h)
    intro bound hbound hnot
    refine .moved ⟨rfl, rfl, fun p hp hmem => ?_⟩
    -- No binder of the resolver catches the context: it was drawn later, or it is what the resolver
    -- calls so.
    obtain rfl := reads.mem_freeParameters_iff.1 hp
    rcases hscope.drawn p mem with rfl | hdrawn
    · exact hnot (hfield.binds (hbound _ hmem) ▸ hmem)
    · exact Nat.not_lt_of_le hdrawn (hfield.resolve _ (mem_ids_of_mem_binders (hbound _ hmem)))

theorem matches_resolverIn (h : Placed w scope scope' field.definition M context context') :
    Matches w (fun w' r r' =>
        (r.replace (.identity field.definition.context) context).Renumbered w' M []
            (r'.replace (.identity field.definition.context) context')
          ∧ (r'.replace (.identity field.definition.context) context').ty
            = (r.replace (.identity field.definition.context) context).ty)
      (resolverIn field context scope) (resolverIn field context' scope') := by
  have hreads : readsFetched field context' scope' = readsFetched field context scope := by
    rw [readsFetched, readsFetched, hscope.contextChanged, h.isSome_shape?]
  show Matches w _ (if readsFetched field context scope = true then _ else _)
    (if readsFetched field context' scope' = true then _ else _)
  rw [hreads, hscope.path]
  split
  · rename_i hread
    cases h with
    | @moved own _ _ settled own_ty =>
      have hnone : readsFetched field (.parameter own) scope = false := by
        rw [readsFetched, ty, own_ty]
        exact Bool.and_false _
      rw [hnone] at hread
      exact absurd hread Bool.false_ne_true
    | here h =>
      have hcontext : field.definition.context.Renumbered w field.definition.context :=
        .known (Nat.lt_of_lt_of_le hfield.context hbase)
      refine matches_get (f := fun fetched => Compile.ofExcept
          (substituteDependencies field.definition (fetched.get scope.path) context scope.path))
        (g := fun fetched => Compile.ofExcept
          (substituteDependencies field.definition (fetched.get scope.path) context' scope.path))
        fun fetched => matches_ofExcept ?_
      have hrel := rel_substituteDependencies hbase hfield h (fetched.get scope.path) scope.path
      generalize substituteDependencies field.definition
        (fetched.get scope.path) context scope.path = x,
        substituteDependencies field.definition (fetched.get scope.path) context'
          scope.path = y at hrel
      cases hrel with
      | error e => exact .error e
      | ok hr => exact .ok ⟨hr.replace hcontext h, (hr.replace hcontext h).ty⟩
  · exact matches_pure (renumbered_resolve hbase hfield hscope h)

theorem renumbered_place (hM : M.Sound w scope scope') {r r' : Expr}
    (h : (r.replace (.identity field.definition.context) context).Renumbered w M []
      (r'.replace (.identity field.definition.context) context'))
    (harguments : Option.Rel (Parameter.Renumbered w) arguments arguments') :
    (place field.definition context arguments r).Renumbered w M []
      (place field.definition context' arguments' r') := by
  cases harguments with
  | none => exact h
  | @some p p' hp =>
    have hknown :
        field.definition.argumentsParameter.Renumbered w field.definition.argumentsParameter :=
      .known (Nat.lt_of_lt_of_le hfield.arguments hbase)
    refine h.replaceUnder (Q := fun _ => True) hknown (fun _ _ _ => .parameter hp) ?_ .nil
      (fun _ _ => trivial) (fun _ _ => trivial)
    intro q e bound hm
    refine ⟨fun heq => hM.unpaired hm _ (heq ▸ hknown.id), ?_⟩
    -- What is yet to be put in place does not mention the arguments.
    obtain ⟨root, hroot, hreads, -⟩ := hM.reads hm
    have hne : field.definition.argumentsParameter ∉ e.freeParameters := by
      intro hmem
      rcases hscope.drawn root hroot with heq | hdrawn
      · exact hfield.apart ((hreads.mem_freeParameters_iff.1 hmem).trans heq)
      · rw [← hreads.mem_freeParameters_iff.1 hmem] at hdrawn
        exact Nat.not_lt_of_le hdrawn hfield.arguments
    rw [replaceUnder_of_not_mem e bound fun hmem =>
      hne (mem_freeParameters.2 ((mem_freeOccurrences e bound).1 hmem).1)]
    exact hm

theorem matches_build (h : Placed w scope scope' field.definition M context context')
    (given : VariableValues) :
    Matches w (fun w' => Resolved.Renumbered w' M) (build field given context scope)
      (build field given context' scope') := by
  rw [build_eq, build_eq, hscope.path]
  refine (matches_bindArguments w field given scope.path).bind
    fun w₁ arguments arguments' hw₁ harguments => ?_
  have hscope₁ := hscope.mono hw₁
  refine (matches_resolverIn hbase hfield hscope₁ (h.mono hscope hw₁)).bind fun w₂ r r' hw₂ hr => ?_
  have hscope₂ := hscope₁.mono hw₂
  have hM := ((h.mono hscope hw₁).mono hscope₁ hw₂).sound
  have hparameters :
      Option.Rel (Parameter.Renumbered w₂) (arguments.map Prod.fst) (arguments'.map Prod.fst) :=
    Option.rel_map harguments fun _ _ ha => ha.1.1.mono hw₂
  have hplaced := renumbered_place hbase hfield hscope₂ hM hr.1 hparameters
  have hdangling := rel_dangling? hscope₂ hM hplaced hparameters
  have hty : (place field.definition context' (arguments'.map Prod.fst) r').ty
      = (place field.definition context (arguments.map Prod.fst) r).ty := by
    have htypes : ∀ p ∈ arguments.map Prod.fst, p.ty = field.definition.argumentsParameter.ty := by
      cases harguments with
      | none => exact fun p hp => nomatch hp
      | some ha =>
        rintro p ⟨⟩
        exact ha.2
    have htypes' :
        ∀ p ∈ arguments'.map Prod.fst, p.ty = field.definition.argumentsParameter.ty := by
      cases harguments with
      | none => exact fun p hp => nomatch hp
      | some ha =>
        rintro p ⟨⟩
        exact ha.1.1.ty.trans ha.2
    rw [ty_place _ _ htypes', ty_place _ _ htypes, hr.2]
  dsimp only
  generalize dangling? (place field.definition context (arguments.map Prod.fst) r) scope
    (arguments.map Prod.fst) = p at hdangling
  generalize dangling? (place field.definition context' (arguments'.map Prod.fst) r') scope'
    (arguments'.map Prod.fst) = p' at hdangling
  cases hdangling with
  | some hp =>
    dsimp only
    rw [hp.name]
    exact matches_throw _
  | none =>
    refine matches_pure (R := fun w' => Resolved.Renumbered w' M) ⟨hplaced, hty, rfl, ?_⟩
    exact Option.rel_imp harguments fun _ _ ha => ⟨ha.1.1.mono hw₂, ha.1.2⟩

theorem matches_resolve (h : Placed w scope scope' field.definition M context context')
    (given : VariableValues) :
    Matches w (fun w' => Resolved.Renumbered w' M) (resolve field given context scope)
      (resolve field given context' scope') := by
  have hread : Option.Rel (fun m m' => m.Renumbered w .none [] m') (readBack? field context scope)
      (readBack? field context' scope') := by
    unfold readBack?
    rw [hscope.contextChanged]
    split
    · exact h.recordMember? _
    · exact .none
  rw [resolve_eq, resolve_eq]
  generalize readBack? field context scope = read, readBack? field context' scope' = read' at hread
  cases hread with
  | none => exact matches_build hbase hfield hscope h given
  | some hm =>
    exact matches_pure (R := fun w' => Resolved.Renumbered w' M) ⟨hm.under _ _, hm.ty, rfl, .none⟩

end Resolve

end QueryProjection
