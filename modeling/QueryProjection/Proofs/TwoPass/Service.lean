import QueryProjection.Proofs.Expr.Dependency
import QueryProjection.Proofs.TwoPass.Direct

/-!
# Service fields over fetched data

Over fetched data the resolver of a service field reads what was fetched for it, in place of the
chains of members that it reads of its context.  Where what was fetched is what the chains evaluate
to, the resolver means what it meant before (`Resolve.value?_substituted`), and so the field
evaluates to what it answers (`Compiler.forced?_of_service`).

`Resolve.Fetched` compares the record with the object it was fetched from chain by chain, under the
keys that are remembered, and knows nothing else of the two.  The same member may be in the record
under several keys, or under the key of another field, and the object may be gone.
-/

namespace QueryProjection

open Expr Resolve

variable {context : Expr}

namespace Resolve

variable {services : Provider} {keys : List (String × String)} {path : FieldPath} {el : Parameter}

/-! ## Putting members in place of chains -/

variable {record resolver e : Expr} {root : Parameter} {chains : Expr.Dependencies}
  {env : Environment}

theorem recordMember?_eq_some {member : Expr} {name : String}
    (h : record.recordMember? name = some member) :
    ∃ spelling ty, member = .member record spelling ty := by
  obtain ⟨_, -, h⟩ := Option.bind_eq_some_iff.1 h
  obtain ⟨⟨spelling, ty⟩, -, h⟩ := Option.bind_eq_some_iff.1 h
  cases h
  exact ⟨spelling, ty, rfl⟩

theorem substituteChains_cons {d : String × Dependency} {rest : Dependencies}
    (h : substituteChains keys record path (d :: rest) resolver = .ok e) :
    ∃ member, record.recordMember? ((Assoc.find? d.1 keys).getD d.1) = some member
      ∧ substituteChains keys record path rest (resolver.substitute d.2.chain member) = .ok e := by
  obtain ⟨name, dependency⟩ := d
  rw [substituteChains] at h
  split at h
  · cases h
  · rename_i member hmember
    exact ⟨member, hmember, h⟩

/-- What a resolver mentions it still mentions with members in place of chains, besides its context,
which it mentions only if the record does. -/
theorem mem_freeParameters_substituteChains {p : Parameter}
    (hp : p = root → p ∈ record.freeParameters)
    (hchains : ∀ d ∈ chains, ChainOn (.parameter d.2.root) d.1 d.2.chain ∧ d.2.root = root)
    (h : substituteChains keys record path chains resolver = .ok e)
    (hmem : p ∈ resolver.freeParameters) : p ∈ e.freeParameters := by
  induction chains generalizing resolver with
  | nil =>
    cases h
    exact hmem
  | cons d rest ih =>
    obtain ⟨member, hmember, h⟩ := substituteChains_cons h
    obtain ⟨spelling, ty, rfl⟩ := recordMember?_eq_some hmember
    obtain ⟨⟨hd, hroot⟩, hchains⟩ := List.forall_mem_cons.1 hchains
    have hreads := hd.readsOf (.parameter (p := d.2.root))
    refine ih hchains h (mem_freeParameters_substitute_of_mem (fun _ => hreads.eq_of_same)
      (fun hmem => mem_freeParameters_member.2 (hp ?_)) resolver hmem)
    exact (hreads.mem_freeParameters_iff.1 hmem).trans hroot

/-- What was fetched for chains: the record has a member of the type of each chain, and in the
record `y` it is what the chain evaluates to where its root is `x`. -/
def Fetched (services : Provider) (el : Parameter) (keys : List (String × String)) (x y : Value)
    (chains : Expr.Dependencies) : Prop :=
  ∀ d ∈ chains, ∃ spelling w,
    (Expr.parameter el).recordMember? ((Assoc.find? d.1 keys).getD d.1)
        = some (.member (.parameter el) spelling d.2.chain.ty)
      ∧ Expr.readMember spelling y = pure w
      ∧ ∀ env : Environment, env d.2.root = some x → d.2.chain.value? services env = some w

/-- The record has a member of the type of each chain. -/
def Carries (el : Parameter) (keys : List (String × String)) (chains : Expr.Dependencies) : Prop :=
  ∀ d ∈ chains, ∃ spelling, (Expr.parameter el).recordMember? ((Assoc.find? d.1 keys).getD d.1)
    = some (.member (.parameter el) spelling d.2.chain.ty)

theorem Fetched.carries {x y : Value} (h : Fetched services el keys x y chains) :
    Carries el keys chains := by
  intro d hd
  obtain ⟨spelling, -, hmember, -⟩ := h d hd
  exact ⟨spelling, hmember⟩

section SubstituteChains

variable {x y : Value} {chains : Expr.Dependencies}
  (hchains : ∀ d ∈ chains, Expr.ChainOn (.parameter d.2.root) d.1 d.2.chain) {resolver e : Expr}
  (h : substituteChains keys (.parameter el) path chains resolver = .ok e)

include hchains h

theorem substituteChains_keeps (hcarries : Carries el keys chains) {P : Value → Prop}
    (hbuilt : resolver.Built P False) :
    e.ty = resolver.ty ∧ (∀ q ∈ e.binders, q ∈ resolver.binders) ∧ e.Built P False := by
  induction chains generalizing resolver with
  | nil =>
    cases h
    exact ⟨rfl, fun _ => id, hbuilt⟩
  | cons d rest ih =>
    obtain ⟨member, hmember, h⟩ := substituteChains_cons h
    obtain ⟨⟨spelling, hfirst⟩, hcarries⟩ := List.forall_mem_cons.1 hcarries
    obtain ⟨hd, hchains⟩ := List.forall_mem_cons.1 hchains
    obtain rfl := Option.some.inj (hmember.symm.trans hfirst)
    obtain ⟨hty, hbinders, hbuilt⟩ := ih hchains h hcarries
      ((nodewise_built _ _).substitute hbuilt trivial)
    have hmemberTy : (member (.parameter el) spelling d.2.chain.ty).ty = d.2.chain.ty := rfl
    refine ⟨hty.trans ?_, fun q hq => ?_, hbuilt⟩
    · exact ty_substitute (fun _ => (hd.readsOf .parameter).eq_of_same) hmemberTy resolver
    · exact binders_substitute rfl q (hbinders q hq)

theorem operand_substituteChains (hfetched : Fetched services el keys x y chains)
    (hroot : ∀ d ∈ chains, d.2.root = root) (hbind : ∀ q ∈ resolver.binders, q ≠ root ∧ q ≠ el)
    (hx : env root = some x) (hy : env el = some y) :
    e.operand services env = resolver.operand services env := by
  induction chains generalizing resolver with
  | nil =>
    cases h
    rfl
  | cons d rest ih =>
    obtain ⟨member, hmember, h⟩ := substituteChains_cons h
    obtain ⟨⟨spelling, w, hfirst, hread, hvalue⟩, hfetched⟩ := List.forall_mem_cons.1 hfetched
    obtain ⟨hd, hchains⟩ := List.forall_mem_cons.1 hchains
    obtain ⟨hdroot, hroot⟩ := List.forall_mem_cons.1 hroot
    obtain rfl := Option.some.inj (hmember.symm.trans hfirst)
    rw [ih hchains h hfetched hroot fun q hq => hbind q (binders_substitute rfl q hq)]
    refine operand_substitute (I := fun env => env root = some x ∧ env el = some y)
      (fun _ => (hd.readsOf .parameter).eq_of_same) (fun env henv => funext fun handed => ?_)
      (fun q hq env v henv => ?_) ⟨hx, hy⟩
    · have hrecord : (parameter el).value? services env = some y :=
        (value?_parameter el).trans henv.2
      rw [(hd.readsOf .parameter).operand_eq_pure (hvalue env (hdroot ▸ henv.1)) handed, operand,
        Expr.ReadsOf.parameter.operand_eq_pure hrecord]
      exact hread
    · exact ⟨(env.bind_of_ne (hbind q hq).1.symm v).trans henv.1,
        (env.bind_of_ne (hbind q hq).2.symm v).trans henv.2⟩

end SubstituteChains

/-! ## The resolver of a service field -/

theorem substituteDependencies_eq_ok {definition : FieldDefinition}
    (h : substituteDependencies definition keys record path = .ok resolver) :
    ∃ chains, definition.resolve.dependencies (.identity definition.context) path = .ok chains
      ∧ substituteChains keys record path chains definition.resolve = .ok resolver
      ∧ resolver.dependencies (.identity definition.context) path = .ok [] := by
  obtain ⟨chains, hchains, h⟩ := bind_eq_ok_iff.1 h
  obtain ⟨resolver', hresolver, h⟩ := bind_eq_ok_iff.1 h
  obtain ⟨left, hleft, h⟩ := bind_eq_ok_iff.1 h
  cases left with
  | cons d rest => cases h
  | nil =>
    cases h
    exact ⟨chains, hchains, hresolver, hleft⟩

section Substituted

variable {I : Interpretation} {next : Nat} {field : SelectedField} {x y : Value} {resolver : Expr}
  (hd : field.definition.Regular I.services next)
  (h : substituteDependencies field.definition keys (.parameter el) path = .ok resolver)

section Carried

variable (hcarries : ∀ chains,
  field.definition.resolve.dependencies (.identity field.definition.context) path = .ok chains →
    Carries el keys chains)

include hd h hcarries

/-- With what was fetched in place of the chains, the resolver does not mention the context any
more, and is otherwise as good as it was. -/
theorem substituteDependencies_keeps :
    resolver.ty = field.definition.resolve.ty
      ∧ (∀ q ∈ resolver.binders, q ∈ field.definition.resolve.binders)
      ∧ resolver.Built Value.Eager False
      ∧ field.definition.context ∉ resolver.freeParameters := by
  obtain ⟨chains, hchains, hsubstitute, hleft⟩ := substituteDependencies_eq_ok h
  obtain ⟨hty, hbinders, hbuilt⟩ := substituteChains_keeps (chainOn_of_dependencies hchains)
    hsubstitute (hcarries chains hchains) hd.resolve
  exact ⟨hty, hbinders, hbuilt, not_mem_freeParameters_of_dependencies hleft⟩

theorem place_substituted (arguments : Option Parameter) :
    place field.definition (.parameter el) arguments resolver
      = arguments.elim resolver fun p =>
          resolver.replace (.identity field.definition.argumentsParameter) (.parameter p) := by
  have hplaced := replace_of_not_mem (substituteDependencies_keeps hd h hcarries).2.2.2
    (.parameter el)
  unfold place
  dsimp only
  rw [hplaced]
  cases arguments <;> rfl

theorem ty_substituted {arguments : Option Parameter}
    (harguments : ∀ p ∈ arguments, p.ty = field.definition.argumentsParameter.ty) :
    (place field.definition (.parameter el) arguments resolver).ty
      = field.definition.resolve.ty := by
  obtain ⟨hty, -, -, hcontext⟩ := substituteDependencies_keeps hd h hcarries
  rw [ty_place _ _ harguments, replace_of_not_mem hcontext, hty]

end Carried

include hd h

/-- **What the resolver of a service field evaluates to** over fetched data: what it evaluates to
for the value that the data was fetched from. -/
theorem value?_substituted (hfetched : ∀ chains,
      field.definition.resolve.dependencies (.identity field.definition.context) path = .ok chains →
        Fetched I.services el keys x y chains) {record : Option (List (String × Value))}
    (hrecord : field.record? I.values = some record) {n : Nat} (hn : next ≤ n) (hel : next ≤ el.id)
    (hbase : ∀ p, p.id < next → env p = I.base p) (hy : env el = some y)
    (hbound : ∀ b ∈ bound field record n, env b.1 = some b.2) :
    (place field.definition (.parameter el) ((bound field record n).map Prod.fst) resolver).value?
        I.services env = I.source? field x := by
  obtain ⟨chains, hchains, hsubstitute, -⟩ := substituteDependencies_eq_ok h
  have hcarries := fun chains hchains => (hfetched chains hchains).carries
  obtain ⟨-, hbinders, hbuilt, hcontext⟩ := substituteDependencies_keeps hd h hcarries
  have hold : ∀ q : Parameter, q.id < next → ∀ r : Parameter, next ≤ r.id → q ≠ r := by
    rintro q hq r hr rfl
    exact absurd hq (Nat.not_lt_of_le hr)
  -- The arguments are bound under the name that the schema has for them.
  have hvalue : ∀ env₁ : Environment, env₁ el = some y →
      resolver.value? I.services env₁
        = field.definition.resolve.value? I.services (env₁.bind field.definition.context x) := by
    intro env₁ hy
    have hrebind : resolver.value? I.services env₁
        = resolver.value? I.services (env₁.bind field.definition.context x) :=
      value?_congr fun p hp =>
        (env₁.bind_of_ne (fun heq => hcontext (by rw [← heq]; exact hp)) x).symm
    have hsame := operand_substituteChains (chainOn_of_dependencies hchains) hsubstitute
      (hfetched chains hchains) (root_of_dependencies hchains)
      (fun q hq => ⟨fun heq => hd.own (by rw [← heq]; exact hq), hold q (hd.binders q hq) el hel⟩)
      (env₁.bind_self field.definition.context x)
      ((env₁.bind_of_ne (hold _ hd.context_id el hel).symm x).trans hy)
    rw [hrebind, value?, valueOf, hsame]
    rfl
  rw [place_substituted hd h hcarries, Interpretation.source?, hrecord, Option.bind_some]
  cases record with
  | none =>
    exact (hvalue env hy).trans (value?_congr fun p hp =>
      Environment.bind_congr (hbase p (hd.free p hp)))
  | some values =>
    have hfresh : argumentsParameter field n ∉ resolver.binders := fun hq =>
      hold _ (hd.binders _ (hbinders _ hq)) (argumentsParameter field n) hn rfl
    have hvalues : (parameter (argumentsParameter field n)).value? I.services env
        = some (.object values) := (value?_parameter _).trans (hbound _ rfl)
    refine (value?_replace .parameter hfresh hvalues).trans ?_
    refine (hvalue _ ((env.bind_of_ne (hold _ hd.arguments_id el hel).symm _).trans hy)).trans ?_
    exact value?_congr fun p hp => Environment.bind_congr
      (Environment.bind_congr (hbase p (hd.free p hp)))

end Substituted

theorem resolve_service {field : SelectedField} {given : VariableValues} {scope : Scope}
    {m m' : Memory} (hservice : field.definition.requiresService = true)
    (hshape : context.ty.shape?.isSome = true) (hchanged : scope.contextChanged = true)
    {r : Resolved} :
    Gives (resolve field given context scope) m r m'
      ↔ field.Known ∧ ∃ record resolver, field.record? given = some record
        ∧ substituteDependencies field.definition (m.fetched.get scope.path) context scope.path
            = .ok resolver
        ∧ r = ⟨place field.definition context ((bound field record m.next).map Prod.fst)
            resolver, false, bound field record m.next⟩
        ∧ dangling? r.expression scope ((bound field record m.next).map Prod.fst) = none
        ∧ m' = { m with next := m.next + record.toList.length } := by
  have hback : readBack? field context scope = none := by
    rw [readBack?, hservice, Bool.not_true, Bool.and_false]
    rfl
  have hreads : readsFetched field context scope = true := by
    rw [readsFetched, hservice, hchanged]
    exact hshape
  rw [resolve_gives, build_gives, hback]
  simp only [resolverIn_gives, hreads, bindArguments_gives_iff, reduceCtorEq, false_and,
    exists_false, false_or, true_and, if_true]
  constructor
  · rintro ⟨_, resolver, ⟨hknown, record, hrecord, rfl, rfl⟩, hs, rfl, hd⟩
    exact ⟨hknown, record, resolver, hrecord, hs, rfl, hd, rfl⟩
  · rintro ⟨hknown, record, resolver, hrecord, hs, rfl, hd, rfl⟩
    exact ⟨_, resolver, ⟨hknown, record, hrecord, rfl, rfl⟩, hs, rfl, hd⟩

end Resolve

namespace Compiler

variable {compiler : Compiler} {I : Interpretation} {next : Nat} {scope : Scope} {m m' : Memory}
  {e : Expanded} {compiled : Compiled}

theorem compileExpanded_record (hshape : context.ty.shape?.isSome = true) :
    Gives (compiler.compileExpanded context scope e) m compiled m'
      ↔ Gives (compiler.compileField e.field (compiler.selectOf e) context scope) m compiled
        m' := by
  simp only [compileExpanded_eq, compileFrom_gives, hshape, or_true, true_and, Bool.true_eq_false,
    false_and, and_false, exists_false, or_false]
  rfl

theorem compileResolved_of_readBack (hshape : context.ty.shape?.isSome = true) {source : Expr}
    (hback : readBack? e.field context scope = some source)
    (h : Gives (compiler.compileExpanded context scope e) m compiled m') :
    Gives (compileResolved e.field (compiler.selectOf e) ⟨source, true, none⟩ scope) m compiled
      m' := by
  obtain ⟨-, resolved, m₁, hresolve, h⟩ := compileField_gives.1
    ((compileExpanded_record hshape).1 h)
  obtain ⟨_, hsource, rfl, rfl⟩ | ⟨hnone, -⟩ := resolve_gives.1 hresolve
  · obtain rfl := Option.some.inj (hback.symm.trans hsource)
    exact h
  · rw [hback] at hnone
    cases hnone

section Fetched

variable {e : Expanded} {el : Parameter} {compiled : Compiled} {x y : Value} {env : Environment}
  (hservice : e.field.definition.requiresService = true) (hshape : el.ty.shape?.isSome = true)
  (hchanged : scope.contextChanged = true) (hid : next ≤ el.id) (hlt : el.id < m.next)
  (h : Gives (compiler.compileExpanded (.parameter el) scope e) m compiled m')
  (hfetched : ∀ chains, e.field.definition.resolve.dependencies
      (.identity e.field.definition.context) scope.path = .ok chains →
    Fetched I.services el (m.fetched.get scope.path) x y chains)
  (henv : I.Runs next (.parameter el) y compiled.constants env)

include hservice hshape hchanged hid hlt h hfetched henv

/-- What a service field resolves to over fetched data: something of its type that evaluates to its
source for the value that the data was fetched from. -/
theorem exists_resolved_of_service (hvalues : I.values = compiler.values)
    (hsound : e.Every (SelectedField.Sound I.services next)) :
    ∃ record source m₁, e.field.record? compiler.values = some record ∧ next ≤ m.next
      ∧ m₁.next = m.next + record.toList.length
      ∧ Gives (compileResolved e.field (compiler.selectOf e)
        ⟨source, false, bound e.field record m.next⟩ scope)
          m₁ compiled m'
      ∧ source.ty = e.field.definition.resolve.ty
      ∧ source.value? I.services env = I.source? e.field x := by
  have hshape : (parameter el).ty.shape?.isSome = true := hshape
  obtain ⟨-, resolved, m₁, hresolve, hc⟩ :=
    compileField_gives.1 ((compileExpanded_record hshape).1 h)
  obtain ⟨-, record, resolver, hrecord, hsubstitute, rfl, -, rfl⟩ :=
    (resolve_service hservice hshape hchanged).1 hresolve
  obtain ⟨selections, hfield⟩ := hsound.holds
  have hnext : next ≤ m.next := Nat.le_trans hid (Nat.le_of_lt hlt)
  refine ⟨record, _, _, hrecord, hnext, rfl, hc, ?_, ?_⟩
  · exact ty_substituted hfield.definition hsubstitute
      (fun chains hchains => (hfetched chains hchains).carries)
        (ty_bound e.field record m.next)
  · exact value?_substituted hfield.definition hsubstitute hfetched (hvalues ▸ hrecord)
      hnext hid henv.base ((value?_parameter el).symm.trans henv.context) fun b hb =>
        henv.constants _ _ (get?_of_compileResolved hsound
          (id_bound e.field record m.next) hc b hb)

/-- **A service field over fetched data** evaluates to what it answers for the value that the data
was fetched from. -/
theorem forced?_of_service (hI : I.Regular) (hvalues : I.values = compiler.values)
    (hreg : e.Every (SelectedField.Regular I.services compiler.values next))
    (hmode : scope.mode = .full)
    (hx : x.Eager) : compiled.expression.forced? I.services env = I.answer e x := by
  obtain ⟨record, source, m₁, hrecord, hnext, hm₁, hc, hty, hvalue⟩ :=
    exists_resolved_of_service hservice hshape hchanged hid hlt h hfetched henv hvalues hreg.sound
  obtain ⟨selections, hfield⟩ := hreg.holds
  have heager : ∀ v, (source.moved none (.parameter el)).value? I.services env = some v → v.Eager :=
    fun v hv => Interpretation.eager_of_source? hI (hvalues ▸ hfield) hx (hvalue.symm.trans hv)
  have hforced := forced?_compileResolved hI hvalues hreg
    (fun fields hsel f hf => forced?_compileExpanded hI hvalues (hreg.of_selects hsel hf)) hrecord
      hnext
    hm₁ hc hmode (hty.symm ▸ .refl (fun _ => rfl) _) (fun q hq => absurd hq (Option.not_mem_none q))
    henv.base henv.constants heager
  rw [I.answer_eq, ← hvalue]
  exact hforced

end Fetched

end Compiler
end QueryProjection
