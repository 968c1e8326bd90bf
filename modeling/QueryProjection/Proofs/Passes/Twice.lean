import QueryProjection.Proofs.Passes.Provided

/-!
# Two passes

The data pass compiles a plain field to an expression for the data that the full pass needs, and the
full pass reads the field back from that data.  Where the data pass gives a value, the full pass
evaluates to what the field means in two passes, `Interpretation.twice`, and where the field means
something in two passes, the data pass gives a value:

* `Compiler.meansTwice` and `Compiler.fetchable`.

What is remembered under which key in between does not show in the meaning of a field.  That is the
point of `Interpretation.twice`: it hands a service field an object with what the field reads and
nothing else, under the names of the members.  Both directions are needed, since two rearranged
documents must fail alike, and whether the data pass gives a value is part of that.
-/

namespace QueryProjection

open Environment Expr FieldDefinition Interpretation List

/-! ## Objects that are made of objects -/

section Each

variable {α β γ : Type} {f : α → Option β} {g : β → Option γ} {k : α → Option γ}
  {as : List α} {bs : List β}

theorem mapM_eq_mapM (hf : as.mapM f = some bs) (h : ∀ a b, f a = some b → g b = k a) :
    bs.mapM g = as.mapM k := by
  rw [mapM_eq_some_iff] at hf
  induction hf with
  | nil => rfl
  | cons hab _ ih => rw [mapM_cons, mapM_cons, h _ _ hab, ih]

theorem mapEntries_eq_mapEntries {as : List (String × α)} {bs : List (String × β)}
    (hf : mapEntries f as = some bs) (h : ∀ a b, f a = some b → g b = k a) :
    mapEntries g bs = mapEntries k as := by
  refine mapM_eq_mapM hf fun a b hab => ?_
  obtain ⟨b, hb, rfl⟩ := Option.map_eq_some_iff.1 hab
  rw [h _ _ hb]

theorem exists_mapM (hf : as.mapM f = some bs) (h : ∀ a b, f a = some b → ∃ c, k a = some c) :
    ∃ cs, as.mapM k = some cs := by
  rw [mapM_eq_some_iff] at hf
  induction hf with
  | nil => exact ⟨[], rfl⟩
  | cons hab _ ih =>
    obtain ⟨c, hc⟩ := h _ _ hab
    obtain ⟨cs, hcs⟩ := ih
    exact ⟨c :: cs, by rw [mapM_cons, hc, hcs]; rfl⟩

theorem exists_mapEntries {as : List (String × α)} {bs : List (String × β)}
    (hf : mapEntries f as = some bs) (h : ∀ a b, f a = some b → ∃ c, k a = some c) :
    ∃ cs, mapEntries k as = some cs := by
  refine exists_mapM hf fun a b hab => ?_
  obtain ⟨b, hb, rfl⟩ := Option.map_eq_some_iff.1 hab
  obtain ⟨c, hc⟩ := h _ _ hb
  exact ⟨(a.1, c), by rw [hc]; rfl⟩

theorem exists_mapEntries_iff {entries : List (String × α)} :
    (∃ result, mapEntries f entries = some result) ↔ ∀ e ∈ entries, ∃ b, f e.2 = some b := by
  induction entries with
  | nil => exact ⟨fun _ e he => absurd he not_mem_nil, fun _ => ⟨[], rfl⟩⟩
  | cons e rest ih =>
    rw [forall_mem_cons, ← ih, mapEntries_cons]
    constructor
    · rintro ⟨result, h⟩
      obtain ⟨b, hb, h⟩ := Option.bind_eq_some_iff.1 h
      obtain ⟨others, hothers, -⟩ := Option.map_eq_some_iff.1 h
      exact ⟨⟨b, hb⟩, others, hothers⟩
    · rintro ⟨⟨b, hb⟩, others, hothers⟩
      exact ⟨(e.1, b) :: others, by rw [hb, Option.bind_some, hothers, Option.map_some]⟩

end Each

variable {x : Value} {I : Interpretation}

theorem Interpretation.recordOf_congr {fields : List Expanded}
    {f g : Expanded → Value → Option Value} (h : ∀ e ∈ fields, f e x = g e x) :
    recordOf (fields.map fun e => (e.field.responseKey, f e)) x
      = recordOf (fields.map fun e => (e.field.responseKey, g e)) x := by
  refine congrArg (Option.map Value.object) ?_
  induction fields with
  | nil => rfl
  | cons e rest ih =>
    obtain ⟨he, hrest⟩ := forall_mem_cons.1 h
    simp only [map_cons, mapEntries_cons, ih hrest, he]

namespace Value

variable {u v : Value} {shape : FieldShape} {f g k : Value → Option Value}

theorem project_of_project (hf : u.project f = some v) (h : ∀ x y, f x = some y → g y = k x) :
    v.project g = u.project k := by
  rcases project_cases hf with ⟨rfl, rfl⟩ | ⟨members, results, rfl, hresults, rfl⟩
    | ⟨items, results, hitems, hresults, rfl⟩
  · rfl
  · rw [project, project, mapEntries_eq_mapEntries hresults h]
  · rw [project_of_elements hitems, ← mapM_eq_mapM hresults h]
    rfl

theorem each_of_each (hf : u.each shape f = some v) (hnull : ∀ x y, f x = some y → y.isNull = false)
    (h : ∀ x y, f x = some y → g y = k x) : v.each shape g = u.each shape k := by
  cases shape with
  | leaf =>
    cases hf
    rfl
  | object =>
    rw [each] at hf ⊢
    rw [each]
    split at hf
    · rename_i hu
      cases hf
      rw [if_pos hu]
      rfl
    · rename_i hu
      rw [if_neg hu, hnull u v hf, if_neg Bool.false_ne_true, h u v hf]
  | list => exact project_of_project hf h

theorem exists_project (hf : u.project f = some v) (h : ∀ x y, f x = some y → ∃ z, k x = some z) :
    ∃ w, u.project k = some w := by
  rcases project_cases hf with ⟨rfl, -⟩ | ⟨members, results, rfl, hresults, -⟩ | ⟨items, results,
    hitems, hresults, -⟩
  · exact ⟨.null, rfl⟩
  · obtain ⟨others, hothers⟩ := exists_mapEntries hresults h
    exact ⟨.object others, by rw [project, hothers]; rfl⟩
  · obtain ⟨others, hothers⟩ := exists_mapM hresults h
    exact ⟨.list others, by rw [project_of_elements hitems, hothers]; rfl⟩

theorem exists_each (hf : u.each shape f = some v) (h : ∀ x y, f x = some y → ∃ z, k x = some z) :
    ∃ w, u.each shape k = some w := by
  cases shape with
  | leaf => exact ⟨u, rfl⟩
  | object =>
    rw [each] at hf ⊢
    split
    · exact ⟨.null, rfl⟩
    · rename_i hu
      rw [if_neg hu] at hf
      exact h u v hf
  | list => exact exists_project hf h

end Value

/-! ## Fields that read nothing -/

namespace FieldDefinition

/-- Where all chains of a resolver evaluate to something, the object that has what it reads is
there, and the chains evaluate to the same in it. -/
theorem exists_reads? {services : Provider} {definition : FieldDefinition}
    {chains : Dependencies} (hchains : definition.chains? = some chains)
    (h : ∀ d ∈ chains, ∃ w, d.2.chain.forced? services
      (bind (fun _ => none) d.2.root x) = some w) :
    ∃ members, definition.reads? services x = some (.object members)
      ∧ ∀ d ∈ chains, ∀ {w}, d.2.chain.forced? services
          (bind (fun _ => none) d.2.root x) = some w →
        ∀ {env : Environment}, env d.2.root = some (.object members) →
          d.2.chain.value? services env = some w := by
  have hok := (chains?_eq_some_iff .operation).1 hchains
  obtain ⟨members, hmembers⟩ :
    ∃ members, mapEntries (fun d : Dependency => (d.chain.forced? services
      (bind (fun _ => none) d.root x)).map d.chain.nested) chains = some members := by
    refine exists_mapEntries_iff.2 fun d hd => ?_
    obtain ⟨w, hw⟩ := h d hd
    exact ⟨d.2.chain.nested w, by rw [hw, Option.map_some]⟩
  refine ⟨members, ?_, fun d hd w hw env hroot => ?_⟩
  · rw [reads?, hchains, Option.bind_some, hmembers, Option.map_some]
  · obtain ⟨b, hb, hfind⟩ :=
      SelectionMap.find?_of_mapEntries (nodup_of_dependencies hok) hmembers hd
    rw [hw, Option.map_some] at hb
    exact (chainOn_of_dependencies hok d hd).value?_nested hroot (hfind.trans hb.symm)

end FieldDefinition

theorem Interpretation.source?_congr {field : SelectedField}
    (hfree : field.definition.context ∉ field.definition.resolve.freeParameters) (x y : Value) :
    I.source? field x = I.source? field y := by
  refine Option.bind_congr fun record _ => ?_
  refine value?_congr fun p hp => ?_
  have hne : p ≠ field.definition.context := by
    rintro rfl
    exact hfree hp
  exact (bind_of_ne _ hne x).trans (bind_of_ne _ hne y).symm

/-- A service field that reads nothing of its context means in two passes what it means without the
schema's parameters. -/
theorem Interpretation.served_of_readsNothing {e : Expanded}
    (hnothing : e.field.definition.readsNothing = true) (x : Value) :
    I.served e x = I.alone.once e x := by
  have hchains := readsNothing_iff.1 hnothing
  have hreads : e.field.definition.reads? I.services x = some (.object []) := by
    rw [reads?, hchains]
    rfl
  have hfree := dependencies_eq_nil_iff.1
    ((chains?_eq_some_iff .operation).1 hchains)
  rw [served, hreads, Option.bind_some, once_eq, once_eq, source?_congr hfree (.object []) x]

namespace Compiler

variable {compiler : Compiler} {I : Interpretation} {next : Nat} {scope : Scope} {m m' : Memory}

/-! ## Reading back -/

/-- Where the data pass gives a value, the full pass over it evaluates to what the field means in
two passes. -/
def MeansTwice (compiler : Compiler) (I : Interpretation) (next : Nat) (e : Expanded) : Prop :=
  ∀ {context : Expr} {c : Parameter} {scope : Scope} {m m' : Memory} {fetch : Compiled}
    {origin : Value → Option Value} {env : Environment} {x y : Value},
    Gives (compiler.compileExpanded context scope e) m fetch m' → scope.mode = .dataOnly →
    context.ty.IsObject → context.ReadsOf c → c ∈ scope.parameters →
    I.Reaches next context e.field origin →
    next ≤ m.next → I.Runs next context x fetch.constants env →
    fetch.expression.forced? I.services env = some y →
  ∀ {source : Expr} {scope' : Scope} {n n' : Memory} {compiled : Compiled} {env' : Environment},
    Gives (compileResolved e.field (compiler.selectOf e) ⟨source, true, none⟩ scope')
      n compiled n' →
    scope'.mode = .full → scope'.path = scope.path → source.ty = fetch.expression.ty →
    next ≤ n.next → Memory.SameInside scope.path n m' →
    I.alone.Runs next source y compiled.constants env' →
  compiled.expression.forced? I.services env' = (origin x).bind (I.twiceBelow e)

section Member

variable {selected : List Expanded} {element : Parameter} {selection : CompiledSelection}
  (hprovides : Provides compiler I.services next selected element scope m m' selection)
  {env : Environment} {x : Value} (hruns : I.Runs next
    (.parameter element) x selection.constants env)

include hprovides hruns

section Read

variable {y : Value} (hy : selection.fields.toRecord.forced? I.services env = some y)
  {el : Parameter}
  {scope' : Scope} {n n' : Memory} (hrereads : Rereads next selection.fields scope m' el scope' n)
  {f : Expanded} (hf : f ∈ selected) {compiled : Compiled}
  (hcompiled : Gives (compiler.compileExpanded (.parameter el)
    (scope'.field f.field.responseKey) f) n compiled n')
  {env' : Environment} (hruns' : I.alone.Runs next (.parameter el) y compiled.constants env')

include hy hrereads hf hcompiled hruns'

theorem forced?_plain_twice (hplain : f.field.definition.requiresService = false)
    (ih : MeansTwice compiler I next f) :
    compiled.expression.forced? I.services env' = I.twice f x := by
  obtain ⟨fetch, m₁, m₂, spelling, hm₁, hfetch, hincludes, hfield, hback, hpath, hsame⟩ :=
    hrereads.plain hprovides.drawn hprovides.selects hprovides.mode (hprovides.lastIn hf) hplain id
  obtain ⟨w, hw, hread⟩ := SelectionMap.readMember_of_field? hprovides.distinct hy hfield
  have hshape : (parameter el).ty.shape?.isSome = true := by rw [ty, hrereads.ty]; rfl
  obtain ⟨selections, hown⟩ := (hprovides.simple f hf).holds
  have hvalue : (member (.parameter el) spelling fetch.expression.ty).value? I.services env'
      = some w := by
    have hcontext : (parameter el).value? I.services env' = some y := hruns'.context
    rw [value?_member, hcontext, Option.bind_some, hread]
    rfl
  rw [I.twice_eq]
  exact ih hfetch hprovides.mode hprovides.object .parameter hprovides.mem
    (reaches_of_le hown.definition .parameter hprovides.old) (Nat.le_trans hprovides.numbered hm₁)
    ⟨hruns.base, hruns.context, fun p u hu => hruns.constants p u (hincludes p u hu)⟩ hw
    (compileResolved_of_readBack hshape hback hcompiled)
    hrereads.mode hpath rfl (Nat.le_trans hrereads.old (Nat.le_of_lt hrereads.new)) hsame
    ⟨hruns'.base, hvalue, hruns'.constants⟩

/-- A service field is given what was fetched for it, and nothing else. -/
theorem forced?_service_twice (hvalues : I.values = compiler.values)
    (hservice : f.field.definition.requiresService = true) :
    compiled.expression.forced? I.services env' = I.served f x := by
  obtain ⟨chains, hchains, hfound⟩ := hprovides.service hrereads hf hservice
  have hok := fun path => (chains?_eq_some_iff path).1 hchains
  -- What a chain evaluates to for the object is found in the record.
  have hmembers : ∀ d ∈ chains, ∃ key w,
      (parameter el).recordMember? ((Assoc.find? d.1
          (n.fetched.get (scope'.field f.field.responseKey).path)).getD d.1)
        = some (.member (.parameter el) key d.2.chain.ty)
      ∧ readMember key y = pure w
      ∧ d.2.chain.forced? I.services (bind (fun _ => none) d.2.root x) = some w := by
    intro d hd
    obtain ⟨key, hmember, hfield⟩ := hfound d hd
    obtain ⟨w, hw, hread⟩ := SelectionMap.readMember_of_field? hprovides.distinct hy hfield
    refine ⟨key, w, hmember, hread, ?_⟩
    have hreads := (chainOn_of_dependencies (hok .operation) d hd).readsOf .parameter
    rw [forced?, hreads.value?_replace (hruns.context.trans (bind_self _ d.2.root x).symm)] at hw
    exact hw
  -- So the object that has just these members is as good as the object itself.
  obtain ⟨members, hobject, hreach⟩ := exists_reads? hchains fun d hd => by
    obtain ⟨_, w, -, -, hw⟩ := hmembers d hd
    exact ⟨w, hw⟩
  have hall : Resolve.Fetched I.services el
      (n.fetched.get (scope'.field f.field.responseKey).path) (.object members) y chains := by
    intro d hd
    obtain ⟨key, w, hmember, hread, hw⟩ := hmembers d hd
    exact ⟨key, w, hmember, hread, fun env₀ hroot => hreach d hd hw hroot⟩
  have hshape : el.ty.shape?.isSome = true := by rw [hrereads.ty]; rfl
  have hchanged : (scope'.field f.field.responseKey).contextChanged = true := hrereads.changed
  have hmode : (scope'.field f.field.responseKey).mode = .full := hrereads.mode
  have hvalues' : I.alone.values = compiler.values := hvalues
  have hsimple : f.Every (SelectedField.Simple I.alone.services next) := hprovides.simple f hf
  rw [served, hobject, Option.bind_some]
  refine forced?_service_once hvalues' hsimple (hprovides.unambiguous f hf) hservice hshape
    hchanged hmode hrereads.old hrereads.new hcompiled (fun chains' hchains' => ?_) hruns'
  obtain rfl := Except.ok.inj ((hok _).symm.trans hchains')
  exact hall

end Read

/-- **The record of an object.**  What the full pass makes of the record that was fetched for an
object is the record of what the selected fields mean in two passes. -/
theorem forced?_record_twice (hvalues : I.values = compiler.values) {y : Value}
    (hy : selection.fields.toRecord.forced? I.services env = some y) {el : Parameter}
    {scope' : Scope} {n n' : Memory} (hrereads : Rereads next selection.fields scope m' el scope' n)
    (ih : ∀ f ∈ selected, MeansTwice compiler I next f) {selection' : CompiledSelection}
    (hselect : Gives (compiler.compileSelection (.parameter el) scope' (.selects selected)) n
      selection' n')
    {env' : Environment} (hruns' : I.alone.Runs next (.parameter el) y selection'.constants env') :
    selection'.fields.toRecord.forced? I.services env'
      = recordOf (I.twiceAll selected) x := by
  -- The full pass draws numbers and leaves what was remembered alone.
  obtain ⟨made, n₁, rfl, hfields, hassemble, hrecord, hmade⟩ := compileSelection_full
    (I := fun n => el.id < n.next ∧ Memory.SameInside scope.path n m') hrereads.mode
    (fun f hf {_ _ _} hc hn => hrereads.kept (hprovides.drawn f hf hc).1 hn)
    ⟨hrereads.new, hrereads.fetched⟩ hselect
  have hincludes := includes_of_assemble (drawn_of_compileFields hprovides.drawn hfields).2
    hassemble
  rw [I.twiceAll_eq]
  refine forced?_made hprovides.apart hrecord fun e he => ?_
  obtain ⟨n₂, n₃, ⟨hnew, hsame⟩, hc⟩ := hmade e he
  have hmem : e.1 ∈ made.map Prod.fst := mem_map_of_mem he
  have hrereads' : Rereads next selection.fields scope m' el scope' n₂ :=
    { hrereads with new := hnew, fetched := hsame }
  have hruns'' : I.alone.Runs next (.parameter el) y e.2.constants env' :=
    ⟨hruns'.base, hruns'.context, fun p u hu =>
      hruns'.constants p u (hincludes _ (mem_map_of_mem he) p u hu)⟩
  unfold twiceMember
  cases hservice : e.1.field.definition.requiresService with
  | true =>
    exact forced?_service_twice hprovides hruns hy hrereads' hmem hc hruns'' hvalues hservice
  | false =>
    exact forced?_plain_twice hprovides hruns hy hrereads' hmem hc hruns'' hservice (ih e.1 hmem)

end Member

variable {e : Expanded}

/-- Where nothing was fetched but the objects themselves, the full pass compiles the selection as if
there had been no data pass. -/
theorem forced?_idle_twice (hvalues : I.values = compiler.values)
    (hsimple : e.Every (SelectedField.Simple I.services next)) (hunambiguous : e.Unambiguous)
    {resolved : Resolved} {compiled : Compiled} {selected : List Expanded} {p : Projection}
    (hp : Projection.Of compiler e resolved scope m m' compiled selected p)
    (hidle : (ExpandedSelection.selects selected).idle = true) (hty : p.element.ty.Bare)
    (hmode : scope.mode = .full) (hnext : next ≤ m.next) {env : Environment} {x : Value}
    (hruns : I.alone.Runs next (.parameter p.element) x p.selection.constants env) :
    p.selection.fields.toRecord.forced? I.services env = recordOf (I.twiceAll selected) x := by
  have honce := forced?_selection_once (I := I.alone) hty hp.gives (hp.simple hsimple)
    (hunambiguous.apart hp.selects)
    (fun f hf => meansOnce (I := I.alone) hvalues (hp.simple hsimple f hf)
      (hunambiguous.of_selects hp.selects hf)) (hp.mode.trans hmode)
    (hp.parameters ▸ mem_cons_self) (hp.number.symm ▸ hnext) (Nat.le_succ_of_le hnext) hruns
  rw [ExpandedSelection.idle, all_eq_true] at hidle
  rw [onceAll_eq] at honce
  rw [I.twiceAll_eq]
  refine honce.trans (recordOf_congr fun f hf => ?_)
  obtain ⟨hservice, hnothing⟩ := Bool.and_eq_true_iff.1 (hidle f hf)
  rw [twiceMember, if_pos hservice, served_of_readsNothing hnothing]

/-- **Reading back what was fetched.**  Where the data pass gives a value, the full pass over it
evaluates to what the field means in two passes. -/
theorem meansTwice (hvalues : I.values = compiler.values)
    (hsimple : e.Every (SelectedField.Simple I.services next)) (hunambiguous : e.Unambiguous) :
    MeansTwice compiler I next e := by
  induction e using Expanded.induct with
  | field e ih =>
    intro context c scope m m' fetch origin env x y hfetch hmode hobject hreads hc
      horigin hnext henv hy
      source scope' n n' compiled env' hcompiled hfull hpath hty hn hsame henv'
    obtain ⟨selections, hfield⟩ := hsimple.holds
    have hforce : y.force = some y := by
      obtain ⟨u, -, hu⟩ := Option.bind_eq_some_iff.1 hy
      exact Value.force_eq_self y (Value.eager_of_force hu)
    have hsource : source.value? I.services env' = some y := henv'.context
    by_cases hshape : e.field.definition.shape = .leaf
    · -- What the field resolves to was fetched, and is read back as it is.
      obtain ⟨rfl, -⟩ := (compileResolved_leaf hshape).1 hcompiled
      rw [forced?_leaf hvalues hsimple hobject hreads hc hnext hfetch hshape horigin henv] at hy
      rw [forced?, hsource, Option.bind_some, hforce, ← hy]
      refine Option.bind_congr fun v _ => ?_
      rw [twiceBelow, shaped, if_pos hshape]
    · obtain ⟨selected, p, q, hl⟩ := exists_layout hvalues hsimple hobject hreads hc
        hnext hfetch hshape
      obtain ⟨_, q', hq'⟩ := projection_of_compileResolved hshape hfield.extensions hcompiled
      obtain rfl := ExpandedSelection.selects.inj (hl.projection.selects.symm.trans hq'.selects)
      have hfull' : q'.scope.mode = .full := hq'.mode.trans hfull
      rw [hl.forced? hsimple hshape horigin henv, hl.isEmpty hsimple hmode] at hy
      obtain ⟨s, hs, hy⟩ := Option.bind_eq_some_iff.1 hy
      have hnone : ∀ r ∈ (none : Option Parameter), next ≤ r.id ∧ r.id < n.next :=
        fun r hr => absurd hr (Option.not_mem_none r)
      refine (hq'.forced?_moved hsimple hnone hshape env' source).trans ?_
      show ((source.value? I.services env').bind _) = _
      rw [hsource, Option.bind_some, hs, Option.bind_some,
        isEmpty_compileSelection hq'.gives hfull', twiceBelow, hq'.selects, twiceOf]
      by_cases hne : selected = []
      · subst hne
        rw [isEmpty_nil, if_pos rfl, hforce, twiceAll, shaped_nil hshape, ← hy]
        rfl
      have hmembers : I.twiceAll selected ≠ [] := by
        rw [I.twiceAll_eq]
        exact fun h => hne (map_eq_nil_iff.1 h)
      have hruns' : ∀ r, I.alone.Runs next (.parameter q'.element) r q'.selection.constants
          (env'.bind q'.element r) :=
        hq'.runs (I := I.alone) hsimple (fun b hb => absurd hb (Option.not_mem_none b)) hn
          henv'.base henv'.constants
      rw [if_neg (by simpa using hne)]
      cases hidle : (ExpandedSelection.selects selected).idle with
      | true =>
        rw [hidle, if_pos rfl] at hy
        rw [shaped_idle hshape hmembers, hy, Option.bind_some]
        refine congrArg (y.each _) (funext fun r => ?_)
        have hempty : q.selection.fields.isEmpty = true := (hl.isEmpty hsimple hmode).trans hidle
        have hunder : Ty.Under Ty.Bare source.ty e.field.definition.resolve.ty :=
          hty ▸ hl.under hempty (fun _ => rfl) hobject.bare
        exact forced?_idle_twice hvalues hsimple hunambiguous hq' hidle
          (hq'.element_ty hsimple hunder hne) hfull hn (hruns' r)
      | false =>
        rw [hidle, if_neg Bool.false_ne_true] at hy
        rw [shaped_members hshape hmembers]
        have hempty : q.selection.fields.isEmpty = false := (hl.isEmpty hsimple hmode).trans hidle
        have hprovides := hl.provides hsimple hunambiguous hmode hne
        have hrereads := hl.rereads hsimple hshape hempty hq' hfull hpath hty hn hsame
        refine Value.each_of_each hy (fun z r hr => ?_) fun z r hr => ?_
        · -- A record is not null.
          rw [SelectionMap.forced?_toRecord hprovides.distinct] at hr
          obtain ⟨members, -, rfl⟩ := Option.map_eq_some_iff.1 hr
          rfl
        · exact forced?_record_twice hprovides (hl.runs hsimple henv z) hvalues hr hrereads
            (fun f hf => ih selected hq'.selects f hf (hq'.simple hsimple f hf)
              (hunambiguous.of_selects hq'.selects hf)) hq'.gives (hruns' r)

/-! ## What has to be there -/

/-- Where the field means something in two passes, the data pass gives a value. -/
def Fetchable (compiler : Compiler) (I : Interpretation) (next : Nat) (e : Expanded) : Prop :=
  ∀ {context : Expr} {c : Parameter} {scope : Scope} {m m' : Memory} {fetch : Compiled}
    {origin : Value → Option Value} {env : Environment} {x v : Value},
    Gives (compiler.compileExpanded context scope e) m fetch m' → scope.mode = .dataOnly →
    context.ty.IsObject → context.ReadsOf c → c ∈ scope.parameters →
    I.Reaches next context e.field origin →
    next ≤ m.next → I.Runs next context x fetch.constants env →
    (origin x).bind (I.twiceBelow e) = some v →
    ∃ y, fetch.expression.forced? I.services env = some y

section Record

variable {selected : List Expanded} {element : Parameter} {selection : CompiledSelection}
  {env : Environment} {x : Value} {f : Expanded}

/-- What is compiled for a plain field can be fetched, if the field means something. -/
theorem exists_plain
    (hprovides : Provides compiler I.services next selected element scope m m' selection)
    (hf : f ∈ selected) {m₁ m₂ : Memory} {compiled : Compiled} {w : Value}
    (hruns : I.Runs next (.parameter element) x compiled.constants env)
    (ih : Fetchable compiler I next f) (hw : I.twiceMember f x = some w)
    (hdefers : defers scope.mode f.field = false) (hm₁ : next ≤ m₁.next)
    (hgives : Gives (compiler.compileExpanded (.parameter element)
      (scope.field f.field.responseKey) f) m₁ compiled m₂) :
    ∃ w, compiled.expression.forced? I.services env = some w := by
  have hservice : f.field.definition.requiresService = false := by
    rw [hprovides.mode] at hdefers
    simpa [defers] using hdefers
  rw [twiceMember, hservice, if_neg Bool.false_ne_true, I.twice_eq] at hw
  obtain ⟨_, hown⟩ := (hprovides.simple f hf).holds
  exact ih hgives hprovides.mode hprovides.object .parameter hprovides.mem
    (reaches_of_le hown.definition .parameter hprovides.old) hm₁ hruns hw

/-- What a service field reads can be fetched, if the field means something. -/
theorem exists_read {path : FieldPath} {dependencies : List (String × Expr)} {w : Value}
    (hcontext : (parameter element).value? I.services env = some x)
    (hw : I.twiceMember f x = some w) (hservice : f.field.definition.requiresService = true)
    (hok : serviceDependencies f.field.definition (.parameter element) path = .ok dependencies)
    {d : String × Expr} (hd : d ∈ dependencies) :
    ∃ w, d.2.forced? I.services env = some w := by
  obtain ⟨chains, hchains, rfl⟩ := serviceDependencies_eq_ok_iff.1 hok
  obtain ⟨d, hmem, rfl⟩ := mem_map.1 hd
  rw [twiceMember, if_pos hservice] at hw
  obtain ⟨o, ho, -⟩ := Option.bind_eq_some_iff.1 hw
  rw [reads?, hchains, Option.bind_some] at ho
  obtain ⟨members, hmembers, -⟩ := Option.map_eq_some_iff.1 ho
  obtain ⟨_, hnested⟩ := exists_mapEntries_iff.1 ⟨members, hmembers⟩ d hmem
  obtain ⟨w, hw, -⟩ := Option.map_eq_some_iff.1 hnested
  have hreads := (chainOn_of_dependencies
    ((chains?_eq_some_iff .operation).1 hchains) d hmem).readsOf .parameter
  refine ⟨w, ?_⟩
  rw [forced?, hreads.value?_replace (hcontext.trans (bind_self _ d.2.root x).symm)]
  exact hw

/-- If the selected fields mean something for an object in two passes, the record of it can be
fetched. -/
theorem exists_record {v : Value}
    (hprovides : Provides compiler I.services next selected element scope m m' selection)
    (hruns : I.Runs next (.parameter element) x selection.constants env)
    (ih : ∀ f ∈ selected, Fetchable compiler I next f)
    (hv : recordOf (I.twiceAll selected) x = some v) :
    ∃ y, selection.fields.toRecord.forced? I.services env = some y := by
  obtain ⟨members, hmembers, -⟩ := Option.map_eq_some_iff.1 hv
  have htwice : ∀ f ∈ selected, ∃ w, I.twiceMember f x = some w := by
    intro f hf
    rw [I.twiceAll_eq] at hmembers
    exact exists_mapEntries_iff.1 ⟨members, hmembers⟩ _ (mem_map_of_mem hf)
  obtain ⟨_, contributions, m₁, heq, hfields, hassemble⟩ :=
    compileSelection_gives.1 hprovides.selects
  cases heq
  have hmade := fun c (hc : c ∈ contributions) => exists_mem_of_forall₂
    (contributed_of_compileFields hprovides.drawn hprovides.numbered hfields) hc
  have hincludes := includes_of_assemble (drawn_of_compileFields hprovides.drawn hfields).2
    hassemble
  have hselected : ∀ c ∈ contributions, ∀ {key e}, c.entry? = some (key, e) →
      ∃ w, e.forced? I.services env = some w := by
    intro c hc key e hentry
    obtain ⟨f, hf, ⟨-, _, -, rfl⟩ | ⟨hplain, compiled, m₂, m₃, hm₂, hgives, rfl⟩⟩ := hmade c hc
    · cases hentry
    · obtain ⟨rfl, rfl⟩ := Prod.mk.inj (Option.some.inj hentry)
      obtain ⟨w, hw⟩ := htwice f hf
      exact exists_plain hprovides hf ⟨hruns.base, hruns.context, fun p u hu =>
        hruns.constants p u (hincludes _ hc p u hu)⟩ (ih f hf) hw hplain hm₂ hgives
  have hfetched : ∀ c ∈ contributions, ∀ d ∈ c.dependencies,
      ∃ w, d.2.2.forced? I.services env = some w := by
    intro c hc d hd
    obtain ⟨f, hf, ⟨hdefers, dependencies, hok, rfl⟩ | ⟨-, _, _, _, -, -, rfl⟩⟩ := hmade c hc
    · obtain ⟨d, hmem, rfl⟩ := mem_map.1 hd
      obtain ⟨w, hw⟩ := htwice f hf
      exact exists_read hruns.context hw (Bool.and_eq_true_iff.1 hdefers).2 hok hmem
    · cases hd
  -- Every field of the record was compiled, or fetched for a service field.
  have hforced : ∀ r ∈ selection.fields.fields, ∃ w, r.2.forced? I.services env = some w := by
    obtain ⟨merged, hfetch, rfl⟩ := assemble_gives.1 hassemble
    have hadds := adds_fetchAll (Q := fun e => ∃ w, e.forced? I.services env = some w)
      (fun d hd => by
        obtain ⟨c, hc, hd⟩ := mem_flatMap.1 hd
        exact hfetched c hc d hd) hfetch
    intro r hr
    rcases hadds.mem hr with hr | hr
    · rw [fields_of_contributions] at hr
      obtain ⟨_, hentry, -⟩ := Merge.mem_of_last? (Merge.mem_merge.1 hr).2
      obtain ⟨c, hc, hentry⟩ := mem_filterMap.1 hentry
      exact hselected c hc hentry
    · exact hr
  rw [SelectionMap.forced?_toRecord hprovides.distinct]
  obtain ⟨members, hmembers⟩ := exists_mapEntries_iff.2 hforced
  exact ⟨.object members, by rw [hmembers, Option.map_some]⟩

end Record

/-- **The data pass suffices.**  Where the field means something in two passes, the data pass gives
a value. -/
theorem fetchable (hvalues : I.values = compiler.values)
    (hsimple : e.Every (SelectedField.Simple I.services next)) (hunambiguous : e.Unambiguous) :
    Fetchable compiler I next e := by
  induction e using Expanded.induct with
  | field e ih =>
    intro context c scope m m' fetch origin env x v hfetch hmode hobject hreads hc
      horigin hnext henv hv
    by_cases hshape : e.field.definition.shape = .leaf
    · rw [forced?_leaf hvalues hsimple hobject hreads hc hnext hfetch hshape horigin henv]
      refine ⟨v, ?_⟩
      rw [← hv]
      refine Option.bind_congr fun s _ => ?_
      rw [twiceBelow, shaped, if_pos hshape]
    · obtain ⟨selected, p, q, hl⟩ := exists_layout hvalues hsimple hobject hreads hc
        hnext hfetch hshape
      obtain ⟨s, hs, hv⟩ := Option.bind_eq_some_iff.1 hv
      rw [hl.forced? hsimple hshape horigin henv, hl.isEmpty hsimple hmode, hs, Option.bind_some]
      rw [twiceBelow, hl.projection.selects, twiceOf] at hv
      by_cases hne : selected = []
      · subst hne
        rw [twiceAll, shaped_nil hshape] at hv
        exact ⟨v, hv⟩
      have hmembers : I.twiceAll selected ≠ [] := by
        rw [I.twiceAll_eq]
        exact fun h => hne (map_eq_nil_iff.1 h)
      cases hidle : (ExpandedSelection.selects selected).idle with
      | true =>
        rw [hidle, shaped_idle hshape hmembers] at hv
        obtain ⟨y, hy, -⟩ := Option.bind_eq_some_iff.1 hv
        exact ⟨y, hy⟩
      | false =>
        rw [hidle, shaped_members hshape hmembers] at hv
        exact Value.exists_each hv fun z r hr => exists_record
          (hl.provides hsimple hunambiguous hmode hne) (hl.runs hsimple henv z)
          (fun f hf => ih selected hl.projection.selects f hf (hl.projection.simple hsimple f hf)
            (hunambiguous.of_selects hl.projection.selects hf)) hr

end Compiler
end QueryProjection
