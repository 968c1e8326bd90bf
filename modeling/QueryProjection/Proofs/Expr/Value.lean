import QueryProjection.Proofs.Assoc
import QueryProjection.Proofs.Expr.Parts

/-!
# Values of expressions

The theorems about responses speak of expressions that have a value, and not of the events on the
way or of which failure comes first.  So an evaluation is looked at here as an `Option`:
`Expr.value?` is the value of an expression, and `Expr.forced?` the value with every lazy sequence
in it iterated.

In an `Option` the order of two evaluations does not matter if both have to succeed.  That is why
the forced value of a projection can be described without the lazy sequence in between: see
`forced?_projectEach`, `forced?_projectOne` and `forced?_record`.
-/

namespace QueryProjection

open List

open Expr Run Value

/-! ## Lists of options -/

section MapM

variable {α β γ : Type} {f : α → Option β} {as : List α} {bs : List β} {entries : List (String × α)}
  {result : List (String × β)}

theorem mapM_eq_some_iff : as.mapM f = some bs ↔ Forall₂ (fun a b => f a = some b) as bs := by
  induction as generalizing bs with
  | nil => cases bs <;> simp
  | cons a as ih =>
    rw [mapM_cons]
    constructor
    · intro h
      obtain ⟨b, hb, h⟩ := Option.bind_eq_some_iff.1 h
      obtain ⟨rest, hrest, h⟩ := Option.bind_eq_some_iff.1 h
      cases h
      exact .cons hb (ih.1 hrest)
    · rintro (_ | ⟨hb, hrest⟩)
      simp [hb, ih.2 hrest]

/-- Two walks over a list that both have to succeed are one. -/
theorem mapM_bind_mapM (f : α → Option β) (g : β → Option γ) (as : List α) :
    ((as.mapM f).bind fun bs => bs.mapM g) = as.mapM fun a => (f a).bind g := by
  induction as with
  | nil => simp
  | cons a as ih =>
    simp only [mapM_cons, ← ih, Option.bind_eq_bind, Option.pure_def]
    cases f a with
    | none => simp
    | some b =>
      cases as.mapM f with
      | none => cases g b <;> simp
      | some bs => simp

variable {δ : Type}

theorem mapM_bind_map_mapM (f : α → Option β) (g : β → Option γ) (h : List γ → δ) (as : List α) :
    ((as.mapM f).bind fun bs => (bs.mapM g).map h) = (as.mapM fun a => (f a).bind g).map h := by
  rw [← mapM_bind_mapM]
  cases as.mapM f <;> rfl

theorem exists_mem_of_forall₂ {R : α → β → Prop} (h : Forall₂ R as bs) {b : β} (hb : b ∈ bs) :
    ∃ a ∈ as, R a b := by
  induction h with
  | nil => exact absurd hb not_mem_nil
  | @cons a b' as bs hab _ ih =>
    rcases mem_cons.1 hb with rfl | hb
    · exact ⟨a, mem_cons_self, hab⟩
    · obtain ⟨a', ha', hab'⟩ := ih hb
      exact ⟨a', mem_cons_of_mem _ ha', hab'⟩

theorem forall₂_trans {R : α → β → Prop} {S : β → γ → Prop} {T : α → γ → Prop} {cs : List γ}
    (h : Forall₂ R as bs)
    (h' : Forall₂ S bs cs) (hT : ∀ a b c, R a b → S b c → T a c) : Forall₂ T as cs := by
  induction h generalizing cs with
  | nil =>
    cases h'
    exact .nil
  | cons hab _ ih =>
    cases h' with
    | cons hbc hrest => exact .cons (hT _ _ _ hab hbc) (ih hrest)

theorem map_eq_map_of_forall₂ {R : α → β → Prop} (h : Forall₂ R as bs) {f : α → γ} {g : β → γ}
    (hfg : ∀ a b, R a b → g b = f a) : bs.map g = as.map f := by
  induction h with
  | nil => rfl
  | cons hab _ ih => rw [map_cons, map_cons, hfg _ _ hab, ih]

theorem mem_of_mapM (h : as.mapM f = some bs) {b : β} (hb : b ∈ bs) : ∃ a ∈ as, f a = some b :=
  exists_mem_of_forall₂ (mapM_eq_some_iff.1 h) hb

theorem mapM_congr {g : α → Option β} (h : ∀ a ∈ as, f a = g a) : as.mapM f = as.mapM g := by
  induction as with
  | nil => rfl
  | cons a as ih =>
    rw [mapM_cons, mapM_cons, h a mem_cons_self, ih fun b hb => h b (mem_cons_of_mem _ hb)]

/-- What `f` gives for the value of each entry, under the same key. -/
def mapEntries (f : α → Option β) (entries : List (String × α)) : Option (List (String × β)) :=
  entries.mapM fun e => (f e.2).map (e.1, ·)

theorem mapEntries_cons (f : α → Option β) (e : String × α) (entries : List (String × α)) :
    mapEntries f (e :: entries)
      = (f e.2).bind fun b => (mapEntries f entries).map ((e.1, b) :: ·) := by
  simp only [mapEntries, mapM_cons]
  cases f e.2 with
  | none => rfl
  | some b => cases entries.mapM fun e : String × α => (f e.2).map (e.1, ·) <;> rfl

theorem mapEntries_eq_some_iff :
    mapEntries f entries = some result
      ↔ Forall₂ (fun e r => r.1 = e.1 ∧ f e.2 = some r.2) entries result := by
  rw [mapEntries, mapM_eq_some_iff]
  refine iff_of_eq (congrArg (Forall₂ · entries result) ?_)
  funext e r
  obtain ⟨key, b⟩ := r
  simp only [Option.map_eq_some_iff, Prod.mk.injEq, eq_iff_iff]
  constructor
  · rintro ⟨b, hb, rfl, rfl⟩
    exact ⟨rfl, hb⟩
  · rintro ⟨rfl, hb⟩
    exact ⟨b, hb, rfl, rfl⟩

theorem keys_of_mapEntries (h : mapEntries f entries = some result) :
    result.map Prod.fst = entries.map Prod.fst :=
  map_eq_map_of_forall₂ (mapEntries_eq_some_iff.1 h) fun _ _ h => h.1

theorem mem_of_mapEntries (h : mapEntries f entries = some result) {key : String} {b : β}
    (hmem : (key, b) ∈ result) : ∃ a, (key, a) ∈ entries ∧ f a = some b := by
  obtain ⟨⟨k, a⟩, ha, rfl, hab⟩ := exists_mem_of_forall₂ (mapEntries_eq_some_iff.1 h) hmem
  exact ⟨a, ha, hab⟩

theorem mapEntries_bind_map_mapEntries (f : α → Option β) (g : β → Option γ)
    (h : List (String × γ) → δ) (entries : List (String × α)) :
    ((mapEntries f entries).bind fun bs => (mapEntries g bs).map h)
      = (mapEntries (fun a => (f a).bind g) entries).map h := by
  simp only [mapEntries]
  rw [mapM_bind_map_mapM]
  congr 1
  refine mapM_congr fun e _ => ?_
  cases f e.2 <;> rfl

end MapM

/-! ## Runs -/

namespace Run

variable {ε α β : Type}

/-- What a run ends with, if it does not fail. -/
def value? (run : Run ε α) : Option α :=
  run.result.toOption

@[simp] theorem value?_pure (a : α) : (pure a : Run ε α).value? = some a := rfl

@[simp] theorem value?_fail (e : ε) : (fail e : Run ε α).value? = none := rfl

@[simp] theorem value?_bind (run : Run ε α) (next : α → Run ε β) :
    (run >>= next).value? = run.value?.bind fun a => (next a).value? := by
  simp only [value?, result_bind]
  cases run.result <;> rfl

theorem value?_eq_some_iff {run : Run ε α} {a : α} :
    run.value? = some a ↔ run.result = .ok a := by
  unfold value?
  cases run.result <;> simp [Except.toOption]

end Run

/-! ## Forcing -/

namespace Value

/-- The value with every lazy sequence in it iterated, if none of them fails. -/
def force (v : Value) : Option Value :=
  v.materialize.value?

theorem value?_materializeItems (items : List Value) :
    (materializeItems items).value? = items.mapM force := by
  induction items with
  | nil => rfl
  | cons item rest ih =>
    simp only [materializeItems, value?_bind, value?_pure, ih, mapM_cons]
    rfl

theorem value?_materializeMembers (members : List (String × Value)) :
    (materializeMembers members).value?
      = mapEntries force members := by
  induction members with
  | nil => rfl
  | cons m rest ih =>
    obtain ⟨key, v⟩ := m
    simp only [materializeMembers, value?_bind, value?_pure, ih, mapEntries_cons,
      Option.map_eq_bind]
    rfl

@[simp] theorem force_null : force .null = some .null := rfl

@[simp] theorem force_list (items : List Value) :
    force (.list items) = (items.mapM force).map .list := by
  simp only [force, materialize, value?_bind, value?_pure, value?_materializeItems,
    Option.map_eq_bind]
  rfl

@[simp] theorem force_object (members : List (String × Value)) :
    force (.object members) = (mapEntries force members).map .object := by
  simp only [force, materialize, value?_bind, value?_pure, value?_materializeMembers,
    Option.map_eq_bind]
  rfl

theorem force_lazy (iterate : Unit → Iteration) :
    force (.lazy iterate)
      = (iterate ()).toRun.value?.bind fun items => (items.mapM force).map .list := by
  cases h : iterate () with
  | fails events error => simp [force, materialize, h, materializeIteration, Iteration.toRun]; rfl
  | yields events items =>
    have hitems :
        (⟨events, .ok items⟩ : Run EvaluationError (List Value)).value? = some items := rfl
    have hobserve : (observeAll events : Run EvaluationError Unit).value? = some () := rfl
    simp only [force, materialize, h, materializeIteration, Iteration.toRun, value?_bind,
      hobserve, Option.bind_some, value?_materializeItems, value?_pure, hitems]
    cases items.mapM force <;> rfl

theorem force_ofRun (run : Unit → Run EvaluationError (List Value)) :
    force (.ofRun run) = (run ()).value?.bind fun items => (items.mapM force).map .list := by
  rw [ofRun, force_lazy, Iteration.toRun_ofRun]

/-- What a function gives for the elements of a value: null stays null, an object is mapped member
by member, and everything else has to have elements. -/
def project (v : Value) (f : Value → Option Value) : Option Value :=
  match v with
  | .null => some .null
  | .object members => (mapEntries f members).map .object
  | v => v.elements.value?.bind fun items => (items.mapM f).map .list

variable {v w : Value} {f : Value → Option Value}

theorem project_of_elements {items : List Value} (h : v.elements.value? = some items) :
    v.project f = (items.mapM f).map list := by
  cases v with
  | list | lazy => exact congrArg (Option.bind · fun items => (items.mapM f).map list) h
  | _ => cases h

theorem project_cases (h : v.project f = some w) :
    v = .null ∧ w = .null
      ∨ (∃ members results, v = .object members ∧ mapEntries f members = some results
        ∧ w = .object results)
      ∨ ∃ items results, v.elements.value? = some items ∧ items.mapM f = some results
        ∧ w = .list results := by
  cases v with
  | null =>
    cases h
    exact .inl ⟨rfl, rfl⟩
  | object members =>
    obtain ⟨results, hresults, rfl⟩ := Option.map_eq_some_iff.1 h
    exact .inr (.inl ⟨members, results, rfl, hresults, rfl⟩)
  | _ =>
    simp only [project] at h
    obtain ⟨items, hitems, h⟩ := Option.bind_eq_some_iff.1 h
    obtain ⟨results, hresults, rfl⟩ := Option.map_eq_some_iff.1 h
    exact .inr (.inr ⟨items, results, hitems, hresults, rfl⟩)

end Value

/-! ## Expressions -/

namespace Expr

variable (services : Provider) (env : Environment)

/-- The value of an expression, if it has one. -/
def value? (e : Expr) : Option Value :=
  (e.valueOf services env).value?

/-- The value of an expression with every lazy sequence in it iterated. -/
def forced? (e : Expr) : Option Value :=
  (e.value? services env).bind Value.force

section Value?

variable {services env}

-- The equations of `operand` are made here once, before the many lemmas that rewrite with them.
attribute [local simp] operand

@[simp] theorem value?_parameter (p : Parameter) :
    (parameter p).value? services env = env p := by
  simp only [value?, valueOf, operand]
  cases env p <;> rfl

theorem value?_member (receiver : Expr) (name : String) (ty : Ty) :
    (member receiver name ty).value? services env
      = (receiver.value? services env).bind fun v => (readMember name v).value? := by
  simp only [value?, valueOf, operand, value?_bind]

theorem value?_call (method : Method) (receiver : Expr) (arguments : List Expr) :
    (call method receiver arguments).value? services env
      = (receiver.value? services env).bind fun v =>
          (method.apply v (arguments.map (operand services env))).value? := by
  simp only [value?, valueOf, operand, value?_bind, operands_eq_map]

theorem value?_binary (op : Operator) (left right : Expr) :
    (binary op left right).value? services env
      = (left.value? services env).bind fun l =>
          match op.shortcut? l with
          | some v => some v
          | none => (right.value? services env).map (op.combine l) := by
  simp only [value?, valueOf, operand, Operator.apply, value?_bind]
  congr 1
  funext l
  cases op.shortcut? l with
  | some v => rfl
  | none =>
    simp only [value?_bind, value?_pure, Option.map_eq_bind]
    rfl

theorem value?_projectOne (source : Expr) (element : Parameter) (body : Expr) :
    (projectOne source element body).value? services env
      = (source.value? services env).bind fun v =>
          if v.isNull then some .null else body.value? services (env.bind element v) := by
  simp only [value?, valueOf, operand, value?_bind]
  congr 1
  funext v
  split <;> rfl

theorem value?_mapItems (body : Value → Run EvaluationError Value) (items : List Value) :
    (mapItems body items).value? = items.mapM fun v => (body v).value? := by
  induction items with
  | nil => rfl
  | cons item rest ih =>
    simp only [mapItems, value?_bind, ih, value?_pure, mapM_cons]
    rfl

theorem value?_mapMembers (body : Value → Run EvaluationError Value)
    (members : List (String × Value)) :
    (mapMembers body members).value?
      = mapEntries (fun v => (body v).value?) members := by
  induction members with
  | nil => rfl
  | cons m rest ih =>
    obtain ⟨key, v⟩ := m
    simp only [mapMembers, value?_bind, ih, value?_pure, mapEntries_cons, Option.map_eq_bind]
    rfl

/-! ## Forced projections -/

theorem value?_materialize (inner : Expr) :
    (materialize inner).value? services env
      = (inner.value? services env).bind fun v =>
          if v.isLazy then v.elements.value?.map .list else some v := by
  simp only [value?, valueOf, operand, value?_bind]
  congr 1
  funext v
  split
  · simp only [value?_bind, value?_pure, Option.map_eq_bind]
    rfl
  · rfl

theorem forced?_materialize (inner : Expr) :
    (materialize inner).forced? services env = inner.forced? services env := by
  simp only [forced?, value?_materialize, Option.bind_assoc]
  congr 1
  funext v
  cases v with
  | lazy iterate =>
    simp only [isLazy, if_true, elements, force_lazy]
    cases (iterate ()).toRun.value? <;> simp
  | _ => rfl

theorem forced?_projectOne (source : Expr) (element : Parameter) (body : Expr) :
    (projectOne source element body).forced? services env
      = (source.value? services env).bind fun v =>
          if v.isNull then some .null else body.forced? services (env.bind element v) := by
  simp only [forced?, value?_projectOne, Option.bind_assoc]
  congr 1
  funext v
  split <;> rfl

theorem value?_projectEach (source : Expr) (element : Parameter) (body : Expr) :
    (projectEach source element body).value? services env
      = (source.value? services env).bind fun v =>
          (projectValue v fun item => body.valueOf services (env.bind element item)).value? := by
  simp only [value?, valueOf, operand, value?_bind]

theorem forced?_projectEach (source : Expr) (element : Parameter) (body : Expr) :
    (projectEach source element body).forced? services env
      = (source.value? services env).bind fun v =>
          v.project fun item => body.forced? services (env.bind element item) := by
  simp only [forced?, value?_projectEach, Option.bind_assoc]
  congr 1
  funext v
  have hlazy : ((pure (.ofRun fun _ => do
        mapItems (fun item => body.valueOf services (env.bind element item)) (← v.elements)) :
      Run EvaluationError Value).value?.bind force)
      = v.elements.value?.bind fun items =>
          (items.mapM fun item => body.forced? services (env.bind element item)).map .list := by
    simp only [value?_pure, Option.bind_some, force_ofRun, value?_bind,
      Option.bind_assoc, value?_mapItems]
    congr 1
    funext items
    exact mapM_bind_map_mapM _ _ _ _
  cases v with
  | null => rfl
  | object members =>
    have hmembers : (projectValue (.object members) fun item =>
          body.valueOf services (env.bind element item)).value?
        = (mapEntries (fun item => body.value? services (env.bind element item)) members).map
            .object := by
      simp only [projectValue, value?_bind, value?_mapMembers, value?_pure, Option.map_eq_bind]
      rfl
    simp only [hmembers, Option.bind_map, Function.comp_def, force_object, project]
    exact mapEntries_bind_map_mapEntries _ _ _ _
  | _ => exact hlazy

variable {shape : Shape} {entries : List (String × Expr)}

theorem value?_readFields (names : shape.map Prod.fst = entries.map Prod.fst) :
    (readFields shape ((entries.map Prod.snd).map (operand services env))).value?
      = mapEntries (value? services env) entries := by
  induction entries generalizing shape with
  | nil =>
    obtain rfl : shape = [] := by simpa using names
    rfl
  | cons e rest ih =>
    cases shape with
    | nil => simp at names
    | cons field shape =>
      obtain ⟨hname, names⟩ : field.1 = e.1 ∧ shape.map Prod.fst = rest.map Prod.fst := by
        simpa using names
      simp only [map_cons, readFields, value?_bind, ih names, value?_pure,
        mapEntries_cons, hname, Option.map_eq_bind]
      rfl

theorem forced?_record (names : shape.map Prod.fst = entries.map Prod.fst)
    (hnodup : (entries.map Prod.fst).Nodup) :
    (record shape (entries.map Prod.snd)).forced? services env
      = (mapEntries (forced? services env) entries).map .object := by
  have hvalue : (record shape (entries.map Prod.snd)).value? services env
      = (mapEntries (value? services env) entries).map .object := by
    simp only [value?, valueOf, operand, value?_bind, value?_pure, operands_eq_map]
    rw [value?_readFields names, Option.map_eq_bind]
    cases h : mapEntries (value? services env) entries with
    | none => rfl
    | some members =>
      simp only [Option.bind_some, Function.comp_apply, ofMembers]
      rw [Assoc.ofList_eq_self (keys_of_mapEntries h ▸ hnodup)]
  simp only [forced?, hvalue, Option.bind_map, Function.comp_def, force_object]
  exact mapEntries_bind_map_mapEntries _ _ _ _

end Value?

end Expr
end QueryProjection
