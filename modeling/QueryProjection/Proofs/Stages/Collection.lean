import QueryProjection.Proofs.Arguments

/-!
# Chains of extensions

A `Stage` is an extension that filters, sorts, pages or numbers, with the predicate or the key as an
expression over parameters of its own, in which the hook puts the element and the argument.
`Stage.apply` says what a stage is for: it is a function on lists, and has nothing to do with
expressions of collections or with the records that a numbering extension swaps the elements for.

The collection that the hooks make has elements of another kind after each numbering extension.
What remains the same is that every element stands for one of the original ones,
`PreSelection.original?`:

* `Stage.window_step` says what a filtering, sorting or paging stage does to the value of the
  collection, and `Stage.position_step` what a numbering one does;
* `Stage.run_windows` and `Stage.run_stages` are the same for a whole chain.
-/

namespace QueryProjection

open Expr List

open Environment Extension Value

/-! ## Values and their elements -/

variable {w' item : Value} {p : Parameter}

namespace Value

/-- The elements of a sequence, or the values of the members of an object. -/
def items? : Value → Option (List Value)
  | .object members => some (members.map Prod.snd)
  | v => v.elements.value?

variable {v w : Value} {F G : List Value → List Value → Prop}

theorem items?_of_elements {items : List Value} (h : v.elements.value? = some items) :
    v.items? = some items := by
  cases v with
  | object members => cases h
  | _ => exact h

/-- `w'` is null if `w` is, and otherwise `F` relates the elements of `w` to those of `w'`. -/
structure Through (F : List Value → List Value → Prop) (w w' : Value) : Prop where
  null : w'.isNull = w.isNull
  items : ∀ items', w'.items? = some items' → ∃ items, w.items? = some items ∧ F items items'

theorem Through.refl (hF : ∀ items, F items items) (w : Value) : w.Through F w :=
  ⟨rfl, fun items h => ⟨items, h, hF items⟩⟩

theorem Through.imp (hFG : ∀ items items', F items items' → G items items') (h : w.Through F w') :
    w.Through G w' :=
  ⟨h.null, fun items' hitems' =>
    let ⟨items, hitems, hF⟩ := h.items items' hitems'
    ⟨items, hitems, hFG items items' hF⟩⟩

theorem Through.trans {H : List Value → List Value → Prop}
    (hFG : ∀ items items' items'', F items items' → G items' items'' → H items items'') {u : Value}
    (h : u.Through F v) (h' : v.Through G w) : u.Through H w := by
  refine ⟨h'.null.trans h.null, fun items'' hitems'' => ?_⟩
  obtain ⟨items', hitems', hG⟩ := h'.items items'' hitems''
  obtain ⟨items, hitems, hF⟩ := h.items items' hitems'
  exact ⟨items, hitems, hFG items items' items'' hF hG⟩

end Value

/-! ## Methods -/

namespace Method

variable {items : List Value} {amount : Value}

theorem through_of_apply {method : Method} {F : List Value → List Value → Prop} {w w' : Value}
    {operands : List Operand}
    (hlist : ∀ items, (method.applyToItems items operands).value? = some w' →
      ∃ items', w' = .list items' ∧ F items items')
    (h : (method.apply w operands).value? = some w') : w.Through F w' := by
  unfold apply at h
  split at h
  · rename_i hnull
    obtain rfl := Option.some.inj h
    exact ⟨hnull.symm, fun _ h => nomatch h⟩
  · rename_i hnull
    rw [Run.value?_bind] at h
    obtain ⟨items, hitems, h⟩ := Option.bind_eq_some_iff.1 h
    obtain ⟨items', rfl, hF⟩ := hlist items h
    refine ⟨(Bool.eq_false_iff.2 hnull).symm, fun items'' hitems'' => ?_⟩
    obtain rfl := Option.some.inj hitems''
    exact ⟨items, items?_of_elements hitems, hF⟩

variable {w w' : Value} {o o' : Operand}

theorem through_filter (h : (Method.filter.apply w [o]).value? = some w') :
    w.Through (fun items items' => items' = items.filter fun item =>
      (o (some item)).value?.any isTrue) w' := by
  refine through_of_apply (fun items hitems => ?_) h
  rw [applyToItems, Run.value?_bind] at hitems
  obtain ⟨kept, hkept, hitems⟩ := Option.bind_eq_some_iff.1 hitems
  exact ⟨kept, (Option.some.inj hitems).symm, eq_filter_of_keepWhere hkept⟩

theorem through_orderBy {descending : Value} (hdescending : (o' none).value? = some descending)
    (h : (Method.orderBy.apply w [o, o']).value? = some w') :
    w.Through (fun items items' => items'
      = ranked descending.isTrue (fun item => (o (some item)).value?.getD .null) items) w' := by
  refine through_of_apply (fun items hitems => ?_) h
  rw [applyToItems, Run.value?_bind, hdescending, Option.bind_some, Run.value?_bind] at hitems
  obtain ⟨keyed, hkeyed, hitems⟩ := Option.bind_eq_some_iff.1 hitems
  refine ⟨_, (Option.some.inj hitems).symm, ?_⟩
  rw [eq_map_of_withKeys hkeyed, sortBy_map]

theorem through_skip (hamount : (o none).value? = some amount)
    (h : (Method.skip.apply w [o]).value? = some w') :
    w.Through (fun items items' => items' = amount.count?.elim items fun n => items.drop n) w' := by
  refine through_of_apply (fun items hitems => ⟨_, ?_, rfl⟩) h
  exact eq_list_of_counted (f := (items.drop ·)) hamount hitems

theorem through_take (hamount : (o none).value? = some amount)
    (h : (Method.take.apply w [o]).value? = some w') :
    w.Through (fun items items' => items' = amount.count?.elim items fun n => items.take n) w' := by
  refine through_of_apply (fun items hitems => ⟨_, ?_, rfl⟩) h
  exact eq_list_of_counted (f := (items.take ·)) hamount hitems

theorem through_enumerate (h : (Method.enumerate.apply w []).value? = some w') :
    w.Through (fun items items' => items' = indexedFrom 0 items) w' := by
  refine through_of_apply (fun items hitems => ?_) h
  rw [applyToItems, Run.value?_pure] at hitems
  exact ⟨_, (Option.some.inj hitems).symm, rfl⟩

end Method

/-! ## Stages -/

/-- Nothing in the expression, free or bound, is as new as this number. -/
def Expr.OlderThan (n : Nat) (e : Expr) : Prop :=
  (∀ p ∈ e.freeParameters, p.id < n) ∧ ∀ p ∈ e.binders, p.id < n

instance (n : Nat) (e : Expr) : Decidable (e.OlderThan n) :=
  inferInstanceAs (Decidable (_ ∧ _))

/-- A step in what the extensions of a field make of its collection. -/
inductive Stage where
  /-- Keeps the elements of which the predicate is true, an expression over parameters for the
  element and for the value of the argument. -/
  | filter (argument : ArgumentDefinition) (element value : Parameter) (predicate : Expr)
  /-- Sorts by a key, an expression over a parameter for the element. -/
  | sort (element : Parameter) (key : Expr)
  | page (defaultSize maxSize : Option Int64)
  /-- Numbers the elements, under this key. -/
  | position (key : String)

namespace Stage

/-- The extension that takes this step.  It puts the expressions of the element and of the argument
into the predicate or the key. -/
def extension : Stage → Extension
  | .filter argument element value predicate =>
    .filter argument fun e v =>
      return (predicate.replace (.identity element) e).replace (.identity value) v
  | .sort element key => .sort fun e => return key.replace (.identity element) e
  | .page defaultSize maxSize => .offsetPaging defaultSize maxSize
  | .position key => .position key

/-- The predicate or the key was made before anything with this number. -/
def OlderThan (n : Nat) : Stage → Prop
  | .filter _ _ value predicate => value.id < n ∧ predicate.OlderThan n
  | .sort _ key => key.OlderThan n
  | .page _ _ => True
  | .position _ => True

instance (n : Nat) : (stage : Stage) → Decidable (stage.OlderThan n)
  | .filter _ _ _ _ => inferInstanceAs (Decidable (_ ∧ _))
  | .sort _ key => inferInstanceAs (Decidable (key.OlderThan n))
  | .page _ _ => inferInstanceAs (Decidable True)
  | .position _ => inferInstanceAs (Decidable True)

/-- The names of the arguments that a stage reads. -/
def reads : Stage → List String
  | .filter argument _ _ _ => [argument.name]
  | .sort _ _ => ["descending"]
  | .page _ _ => ["skip", "take"]
  | .position _ => []

theorem map_name_arguments (stage : Stage) :
    stage.extension.arguments.map ArgumentDefinition.name = stage.reads := by
  cases stage <;> rfl

/-- The key of a stage that numbers the elements. -/
def positionKey? : Stage → Option String
  | .position key => some key
  | _ => none

section Apply

variable {α β : Type} (services : Provider) (env : Environment) (given : String → Option Value)
  {R : α → β → Prop} {original : α → Value} {original' : β → Value} {as : List α} {bs : List β}

/-- What a stage makes of a list whose elements stand for the values that `original` gives.  Without
its argument, or with null for it, a filter keeps everything. -/
def apply (original : α → Value) : Stage → List α → List α
  | .filter argument element value predicate, xs =>
    ((given argument.name).filter fun a => !a.isNull).elim xs fun a =>
      xs.filter fun x =>
        (predicate.value? services ((env.bind value a).bind element (original x))).any Value.isTrue
  | .sort element key, xs =>
    Value.ranked ((given "descending").any Value.isTrue)
      (fun x => (key.value? services (env.bind element (original x))).getD .null) xs
  | .page _ _, xs =>
    let rest := ((given "skip").bind Value.count?).elim xs fun n => xs.drop n
    ((given "take").bind Value.count?).elim rest fun n => rest.take n
  | .position _, xs => xs

/-- What stages make of a list, one after the other. -/
def applyAll (original : α → Value) (stages : List Stage) (xs : List α) : List α :=
  stages.foldl (fun xs stage => stage.apply services env given original xs) xs

/-- A stage sees of the elements of a list nothing but what they stand for. -/
theorem forall₂_apply (hR : ∀ a b, R a b → original a = original' b) (stage : Stage)
    (h : Forall₂ R as bs) : Forall₂ R (stage.apply services env given original as)
      (stage.apply services env given original' bs) := by
  cases stage with
  | filter argument element value predicate =>
    rw [apply, apply]
    cases (given argument.name).filter fun a => !a.isNull with
    | none => exact h
    | some a =>
      refine rel_filter (fun x y hxy => ?_) h
      dsimp only
      rw [hR x y hxy]
  | sort element key =>
    rw [apply, apply, ← insertionSort_eq_ranked, ← insertionSort_eq_ranked]
    refine forall₂_insertionSort (fun a b a' b' ha hb => ?_) h
    rw [hR a a' ha, hR b b' hb]
  | page defaultSize maxSize =>
    have hrest : Forall₂ R (((given "skip").bind count?).elim as fun n => as.drop n)
        (((given "skip").bind count?).elim bs fun n => bs.drop n) := by
      cases (given "skip").bind count? with
      | none => exact h
      | some n => exact forall₂_drop n h
    rw [apply, apply]
    cases (given "take").bind count? with
    | none => exact hrest
    | some n => exact forall₂_take n hrest
  | position key => exact h

theorem forall₂_applyAll (hR : ∀ a b, R a b → original a = original' b) (stages : List Stage)
    (h : Forall₂ R as bs) : Forall₂ R (applyAll services env given original stages as)
      (applyAll services env given original' stages bs) := by
  induction stages generalizing as bs with
  | nil => exact h
  | cons stage rest ih => exact ih (forall₂_apply services env given hR stage h)

end Apply

end Stage

/-! ## What the elements stand for -/

namespace PreSelection

/-- The original element that an element of the collection stands for. -/
def original? (services : Provider) (env : Environment) (pre : PreSelection)
    (item : Value) : Option Value :=
  pre.elementContext.value? services (env.bind pre.element item)

/-- Where the collection of `pre'` has a value, so has that of `pre`, and `F` relates the
elements. -/
def Leads (services : Provider) (env : Environment) (F : List Value → List Value → Prop)
    (pre pre' : PreSelection) : Prop :=
  ∀ {w'}, pre'.collection.value? services env = some w' →
    ∃ w, pre.collection.value? services env = some w ∧ w.Through F w'

variable {services : Provider} {env env' : Environment} {pre : PreSelection}

theorem original?_congr {pre' : PreSelection} (helement : pre'.element = pre.element)
    (hcontext : pre'.elementContext = pre.elementContext) :
    pre'.original? services env = pre.original? services env := by
  funext item
  rw [original?, original?, helement, hcontext]

theorem value?_contextOf (hreads : pre.elementContext.ReadsOf pre.element)
    (hp : env' p = some item) :
    (contextOf pre p).value? services env' = pre.original? services env item := by
  refine hreads.value?_replace ?_
  rw [value?_parameter, hp, bind_self]

theorem readsOf_contextOf (hreads : pre.elementContext.ReadsOf pre.element) (p : Parameter) :
    (contextOf pre p).ReadsOf p :=
  hreads.replace .parameter

end PreSelection

/-- What a chain of hooks takes for granted: the collection is not fetched data, the arguments are
visible, and their parameter is newer than the stages. -/
structure HookContext.Fresh (context : HookContext) (arguments : HookArguments)
    (oldest : Nat) : Prop where
  materialized : context.materialized = false
  sees : context.Sees arguments
  newer : ∀ q ∈ context.arguments, oldest ≤ q.id

theorem HookContext.readsOf_argument? {context : HookContext} {name : String} {e : Expr}
    (h : context.argument? name = some e) : ∃ q ∈ context.arguments, e.ReadsOf q := by
  obtain ⟨q, hq, he⟩ := Option.bind_eq_some_iff.1 h
  exact ⟨q, hq, ReadsOf.parameter.recordMember? he⟩

namespace Stage

theorem filter_value? (arguments : HookArguments) (argument : ArgumentDefinition) :
    ((arguments.value? argument.name).filter fun a => !a.isNull)
      = if givenIn arguments argument = true then arguments.value? argument.name else none := by
  unfold givenIn
  cases arguments.value? argument.name with
  | none => rfl
  | some a => cases hnull : a.isNull <;> simp [Option.filter, hnull]

section Step

variable {services : Provider} {env : Environment} {context : HookContext}
  {arguments : HookArguments} {oldest : Nat} {pre pre' : PreSelection} {j j' : Journal}

/-- A predicate or a key with the element put in, for a parameter that the element is bound to. -/
theorem value?_template {template : Expr} (htemplate : template.OlderThan oldest)
    (element : Parameter) (hreads : pre.elementContext.ReadsOf pre.element) (hp : oldest ≤ p.id)
    {env' env'' : Environment} {x : Value} (hitem : env' p = some item)
    (hx : pre.original? services env item = some x) (henv : ∀ q, q ≠ p → env' q = env'' q) :
    (template.replace (.identity element) (contextOf pre p)).value? services env'
      = template.value? services (env''.bind element x) := by
  have hbinders : p ∉ template.binders := fun h => absurd (htemplate.2 p h) (Nat.not_lt.2 hp)
  rw [value?_replace (PreSelection.readsOf_contextOf hreads p) hbinders
    ((PreSelection.value?_contextOf hreads hitem).trans hx)]
  refine value?_congr fun q hq => ?_
  have hne : q ≠ p := fun h => absurd (htemplate.1 q hq) (Nat.not_lt.2 (h ▸ hp))
  by_cases hqe : q = element
  · rw [hqe, bind_self, bind_self]
  · rw [bind_of_ne _ hqe, bind_of_ne _ hqe, henv q hne]

theorem value?_argument (hcontext : context.Fresh arguments oldest) {name : String}
    (hplain : arguments.Plain name)
    {e : Expr} (he : context.argument? name = some e) (hbound : context.BoundIn env) :
    ∃ q ∈ context.arguments, ∃ v, arguments.value? name = some v ∧ e.ReadsOf q
      ∧ ∀ env' : Environment, env' q = env q → e.value? services env' = some v := by
  obtain ⟨q, hq, hreads⟩ := HookContext.readsOf_argument? he
  obtain ⟨v, hv, -, hvalue⟩ := hcontext.sees.value?_argument services he
  exact ⟨q, hq, v, hplain ▸ hv, hreads, fun env' henv' =>
    (hreads.value?_congr henv').trans (hvalue env hbound none)⟩

/-- What a stage that keeps the elements does: the elements that are left are those that the stage
leaves. -/
def Leaves (services : Provider) (env : Environment) (arguments : HookArguments) (stage : Stage)
    (pre : PreSelection) (items items' : List Value) : Prop :=
  (∀ item ∈ items, (pre.original? services env item).isSome = true) →
    items' = stage.apply services env arguments.value?
      (fun item => (pre.original? services env item).getD .null) items

variable (hcontext : context.Fresh arguments oldest) (hbound : context.BoundIn env)

include hcontext hbound

variable {w' : Value} {element : Parameter}

theorem page_step {defaultSize maxSize : Option Int64} (hskip : arguments.Plain "skip")
    (htake : arguments.Plain "take")
    (h : Gives ((Stage.page defaultSize maxSize).extension.preSelection context pre) j pre' j') :
    pre.Leads services env (Leaves services env arguments (.page defaultSize maxSize) pre)
      pre' := by
  intro w' hw'
  rw [extension, offsetPaging_gives, hcontext.materialized] at h
  obtain ⟨h, -⟩ | ⟨-, -, skip, take, hskip', htake', rfl, -⟩ := h
  · cases h
  obtain ⟨_, _, n, hn, -, hskipped⟩ := @value?_argument services env _ _ _ hcontext _ hskip
    _ hskip' hbound
  obtain ⟨_, _, k, hk, -, htaken⟩ := @value?_argument services env _ _ _ hcontext _ htake
    _ htake' hbound
  have hskipped : (skip.operand services env none).value? = some n := hskipped env rfl
  have htaken : (take.operand services env none).value? = some k := htaken env rfl
  rw [value?_call] at hw'
  obtain ⟨u, hu, hw'⟩ := Option.bind_eq_some_iff.1 hw'
  rw [value?_call] at hu
  obtain ⟨w, hw, hu⟩ := Option.bind_eq_some_iff.1 hu
  refine ⟨w, hw, (Method.through_skip hskipped hu).trans ?_ (Method.through_take htaken hw')⟩
  rintro items _ _ rfl rfl -
  rw [apply, hn, hk]
  rfl

variable (hj : oldest ≤ j.next) (hreads : pre.elementContext.ReadsOf pre.element)

include hj hreads

theorem filter_step {argument : ArgumentDefinition} {value : Parameter} {predicate : Expr}
    (hold' : (Stage.filter argument element value predicate).OlderThan oldest)
    (hold : ∀ q ∈ context.arguments, q.id < j.next) (hplain : arguments.Plain argument.name)
    (h : Gives ((Stage.filter argument element value predicate).extension.preSelection context pre)
      j pre' j') :
    pre.Leads services env (Leaves services env arguments
      (.filter argument element value predicate) pre) pre' := by
  intro w' hw'
  rw [extension, filter_gives, hcontext.materialized, Bool.false_or, given_eq hcontext.sees] at h
  rcases h with ⟨hgiven, rfl, -⟩ | ⟨hgiven, expression, p, condition, hexpression, rfl, rfl, rfl, -⟩
  · refine ⟨w', hw', .refl (fun items _ => ?_) w'⟩
    have hgiven : givenIn arguments argument = false := by simpa using hgiven
    rw [apply, filter_value?, hgiven, if_neg Bool.false_ne_true, Option.elim_none]
  · obtain ⟨q, hq, a, ha, hargument, hvalue⟩ :=
      @value?_argument services env _ _ _ hcontext _ hplain _ hexpression hbound
    rw [value?_call] at hw'
    obtain ⟨w, hw, hw'⟩ := Option.bind_eq_some_iff.1 hw'
    refine ⟨w, hw, (Method.through_filter hw').imp fun items items' hitems' hseen =>
      hitems'.trans ?_⟩
    have hgiven : givenIn arguments argument = true := by simpa using hgiven
    rw [apply, filter_value?, if_pos hgiven, ha, Option.elim_some]
    refine filter_congr fun item hitem => ?_
    obtain ⟨x, hx⟩ := Option.isSome_iff_exists.1 (hseen item hitem)
    rw [hx, Option.getD_some]
    refine congrArg (Option.any isTrue) ?_
    -- The argument is put in first, and then the element below the binding of the argument.
    have hqp : q ≠ filterParameter pre j.next := fun h =>
      absurd (hold q hq) (by rw [h]; exact Nat.lt_irrefl _)
    have hvp : filterParameter pre j.next ≠ value := fun h =>
      absurd hold'.1 (Nat.not_lt.2 (h ▸ hj))
    have hbinders : q ∉ (predicate.replace (.identity element)
        (contextOf pre (filterParameter pre j.next))).binders := by
      rw [binders_replace _ _ (PreSelection.readsOf_contextOf hreads _)]
      exact fun h => absurd (hold'.2.2 q h) (Nat.not_lt.2 (hcontext.newer q hq))
    refine (value?_replace hargument hbinders (hvalue _ (bind_of_ne env hqp item))).trans ?_
    refine value?_template hold'.2 element hreads hj ?_ hx fun r hr => ?_
    · rw [bind_of_ne _ hvp, bind_self]
    · by_cases hrv : r = value
      · rw [hrv, bind_self, bind_self]
      · rw [bind_of_ne _ hrv, bind_of_ne _ hrv, bind_of_ne _ hr]

theorem sort_step {key : Expr} (hold' : (Stage.sort element key).OlderThan oldest)
    (hplain : arguments.Plain "descending")
    (h : Gives ((Stage.sort element key).extension.preSelection context pre) j pre' j') :
    pre.Leads services env (Leaves services env arguments (.sort element key) pre) pre' := by
  intro w' hw'
  rw [extension, sort_gives, hcontext.materialized] at h
  obtain ⟨h, -⟩ | ⟨-, expression, p, k, hexpression, rfl, rfl, rfl, -⟩ := h
  · cases h
  obtain ⟨_, _, descending, hdescending, -, hvalue⟩ :=
    @value?_argument services env _ _ _ hcontext _ hplain _ hexpression hbound
  have hoperand : (expression.operand services env none).value? = some descending := hvalue env rfl
  rw [value?_call] at hw'
  obtain ⟨w, hw, hw'⟩ := Option.bind_eq_some_iff.1 hw'
  refine ⟨w, hw, (Method.through_orderBy hoperand hw').imp fun items items' hitems' hseen =>
    hitems'.trans ?_⟩
  rw [apply, hdescending, Option.any_some]
  refine ranked_congr _ fun item hitem => ?_
  obtain ⟨x, hx⟩ := Option.isSome_iff_exists.1 (hseen item hitem)
  rw [hx, Option.getD_some]
  refine congrArg (fun v => Option.getD v null) ?_
  exact value?_template hold' element hreads hj (bind_self env _ item) hx fun r hr =>
    bind_of_ne env hr item

end Step

/-! ## Chains -/

/-- Whatever list the elements stand for one by one, by `R`, the elements that are made of them
stand for what `f` makes of that list, by `R'`. -/
def Carries {α : Type} (R R' : Value → α → Prop) (f : List α → List α)
    (items items' : List Value) : Prop :=
  ∀ ts, Forall₂ R items ts → Forall₂ R' items' (f ts)

section Chain

variable {services : Provider} {env : Environment} {context : HookContext}
  {arguments : HookArguments}
  {oldest : Nat} {stage : Stage} {stages : List Stage} {pre pre' : PreSelection} {j j' : Journal}
  {m m' : Memory} {α : Type} {original : α → Value} {R : Value → α → Prop} {items : List Value}

theorem Leaves.carries
    (hR : ∀ item t, R item t → pre.original? services env item = some (original t))
    {items' : List Value} (h : stage.Leaves services env arguments pre items items') :
    Carries R R (stage.apply services env arguments.value? original) items items' := by
  intro ts hts
  have hseen : ∀ item ∈ items, (pre.original? services env item).isSome = true := by
    intro item hitem
    obtain ⟨t, -, ht⟩ := exists_mem_of_forall₂ hts.flip hitem
    rw [hR item t ht]
    rfl
  rw [h hseen]
  exact forall₂_apply services env _ (fun item t ht => by rw [hR item t ht, Option.getD_some])
    stage hts

/-- A stage that does not number the elements leaves the placeholder and what it stands for. -/
theorem frame_of_window (hwindow : stage.positionKey? = none)
    (h : Gives (stage.extension.preSelection context pre) j pre' j') :
    pre'.element = pre.element ∧ pre'.elementContext = pre.elementContext ∧ j.next ≤ j'.next := by
  cases stage with
  | filter argument element value predicate =>
    rw [extension, filter_gives] at h
    rcases h with ⟨-, rfl, rfl⟩ | ⟨-, _, _, _, -, -, rfl, rfl, rfl⟩
    · exact ⟨rfl, rfl, Nat.le_refl _⟩
    · exact ⟨rfl, rfl, Nat.le_succ _⟩
  | sort element key =>
    rw [extension, sort_gives] at h
    rcases h with ⟨-, rfl, rfl⟩ | ⟨-, _, _, _, -, -, rfl, rfl, rfl⟩
    · exact ⟨rfl, rfl, Nat.le_refl _⟩
    · exact ⟨rfl, rfl, Nat.le_succ _⟩
  | page defaultSize maxSize =>
    rw [extension, offsetPaging_gives] at h
    rcases h with ⟨-, rfl, rfl⟩ | ⟨-, -, _, _, -, -, rfl, rfl⟩
    · exact ⟨rfl, rfl, Nat.le_refl _⟩
    · exact ⟨rfl, rfl, Nat.le_refl _⟩
  | position key => cases hwindow

/-- A record of a position and an element. -/
def numbered (index : Nat) (item : Value) : Value :=
  .object [("index", .int (Int64.ofNat index)), ("item", item)]

/-- **What a numbering stage does**: it swaps the elements for records of their positions and
themselves, and a record stands for what its element stands for. -/
theorem position_step {key : String} (hmaterialized : context.materialized = false)
    (hreads : pre.elementContext.ReadsOf pre.element)
    (h : Gives ((Stage.position key).extension.preSelection context pre) j pre' j') :
    pre'.elementContext.ReadsOf pre'.element ∧ j'.next = j.next + 1
      ∧ (∃ ty, pre'.element.ty = .record (Shape.indexed ty))
      ∧ ∀ env : Environment,
        (∀ index item, pre'.original? services env (numbered index item)
          = pre.original? services env item)
        ∧ pre.Leads services env (fun items items' => items'
          = Method.indexedFrom 0 items) pre' := by
  rw [extension, position_gives, hmaterialized] at h
  obtain ⟨h, -⟩ | ⟨-, element, item, rfl, hitem, rfl, rfl⟩ := h
  · cases h
  have hitem' : ReadsOf (positionParameter pre j.next) item :=
    ReadsOf.parameter.recordMember? hitem
  have hindexed : recordMember? (.parameter (positionParameter pre j.next)) "item" = _ :=
    (recordMember?_indexed rfl).2
  refine ⟨hreads.replace hitem', rfl, ⟨_, rfl⟩, fun env => ⟨fun index x => ?_, fun {w'} hw' => ?_⟩⟩
  · refine hreads.value?_replace ?_
    rw [← Option.some.inj (hindexed.symm.trans hitem), value?_member, value?_parameter,
      bind_self, bind_self]
    rfl
  · rw [value?_call] at hw'
    obtain ⟨w, hw, hw'⟩ := Option.bind_eq_some_iff.1 hw'
    exact ⟨w, hw, Method.through_enumerate hw'⟩

theorem forall₂_indexedFrom {ts : List α} (h : Forall₂ R items ts) (start : Nat) :
    Forall₂ (fun item' (t : α × Nat) => ∃ item, item' = numbered t.2 item ∧ R item t.1)
      (Method.indexedFrom start items) (ts.zipIdx start) := by
  induction h generalizing start with
  | nil => exact .nil
  | cons hitem _ ih => exact .cons ⟨_, rfl, hitem⟩ (ih (start + 1))

section OneStage

variable (hcontext : context.Fresh arguments oldest) (hold : ∀ q ∈ context.arguments, q.id < j.next)
  (hj : oldest ≤ j.next) (hreads : pre.elementContext.ReadsOf pre.element)
  (hstage : stage.OlderThan oldest) (hplain : ∀ name ∈ stage.reads, arguments.Plain name)
  (h : Gives (stage.extension.preSelection context pre) j pre' j')

include hcontext hold hj hreads hstage hplain h

/-- **What a filtering, sorting or paging stage does** to the elements of the collection. -/
theorem window_step (hwindow : stage.positionKey? = none) (hbound : context.BoundIn env) :
    pre.Leads services env (Leaves services env arguments stage pre) pre' := by
  cases stage with
  | filter argument element value predicate =>
    exact filter_step hcontext hbound hj hreads hstage hold (hplain _ mem_cons_self) h
  | sort element key => exact sort_step hcontext hbound hj hreads hstage (hplain _ mem_cons_self) h
  | page defaultSize maxSize =>
    exact page_step hcontext hbound (hplain _ mem_cons_self)
      (hplain _ (mem_cons_of_mem _ mem_cons_self)) h
  | position key => cases hwindow

/-- **What one stage does**: the placeholder may change, but each element that comes out stands for
an original element, and these are the original elements after the stage. -/
theorem stage_step :
    pre'.elementContext.ReadsOf pre'.element ∧ j.next ≤ j'.next
      ∧ ∀ {env : Environment}, context.BoundIn env →
        pre.Leads services env (Carries (fun item t => pre.original? services env item = some t)
                (fun item t => pre'.original? services env item = some t)
                (stage.apply services env arguments.value? id)) pre' := by
  cases hwindow : stage.positionKey? with
  | none =>
    obtain ⟨helement, hcontext', hnext⟩ := frame_of_window hwindow h
    refine ⟨by rw [helement, hcontext']; exact hreads, hnext, fun {env} hbound w' hw' => ?_⟩
    obtain ⟨w, hw, hleaves⟩ := window_step hcontext hold hj hreads hstage hplain h
      hwindow hbound hw'
    rw [PreSelection.original?_congr helement hcontext']
    exact ⟨w, hw, hleaves.imp fun _ _ hl => hl.carries fun _ _ ht => ht⟩
  | some key =>
    cases stage with
    | position key =>
      obtain ⟨hreads', hnext, -, hvalues⟩ := @position_step services _ _ _ _ _ _
        hcontext.materialized hreads h
      refine ⟨hreads', hnext ▸ Nat.le_succ _, fun {env} hbound w' hw' => ?_⟩
      obtain ⟨hsame, hthrough⟩ := hvalues env
      obtain ⟨w, hw, hnumbered⟩ := hthrough hw'
      refine ⟨w, hw, hnumbered.imp ?_⟩
      rintro items _ rfl ts hts
      have hrecords := (forall₂_indexedFrom hts 0).imp fun item' t ⟨item, hitem', hitem⟩ =>
        show pre'.original? services env item' = some (Prod.fst t) by rw [hitem', hsame, hitem]
      rw [apply, ← zipIdx_map_fst 0 ts]
      exact forall₂_map_right_iff.2 hrecords
    | _ => cases hwindow

end OneStage

variable (hcontext : context.Fresh arguments oldest) (hold : ∀ q ∈ context.arguments, q.id < m.next)
  (hm : oldest ≤ m.next) (hreads : pre.elementContext.ReadsOf pre.element)
  (hstages : ∀ stage ∈ stages, stage.OlderThan oldest)
  (hplain : ∀ stage ∈ stages, ∀ name ∈ stage.reads, arguments.Plain name)
  (h : Gives (Compiler.runPreSelection context (stages.map extension) pre) m pre' m')

include hcontext hold hm hreads hstages hplain h

/-- A chain of stages that do not number the elements.  The induction is on the chain: a later stage
sees the same placeholder. -/
theorem run_windows (hwindows : ∀ stage ∈ stages, stage.positionKey? = none) :
    pre'.element = pre.element ∧ pre'.elementContext = pre.elementContext
      ∧ ∀ {env : Environment}, context.BoundIn env →
        (∀ item t, R item t → pre.original? services env item = some (original t)) →
        pre.Leads services env (Carries R R (applyAll services env arguments.value?
          original stages)) pre' := by
  induction stages generalizing pre m with
  | nil =>
    obtain ⟨rfl, -⟩ := gives_pure.1 h
    exact ⟨rfl, rfl, fun _ _ w' hw' => ⟨w', hw', .refl (fun _ _ hts => hts) w'⟩⟩
  | cons stage rest ih =>
    obtain ⟨hstage, hrest⟩ := forall_mem_cons.1 hstages
    obtain ⟨hplain, hplains⟩ := forall_mem_cons.1 hplain
    obtain ⟨hwindow, hwindows⟩ := forall_mem_cons.1 hwindows
    obtain ⟨pre₁, j, hfirst, h⟩ := Compiler.runPreSelection_cons_gives.1 h
    obtain ⟨helement, hcontext', hnext⟩ := frame_of_window hwindow hfirst
    have hreads₁ : pre₁.elementContext.ReadsOf pre₁.element := by
      rw [helement, hcontext']
      exact hreads
    obtain ⟨helement', hcontext'', hrun⟩ := ih (fun q hq => Nat.lt_of_lt_of_le (hold q hq) hnext)
      (Nat.le_trans hm hnext) hreads₁ hrest hplains h hwindows
    refine ⟨helement'.trans helement, hcontext''.trans hcontext', fun {env} hbound hR w' hw' => ?_⟩
    have hR₁ : ∀ item t, R item t → pre₁.original? services env item = some (original t) := by
      rw [PreSelection.original?_congr helement hcontext']
      exact hR
    obtain ⟨w₁, hw₁, hthrough⟩ := hrun hbound hR₁ hw'
    obtain ⟨w, hw, hleaves⟩ := window_step hcontext hold hm hreads hstage hplain hfirst
      hwindow hbound hw₁
    exact ⟨w, hw, (hleaves.imp fun _ _ hl => hl.carries hR).trans
      (fun _ _ _ hc hc' ts hts => hc' _ (hc ts hts)) hthrough⟩

/-- **What a chain of stages does**: each element of the collection that comes out stands for an
original element, and these are the original elements after the stages. -/
theorem run_stages :
    pre'.elementContext.ReadsOf pre'.element ∧ m.next ≤ m'.next
      ∧ ∀ {env : Environment}, context.BoundIn env →
        pre.Leads services env (Carries (fun item t => pre.original? services env item = some t)
                (fun item t => pre'.original? services env item = some t)
                (applyAll services env arguments.value? id stages)) pre' := by
  induction stages generalizing pre m with
  | nil =>
    obtain ⟨rfl, rfl⟩ := gives_pure.1 h
    exact ⟨hreads, Nat.le_refl _, fun _ w' hw' => ⟨w', hw', .refl (fun _ _ hts => hts) w'⟩⟩
  | cons stage rest ih =>
    obtain ⟨hstage, hrest⟩ := forall_mem_cons.1 hstages
    obtain ⟨hplain, hplains⟩ := forall_mem_cons.1 hplain
    obtain ⟨pre₁, j, hfirst, h⟩ := Compiler.runPreSelection_cons_gives.1 h
    obtain ⟨hreads₁, hnext, hfirst⟩ := stage_step hcontext hold hm hreads hstage hplain hfirst
    obtain ⟨hreads', hnext', hrun⟩ := ih (fun q hq => Nat.lt_of_lt_of_le (hold q hq) hnext)
      (Nat.le_trans hm hnext) hreads₁ hrest hplains h
    refine ⟨hreads', Nat.le_trans hnext hnext', fun hbound w' hw' => ?_⟩
    obtain ⟨w₁, hw₁, hthrough⟩ := hrun hbound hw'
    obtain ⟨w, hw, hfirst⟩ := hfirst hbound hw₁
    exact ⟨w, hw, hfirst.trans (fun _ _ _ hc hc' ts hts => hc' _ (hc ts hts)) hthrough⟩

end Chain
end Stage
end QueryProjection
