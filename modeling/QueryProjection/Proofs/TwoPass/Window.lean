import QueryProjection.Proofs.Compile.Supply
import QueryProjection.Proofs.Eager
import QueryProjection.Proofs.Expr.Rename
import QueryProjection.Proofs.Sorting

/-!
# What windows mean

An extension that filters, sorts or pages a collection changes the expression of the collection.
This module says what that does to the value of the collection: `Extension.Acts` gives an extension
a function from the values of the field's arguments to a function on values, and
`Extension.Window.acts` finds one for every extension of these kinds.  Extensions of these kinds may
run before and after one that numbers the elements, and `Arrangement` is the same for all of them
together.

The predicate of a filter and the key of a sort are expressions that somebody else makes.  It has to
be assumed that their value depends on nothing but the values of what they are given
(`Expr.MeansOf`).

Meanings are functions of values, so that what a field answers can be said without an expression for
the collection.  They depend on what an element is, `View`: after an extension that numbers, the
elements are records, and a predicate is evaluated for the object inside.  What extensions leave for
the selection is part of `Arrangement` and not of the meaning: the calls on the collection, which
mention nothing but the arguments, and the placeholder of an element.
-/

namespace QueryProjection

open Compiler Expr List

/-! ## Calls of methods -/

/-- Calls of methods on an expression, one after the other. -/
def Expr.calls (e : Expr) (cs : List (Method × List Expr)) : Expr :=
  cs.foldl (fun e c => .call c.1 e c.2) e

theorem Expr.calls_append (e : Expr) (cs ds : List (Method × List Expr)) :
    e.calls (cs ++ ds) = (e.calls cs).calls ds :=
  foldl_append

/-- The operand that gives these values. -/
def Operand.giving (f : Option Value → Option Value) : Operand := fun handed =>
  (f handed).elim (Run.fail .unexpectedLambda) pure

@[simp] theorem Operand.value?_giving (f : Option Value → Option Value) (handed : Option Value) :
    (Operand.giving f handed).value? = f handed := by
  unfold giving
  cases f handed <;> rfl

variable {operands : List Operand} {v w : Value} {P : Value → Prop} {services : Provider}
  {x : Extension} {p : Parameter} {pre pre' : PreSelection} {m m' : Memory} {ty : Ty}
  {extensions : List Extension} {key : Option String}

theorem Method.value?_apply_congr (method : Method) (receiver : Value) {operands' : List Operand}
    (h : Forall₂ (fun o o' => ∀ handed, (o handed).value? = (o' handed).value?) operands
      operands') :
    (method.apply receiver operands).value? = (method.apply receiver operands').value? := by
  have hle {os os' : List Operand}
      (h : Forall₂ (fun o o' => ∀ handed, (o handed).value? = (o' handed).value?) os os')
      {v : Value}
      (hv : (method.apply receiver os).value? = some v) :
        (method.apply receiver os').value? = some v := by
    have hrelated := method.related_apply Run.Relator.respects_upward (rfl : receiver = receiver)
      (h.imp fun o o' ho handed handed' hhanded w hw => ?_)
    · obtain ⟨_, hv, rfl⟩ := hrelated v hv
      exact hv
    · have hsame : handed = handed' := by
        cases hhanded with
        | none => rfl
        | some h => rw [h]
      exact ⟨w, hsame ▸ (ho handed).symm.trans hw, rfl⟩
  refine Option.ext fun v => ⟨hle h, hle ?_⟩
  exact h.flip.imp fun _ _ ho handed => (ho handed).symm

theorem Expr.value?_call_giving {env : Environment} (method : Method) (source : Expr)
    {arguments : List Expr} {fs : List (Option Value → Option Value)}
    (h : Forall₂ (fun a f => ∀ handed, (a.operand services env handed).value? = f handed)
      arguments fs) :
    (call method source arguments).value? services env
      = (source.value? services env).bind fun w => (method.apply w (fs.map .giving)).value? := by
  rw [value?_call]
  refine Option.bind_congr fun w _ => Method.value?_apply_congr method w ?_
  rw [forall₂_map_left_iff, forall₂_map_right_iff]
  simpa using h

/-- `w` is `v`, or a list of elements of `v`. -/
def Value.PicksFrom (w v : Value) : Prop :=
  w = v ∨ ∃ items, v.elements.value? = some items ∧ ∃ picked, w = .list picked
    ∧ ∀ x ∈ picked, x ∈ items

theorem Value.PicksFrom.trans {u : Value} (hw : w.PicksFrom v) (hv : v.PicksFrom u) :
    w.PicksFrom u := by
  rcases hw with rfl | ⟨items, hitems, picked, rfl, hpicked⟩
  · exact hv
  · rcases hv with rfl | ⟨items', hitems', picked', rfl, hpicked'⟩
    · exact .inr ⟨items, hitems, picked, rfl, hpicked⟩
    · obtain rfl := Option.some.inj hitems
      exact .inr ⟨items', hitems', picked, rfl, fun x hx => hpicked' x (hpicked x hx)⟩

theorem Value.PicksFrom.eager (h : w.PicksFrom v) (hv : v.Eager) : w.Eager := by
  rcases h with rfl | ⟨items, hitems, picked, rfl, hpicked⟩
  · exact hv
  · have hall := (kept_eager.ends_elements hv).of_ok (Run.value?_eq_some_iff.1 hitems)
    exact eager_list.2 fun x hx => hall x (hpicked x hx)

namespace Method

variable {method : Method}

theorem picksFrom_of_apply (hm : method.picks = true) {receiver : Value}
    (h : (method.apply receiver operands).value? = some v) : v.PicksFrom receiver := by
  unfold apply at h
  split at h
  · rename_i hnull
    obtain rfl := Option.some.inj h
    cases receiver with
    | null => exact .inl rfl
    | _ => cases hnull
  · rw [Run.value?_bind] at h
    obtain ⟨items, hitems, h⟩ := Option.bind_eq_some_iff.1 h
    obtain ⟨picked, rfl, hpicked⟩ := subperm_of_applyToItems hm h
    exact .inr ⟨items, hitems, picked, rfl, fun x hx => hpicked.subset hx⟩

end Method

/-! ## Arguments -/

/-- The arguments that a hook sees: the type of their record, and their values. -/
abbrev HookArguments := Option (Ty × List (String × Value))

namespace HookArguments

/-- The value of an argument under this very name. -/
def value? (arguments : HookArguments) (name : String) : Option Value :=
  arguments.bind fun a => Assoc.find? name a.2

/-- The value of the argument that the record has under this name, whatever the case of its
letters. -/
def member? (arguments : HookArguments) (name : String) : Option Value :=
  arguments.bind fun a => a.1.shape?.bind fun shape =>
    (Shape.field? shape name).map fun field => (Assoc.find? field.1 a.2).getD .null

end HookArguments

namespace HookContext

/-- The hook sees these arguments. -/
structure Sees (context : HookContext) (arguments : HookArguments) : Prop where
  types : context.arguments.map Parameter.ty = arguments.map Prod.fst
  values : context.argumentValues = arguments.map fun a => .object a.2

/-- The environment gives the arguments of the hook their values. -/
def BoundIn (context : HookContext) (env : Environment) : Prop :=
  ∀ p ∈ context.arguments, env p = context.argumentValues

variable {context : HookContext} {arguments : HookArguments}

theorem Sees.argumentValue? (h : context.Sees arguments) (name : String) :
    context.argumentValue? name = arguments.value? name := by
  rw [HookContext.argumentValue?, h.values]
  rcases arguments with _ | a <;> rfl

theorem Sees.argument? (h : context.Sees arguments) (name : String) :
    (context.argument? name).isSome = (arguments.member? name).isSome := by
  have htypes := h.types
  unfold HookContext.argument?
  cases hp : context.arguments with
  | none =>
    rw [hp] at htypes
    cases arguments with
    | none => rfl
    | some a => cases htypes
  | some p =>
    rw [hp] at htypes
    cases arguments with
    | none => cases htypes
    | some a =>
      have hty : p.ty = a.1 := Option.some.inj htypes
      simp only [HookArguments.member?, recordMember?, ty, Option.bind_some,
        Option.bind_eq_bind, Option.pure_def, hty]
      cases a.1.shape? with
      | none => rfl
      | some shape =>
        simp only [Option.bind_some]
        cases Shape.field? shape name <;> rfl

theorem Sees.value?_argument (services : Provider) (h : context.Sees arguments)
    {name : String} {e : Expr}
    (he : context.argument? name = some e) : ∃ v, arguments.member? name = some v
      ∧ (∀ p ∈ e.freeParameters, p ∈ context.arguments)
      ∧ ∀ env, context.BoundIn env → ∀ handed, (e.operand services env handed).value? = some v := by
  have hvalues := h.values
  obtain ⟨p, hp, he⟩ := Option.bind_eq_some_iff.1 he
  obtain ⟨shape, hshape, he⟩ := Option.bind_eq_some_iff.1 he
  obtain ⟨field, hfield, he⟩ := Option.bind_eq_some_iff.1 he
  cases he
  have htypes := h.types
  rw [hp] at htypes
  rcases arguments with _ | ⟨ty, values⟩
  · cases htypes
  refine ⟨(Assoc.find? field.1 values).getD .null, ?_, fun q hq => ?_, fun env henv handed => ?_⟩
  · have hty : p.ty = ty := Option.some.inj htypes
    have hshape : ty.shape? = some shape := hty ▸ hshape
    simp only [HookArguments.member?, Option.bind_some, hshape, hfield, Option.map_some]
  · rw [mem_freeParameters_parameter.1 (mem_freeParameters_member.1 hq)]
    exact hp
  · show (member (.parameter p) field.1 field.2).value? services env = _
    rw [value?_member, value?_parameter, henv p hp, hvalues]
    rfl

end HookContext

/-! ## Elements -/

/-- What the elements of a collection are. -/
inductive View where
  /-- The elements are objects. -/
  | plain
  /-- The elements are records of a position and an object. -/
  | numbered
deriving DecidableEq

namespace View

/-- The expression of the object, for a parameter that stands for the element. -/
def context (view : View) (ty : Ty) (p : Parameter) : Expr :=
  match view with
  | .plain => .parameter p
  | .numbered => .member (.parameter p) "item" ty

/-- The type of an element, for the type of its object. -/
def elementTy (view : View) (ty : Ty) : Ty :=
  match view with
  | .plain => ty
  | .numbered => .record (Shape.indexed ty)

/-- The object of an element. -/
def item (view : View) (element : Value) : Option Value :=
  match view with
  | .plain => some element
  | .numbered => (Expr.readMember "item" element).value?

variable (view : View) (ty : Ty) (p : Parameter)

theorem readsOf_context : (view.context ty p).ReadsOf p := by
  cases view with
  | plain => exact .parameter
  | numbered => exact .member .parameter _ _

theorem ty_context {view : View} {ty : Ty} {p : Parameter} (h : p.ty = view.elementTy ty) :
    (view.context ty p).ty = ty := by
  cases view with
  | plain => exact h
  | numbered => rfl

theorem value?_context (services : Provider) (env : Environment) :
    (view.context ty p).value? services env = (env p).bind view.item := by
  cases view with
  | plain => exact (value?_parameter p).trans (Option.bind_fun_some _).symm
  | numbered => rw [context, value?_member, value?_parameter]; rfl

/-- The element is eager and has an object. -/
structure Fits (view : View) (element : Value) : Prop where
  eager : element.Eager
  item : ∃ x, view.item element = some x ∧ x.Eager

theorem fits_plain {element : Value} (h : element.Eager) : View.plain.Fits element :=
  ⟨h, element, rfl, h⟩

end View

/-- `P` holds of the elements of a value, or of its members if it is an object. -/
def Value.Elements (P : Value → Prop) : Value → Prop
  | .object members => ∀ m ∈ members, P m.2
  | v => ∀ items, v.elements.value? = some items → ∀ x ∈ items, P x

theorem Value.Elements.of_elements {items : List Value} (h : v.Elements P)
    (hitems : v.elements.value? = some items) : ∀ x ∈ items, P x := by
  cases v with
  | object members => cases hitems
  | _ => exact h items hitems

theorem Value.Elements.imp {Q : Value → Prop} (hPQ : ∀ x, P x → Q x) (h : v.Elements P) :
    v.Elements Q := by
  cases v with
  | object members => exact fun m hm => hPQ _ (h m hm)
  | _ => exact fun items hitems x hx => hPQ x (h items hitems x hx)

theorem Value.Eager.elements (hv : v.Eager) : v.Elements Value.Eager := by
  cases v with
  | object members => exact eager_object.1 hv
  | _ => exact fun items hitems =>
      (kept_eager.ends_elements hv).of_ok (Run.value?_eq_some_iff.1 hitems)

theorem Value.PicksFrom.elements (h : w.PicksFrom v) (hv : v.Elements P) : w.Elements P := by
  rcases h with rfl | ⟨items, hitems, picked, rfl, hpicked⟩
  · exact hv
  · intro items' hitems' x hx
    obtain rfl := Option.some.inj hitems'
    exact hv.of_elements hitems x (hpicked x hx)

/-! ## Extensions -/

/-- The value of the expression that is made depends on nothing but the values of the given ones.
What the given ones mention is older than what is drawn while making it. -/
def Expr.MeansOf (services : Provider) (given : List Expr) (make : Fresh Expr)
    (f : List (Option Value) → Option Value) : Prop :=
  ∀ n, (∀ e ∈ given, ∀ p ∈ e.freeParameters, p.id < n) → ∀ env,
    (make.run n).1.value? services env = f (given.map (Expr.value? services env))

/-- An extension that filters, sorts or pages, whose predicate or key is made of what it is given
and depends on its value alone. -/
inductive Extension.Window (services : Provider) : Extension → Prop
  | filter (argument : ArgumentDefinition) {predicate : Expr → Expr → Fresh Expr}
      (f : List (Option Value) → Option Value)
      (made : ∀ element value, Expr.MadeOf (fun _ => True) [element, value]
        (predicate element value))
      (means : ∀ element value, Expr.MeansOf services [element, value]
        (predicate element value) f) :
      Window services (.filter argument predicate)
  | sort {key : Expr → Fresh Expr} (f : List (Option Value) → Option Value)
      (made : ∀ element, Expr.MadeOf (fun _ => True) [element] (key element))
      (means : ∀ element, Expr.MeansOf services [element] (key element) f) :
      Window services (.sort key)
  | offsetPaging (defaultSize maxSize : Option Int64) :
      Window services (.offsetPaging defaultSize maxSize)

theorem Extension.Window.builtIn (h : x.Window services) : x.BuiltIn fun _ => True := by
  cases h with
  | filter argument f made means => exact .filter argument made
  | sort f made means => exact .sort made
  | offsetPaging defaultSize maxSize => exact .offsetPaging defaultSize maxSize

theorem Extension.Window.windows (h : x.Window services) : x.Windows := by
  cases h with
  | filter argument f made means => exact .filter argument _
  | sort f made means => exact .sort _
  | offsetPaging defaultSize maxSize => exact .offsetPaging defaultSize maxSize

theorem Extension.not_window_position (key : String) : ¬ (position key).Window services := by
  have hname : ∀ x : Extension, x.Window services → x.name ≠ "position" := by
    intro x hx
    cases hx with
    | filter argument f made means => exact (by decide : "filter" ≠ "position")
    | sort f made means => exact (by decide : "sort" ≠ "position")
    | offsetPaging defaultSize maxSize => exact (by decide : "offset_paging" ≠ "position")
  exact fun h => hname _ h rfl

/-- What an extension makes of the value of a collection, given what its elements are and the
arguments; none if it refuses the arguments.  The expressions that it adds mention nothing but the
arguments. -/
structure Extension.Acts (services : Provider) (x : Extension)
    (window : View → HookArguments → Option (Value → Option Value)) : Prop where
  accepts : ∀ {context : HookContext} {view : View} {arguments : HookArguments},
    context.materialized = false → context.Sees arguments → (window view arguments).isSome = true →
      ∀ pre j, ∃ pre' j', Gives (x.preSelection context pre) j pre' j'
  acts : ∀ {context : HookContext} {view : View} {ty : Ty} {arguments : HookArguments}
      {pre pre' : PreSelection} {j j' : Journal}, context.materialized = false →
    context.Sees arguments → pre.elementContext = view.context ty pre.element →
    (∀ p ∈ context.arguments, p.id < j.next) → Gives (x.preSelection context pre) j pre' j' →
    ∃ f cs, window view arguments = some f
      ∧ pre' = { pre with collection := pre.collection.calls cs }
      ∧ (∀ c ∈ cs, c.1.picks = true ∧ ∀ a ∈ c.2, ∀ p ∈ a.freeParameters, p ∈ context.arguments)
      ∧ ∀ env, context.BoundIn env → ∀ source : Expr,
        (source.calls cs).value? services env = (source.value? services env).bind f
  picks : ∀ {view : View} {arguments : HookArguments} {f : Value → Option Value},
    window view arguments = some f → ∀ {v w}, f v = some w → w.PicksFrom v

namespace Extension

variable {services : Provider} {context : HookContext} {arguments : HookArguments}
  {pre : PreSelection} {view : View} {ty : Ty}

/-- Whether an argument is there and not null. -/
def givenIn (arguments : HookArguments) (argument : ArgumentDefinition) : Bool :=
  (arguments.value? argument.name).elim false fun value => !value.isNull

theorem given_eq (h : context.Sees arguments) (argument : ArgumentDefinition) :
    given context argument = givenIn arguments argument := by
  rw [given, h.argumentValue?, givenIn]
  cases arguments.value? argument.name <;> rfl

theorem contextOf_eq (h : pre.elementContext = view.context ty pre.element) (p : Parameter) :
    contextOf pre p = view.context ty p := by
  rw [contextOf, h]
  cases view with
  | plain => exact replace_parameter _ _
  | numbered => exact congrArg (member · "item" ty) (replace_parameter _ _)

variable {f : List (Option Value) → Option Value} {others : List Expr} {make : Fresh Expr}

/-- The lambda over an element that a predicate or a key of the object and older expressions
makes. -/
theorem value?_lambda_of_meansOf {env : Environment} {values : List (Option Value)}
    (hmeans : MeansOf services (view.context ty p :: others) make f)
    (hold : ∀ e ∈ others, ∀ q ∈ e.freeParameters, q.id < p.id)
    (hvalues : ∀ item, others.map (value? services (env.bind p item)) = values)
    (handed : Option Value) :
    ((lambda p (make.run (p.id + 1)).1).operand services env handed).value?
      = handed.bind fun item => f (view.item item :: values) := by
  cases handed with
  | none => rfl
  | some item =>
    refine (hmeans (p.id + 1) (forall_mem_cons.2 ⟨fun q hq => ?_, fun e he q hq => ?_⟩)
      (env.bind p item)).trans ?_
    · rw [(view.readsOf_context ty p).mem_freeParameters_iff.1 hq]
      exact Nat.lt_succ_self _
    · exact Nat.lt_succ_of_lt (hold e he q hq)
    · rw [map_cons, hvalues item, view.value?_context, Environment.bind_self]
      rfl

theorem free_lambda_of_madeOf {n : Nat} {q : Parameter}
    (made : MadeOf (fun _ => True) (view.context ty p :: others) make)
    (hq : q ∈ (lambda p (make.run n).1).freeParameters) : ∃ e ∈ others, q ∈ e.freeParameters := by
  obtain ⟨hq, hne⟩ := mem_freeParameters_lambda.1 hq
  obtain ⟨e, he, hq⟩ := made.free _ q hq
  rcases mem_cons.1 he with rfl | he
  · exact absurd ((view.readsOf_context ty _).mem_freeParameters_iff.1 hq) hne
  · exact ⟨e, he, hq⟩

/-- A collection filtered by a predicate of the object and a value. -/
def filtered (f : List (Option Value) → Option Value) (view : View) (value source : Value) :
    Option Value :=
  (Method.filter.apply source
    [.giving (·.bind fun element => f [view.item element, some value])]).value?

/-- What a filter makes of a collection. -/
def filterWindow (argument : ArgumentDefinition)
    (f : List (Option Value) → Option Value) (view : View)
    (arguments : HookArguments) : Option (Value → Option Value) :=
  if givenIn arguments argument then (arguments.member? argument.name).map (filtered f view)
  else some some

theorem acts_filter (argument : ArgumentDefinition) {predicate : Expr → Expr → Fresh Expr}
    (made : ∀ element value, MadeOf (fun _ => True) [element, value] (predicate element value))
    (means : ∀ element value, MeansOf services [element, value] (predicate element value) f) :
    (filter argument predicate).Acts services (filterWindow argument f) where
  accepts {context view arguments} hmat hsees haccepts pre j := by
    simp only [filter_gives, hmat, Bool.false_or, given_eq hsees]
    by_cases hgiven : givenIn arguments argument = true
    · rw [filterWindow, if_pos hgiven, Option.isSome_map, ← hsees.argument?] at haccepts
      obtain ⟨value, hvalue⟩ := Option.isSome_iff_exists.1 haccepts
      exact ⟨_, _, .inr ⟨by simp [hgiven], value, _, _, hvalue, rfl, rfl, rfl, rfl⟩⟩
    · exact ⟨_, _, .inl ⟨by simp [hgiven], rfl, rfl⟩⟩
  acts {context view ty arguments pre pre' j j'} hmat hsees hcontext hold h := by
    rw [filter_gives, hmat, Bool.false_or, given_eq hsees] at h
    unfold filterWindow
    rcases h with ⟨hgiven, rfl, -⟩ | ⟨hgiven, value, p, condition, hvalue, rfl, rfl, rfl, -⟩
    · refine ⟨some, [], if_neg ?_, rfl, forall_mem_nil _, fun env _ e => ?_⟩
      · simpa using hgiven
      · exact (Option.bind_fun_some _).symm
    · obtain ⟨v, hv, hfree, heval⟩ := hsees.value?_argument services hvalue
      refine ⟨filtered f view v, [(.filter, [.lambda _ _])], ?_, rfl, ?_, fun env henv source => ?_⟩
      · rw [if_pos (by simpa using hgiven), hv]
        rfl
      · intro c hc
        obtain rfl := mem_singleton.1 hc
        refine ⟨rfl, fun a ha q hq => ?_⟩
        obtain rfl := mem_singleton.1 ha
        rw [contextOf_eq hcontext] at hq
        obtain ⟨e, he, hq⟩ := free_lambda_of_madeOf (made _ _) hq
        exact hfree q (mem_singleton.1 he ▸ hq)
      · rw [contextOf_eq hcontext]
        refine value?_call_giving _ source (.cons (value?_lambda_of_meansOf (means _ _) ?_ ?_) .nil)
        · intro e he q hq
          exact hold q (hfree q (mem_singleton.1 he ▸ hq))
        · intro item
          have hbound : context.BoundIn (env.bind (filterParameter pre j.next) item) := by
            intro q hq
            rw [Environment.bind_of_ne _ fun h => ?_, henv q hq]
            have := hold q hq
            rw [h] at this
            exact Nat.lt_irrefl _ this
          exact congrArg (fun v => [v]) (heval _ hbound none)
  picks {view arguments g} hg v w hw := by
    unfold filterWindow at hg
    split at hg
    · obtain ⟨value, -, rfl⟩ := Option.map_eq_some_iff.1 hg
      exact Method.picksFrom_of_apply rfl hw
    · cases hg
      cases hw
      exact .inl rfl

/-- A collection sorted by a key of the object. -/
def sorted (f : List (Option Value) → Option Value) (view : View) (descending source : Value) :
    Option Value :=
  (Method.orderBy.apply source [.giving (·.bind fun element => f [view.item element]),
    .giving fun _ => some descending]).value?

theorem acts_sort {key : Expr → Fresh Expr}
    (made : ∀ element, MadeOf (fun _ => True) [element] (key element))
    (means : ∀ element, MeansOf services [element] (key element) f) :
    (sort key).Acts services fun view arguments =>
      (arguments.member? "descending").map (sorted f view) where
  accepts {context view arguments} hmat hsees haccepts pre j := by
    rw [Option.isSome_map, ← hsees.argument?] at haccepts
    obtain ⟨descending, hdescending⟩ := Option.isSome_iff_exists.1 haccepts
    exact ⟨_, _, sort_gives.2 (.inr ⟨hmat, descending, _, _, hdescending, rfl, rfl, rfl, rfl⟩)⟩
  acts {context view ty arguments pre pre' j j'} hmat hsees hcontext hold h := by
    rw [sort_gives, hmat] at h
    obtain ⟨h, -⟩ | ⟨-, descending, p, k, hdescending, rfl, rfl, rfl, -⟩ := h
    · cases h
    obtain ⟨v, hv, hfree, heval⟩ := hsees.value?_argument services hdescending
    refine ⟨sorted f view v, [(.orderBy, [.lambda _ _, descending])], ?_, rfl, ?_,
      fun env henv source => ?_⟩
    · rw [hv]
      rfl
    · intro c hc
      obtain rfl := mem_singleton.1 hc
      refine ⟨rfl, fun a ha q hq => ?_⟩
      rcases mem_cons.1 ha with rfl | ha
      · rw [contextOf_eq hcontext] at hq
        obtain ⟨e, he, -⟩ := free_lambda_of_madeOf (made _) hq
        cases he
      · exact hfree q (mem_singleton.1 ha ▸ hq)
    · rw [contextOf_eq hcontext]
      exact value?_call_giving _ source (.cons
        (value?_lambda_of_meansOf (means _) (forall_mem_nil _)
        fun item => rfl) (.cons (heval env henv) .nil))
  picks {view arguments g} hg v w hw := by
    obtain ⟨descending, -, rfl⟩ := Option.map_eq_some_iff.1 hg
    exact Method.picksFrom_of_apply rfl hw

/-- A page of a collection. -/
def paged (skip take source : Value) : Option Value :=
  ((Method.skip.apply source [.giving fun _ => some skip]).value?).bind fun rest =>
    (Method.take.apply rest [.giving fun _ => some take]).value?

/-- Whether the page size that is asked for is within the maximum. -/
def pageAllowed (arguments : HookArguments) (maxSize : Option Int64) : Bool :=
  sizeAllowed ((arguments.value? "take").bind Value.asInt?) maxSize

theorem withinMaximum_eq (h : context.Sees arguments) (maxSize : Option Int64) :
    withinMaximum context maxSize = pageAllowed arguments maxSize := by
  rw [withinMaximum, h.argumentValue?, pageAllowed]

/-- What paging makes of a collection. -/
def pageWindow (maxSize : Option Int64) (arguments : HookArguments) :
    Option (Value → Option Value) :=
  if pageAllowed arguments maxSize then
    (arguments.member? "skip").bind fun skip => (arguments.member? "take").map (paged skip)
  else none

theorem acts_offsetPaging (defaultSize maxSize : Option Int64) :
    (offsetPaging defaultSize maxSize).Acts services fun _ => pageWindow maxSize where
  accepts {context view arguments} hmat hsees haccepts pre j := by
    unfold pageWindow at haccepts
    split at haccepts
    · rename_i hallowed
      obtain ⟨window, hwindow⟩ := Option.isSome_iff_exists.1 haccepts
      obtain ⟨skip, hskip, hwindow⟩ := Option.bind_eq_some_iff.1 hwindow
      obtain ⟨take, htake, -⟩ := Option.map_eq_some_iff.1 hwindow
      obtain ⟨skip, hskip⟩ := Option.isSome_iff_exists.1
        ((hsees.argument? "skip").trans (by rw [hskip]; rfl))
      obtain ⟨take, htake⟩ := Option.isSome_iff_exists.1
        ((hsees.argument? "take").trans (by rw [htake]; rfl))
      exact ⟨_, j, offsetPaging_gives.2 (.inr
        ⟨hmat, (withinMaximum_eq hsees maxSize).trans hallowed, skip, take, hskip,
          htake, rfl, rfl⟩)⟩
    · cases haccepts
  acts {context view ty arguments pre pre' j j'} hmat hsees hcontext hold h := by
    rw [offsetPaging_gives, hmat] at h
    obtain ⟨h, -⟩ | ⟨-, hwithin, skip, take, hskip, htake, rfl, -⟩ := h
    · cases h
    obtain ⟨n, hn, hfreeSkip, hevalSkip⟩ := hsees.value?_argument services hskip
    obtain ⟨k, hk, hfreeTake, hevalTake⟩ := hsees.value?_argument services htake
    refine ⟨paged n k, [(.skip, [skip]), (.take, [take])], ?_, rfl, ?_, fun env henv source => ?_⟩
    · rw [withinMaximum_eq hsees] at hwithin
      rw [pageWindow, if_pos hwithin, hn, hk]
      rfl
    · intro c hc
      rcases mem_cons.1 hc with rfl | hc
      · exact ⟨rfl, fun a ha q hq => hfreeSkip q (mem_singleton.1 ha ▸ hq)⟩
      · obtain rfl := mem_singleton.1 hc
        exact ⟨rfl, fun a ha q hq => hfreeTake q (mem_singleton.1 ha ▸ hq)⟩
    · show (call .take (.call .skip source [skip]) [take]).value? services env = _
      rw [value?_call_giving _ _ (.cons (hevalTake env henv) .nil),
        value?_call_giving _ _ (.cons (hevalSkip env henv) .nil), Option.bind_assoc]
      rfl
  picks {view arguments g} hg v w hw := by
    unfold pageWindow at hg
    split at hg
    · obtain ⟨skip, -, hg⟩ := Option.bind_eq_some_iff.1 hg
      obtain ⟨take, -, rfl⟩ := Option.map_eq_some_iff.1 hg
      obtain ⟨rest, hrest, hw⟩ := Option.bind_eq_some_iff.1 hw
      exact (Method.picksFrom_of_apply rfl hw).trans (Method.picksFrom_of_apply rfl hrest)
    · cases hg

/-- **What a window means**: there is a function of the arguments that says what it makes of the
value of a collection. -/
theorem Window.acts (h : x.Window services) : ∃ window, x.Acts services window := by
  cases h with
  | filter argument f made means => exact ⟨_, acts_filter argument made means⟩
  | sort f made means => exact ⟨_, acts_sort made means⟩
  | offsetPaging defaultSize maxSize => exact ⟨_, acts_offsetPaging defaultSize maxSize⟩

end Extension

/-! ## Extensions that run one after the other -/

/-- What extensions make of the value of a collection, one after the other. -/
def windowAll (window : Extension → View → HookArguments → Option (Value → Option Value)) :
    List Extension → View → HookArguments → Option (Value → Option Value)
  | [], _, _ => some some
  | x :: rest, view, arguments =>
    (window x view arguments).bind fun f =>
      (windowAll window rest view arguments).map fun g v => (f v).bind g

section WindowAll

variable {services : Provider} {context : HookContext} {arguments : HookArguments} {view : View}
  {window : Extension → View → HookArguments → Option (Value → Option Value)}
  {extensions : List Extension}

theorem picksFrom_of_windowAll (hx : ∀ x ∈ extensions, x.Acts services (window x))
    {f : Value → Option Value} (hf : windowAll window extensions view arguments = some f)
    (hw : f v = some w) : w.PicksFrom v := by
  induction extensions generalizing f v with
  | nil =>
    cases hf
    cases hw
    exact .inl rfl
  | cons x rest ih =>
    obtain ⟨hx, hrest⟩ := forall_mem_cons.1 hx
    obtain ⟨g, hg, hf⟩ := Option.bind_eq_some_iff.1 hf
    obtain ⟨k, hk, rfl⟩ := Option.map_eq_some_iff.1 hf
    obtain ⟨u, hu, hw⟩ := Option.bind_eq_some_iff.1 hw
    exact (ih hrest hk hw).trans (hx.picks hg hu)

namespace Compiler

theorem runPreSelection_accepts (hx : ∀ x ∈ extensions, x.Acts services (window x))
    (hmaterialized : context.materialized = false) (hsees : context.Sees arguments)
    (haccepts : (windowAll window extensions view arguments).isSome = true) (pre : PreSelection)
    (m : Memory) : ∃ pre' m', Gives (runPreSelection context extensions pre) m pre' m' := by
  induction extensions generalizing pre m with
  | nil => exact ⟨pre, m, gives_pure.2 ⟨rfl, rfl⟩⟩
  | cons x rest ih =>
    obtain ⟨hx, hrest⟩ := forall_mem_cons.1 hx
    obtain ⟨f, hf⟩ := Option.isSome_iff_exists.1 haccepts
    obtain ⟨g, hg, hf⟩ := Option.bind_eq_some_iff.1 hf
    obtain ⟨k, hk, -⟩ := Option.map_eq_some_iff.1 hf
    obtain ⟨pre₁, j₁, hpre₁⟩ :=
      hx.accepts hmaterialized hsees (Option.isSome_iff_exists.2 ⟨g, hg⟩) pre m.toJournal
    obtain ⟨pre', m', hpre'⟩ := ih hrest (Option.isSome_iff_exists.2 ⟨k, hk⟩) pre₁
      { m with toJournal := j₁ }
    exact ⟨pre', m', runPreSelection_cons_gives.2 ⟨pre₁, j₁, hpre₁, hpre'⟩⟩

theorem runPreSelection_acts (hx : ∀ x ∈ extensions, x.Acts services (window x) ∧ x.Draws)
    (hmaterialized : context.materialized = false) (hsees : context.Sees arguments)
    (h : Gives (runPreSelection context extensions pre) m pre' m')
    (hcontext : pre.elementContext = view.context ty pre.element)
    (hold : ∀ p ∈ context.arguments, p.id < m.next) :
    ∃ f cs, windowAll window extensions view arguments = some f
      ∧ pre' = { pre with collection := pre.collection.calls cs }
      ∧ (∀ c ∈ cs, c.1.picks = true ∧ ∀ a ∈ c.2, ∀ p ∈ a.freeParameters, p ∈ context.arguments)
      ∧ ∀ env, context.BoundIn env → ∀ source : Expr,
        (source.calls cs).value? services env = (source.value? services env).bind f := by
  induction extensions generalizing pre m with
  | nil =>
    obtain ⟨rfl, -⟩ := gives_pure.1 h
    exact ⟨some, [], rfl, rfl, forall_mem_nil _, fun env _ source => (Option.bind_fun_some _).symm⟩
  | cons x rest ih =>
    obtain ⟨⟨hacts, hdraws⟩, hrest⟩ := forall_mem_cons.1 hx
    obtain ⟨pre₁, j₁, hpre₁, h⟩ := runPreSelection_cons_gives.1 h
    obtain ⟨f, cs, hf, rfl, hfree, heval⟩ := hacts.acts hmaterialized hsees hcontext hold hpre₁
    have hold₁ : ∀ p ∈ context.arguments, p.id < j₁.next := fun p hp =>
      Nat.lt_of_lt_of_le (hold p hp) (hdraws.preSelection hpre₁)
    obtain ⟨g, ds, hg, rfl, hfree', heval'⟩ := ih hrest h hcontext hold₁
    refine ⟨fun v => (f v).bind g, cs ++ ds, ?_, ?_, fun c hc => ?_, fun env henv source => ?_⟩
    · simp only [windowAll, hf, hg, Option.bind_some, Option.map_some]
    · rw [calls_append]
    · exact (mem_append.1 hc).elim (hfree c) (hfree' c)
    · rw [calls_append, heval' env henv, heval env henv, Option.bind_assoc]

end Compiler

end WindowAll

/-! ## Extensions with one that numbers -/

/-- The extensions filter, sort and page.  One among them, if there is a key, adds the position of
each element under that key. -/
def Extension.Arranged (services : Provider) (extensions : List Extension) : Option String → Prop
  | none => ∀ x ∈ extensions, x.Window services
  | some key => ∃ before after, extensions = before ++ .position key :: after
      ∧ (∀ x ∈ before, x.Window services) ∧ ∀ x ∈ after, x.Window services

theorem Extension.Arranged.builtIn (h : Arranged services extensions key) :
    ∀ x ∈ extensions, x.BuiltIn fun _ => True := by
  cases key with
  | none => exact fun x hx => (h x hx).builtIn
  | some key =>
    obtain ⟨before, after, rfl, hbefore, hafter⟩ := h
    intro x hx
    rcases mem_append.1 hx with hx | hx
    · exact (hbefore x hx).builtIn
    · rcases mem_cons.1 hx with rfl | hx
      · exact .position key
      · exact (hafter x hx).builtIn

theorem Extension.Arranged.preSelection_gives (h : Arranged services extensions key)
    {context : HookContext} (hmaterialized : context.materialized = true) :
    ∀ x ∈ extensions, ∀ {pre j pre' j'}, Gives (x.preSelection context pre) j pre' j'
      ↔ pre' = pre ∧ j' = j :=
  fun x hx => (h.builtIn x hx).known.preSelection_gives hmaterialized

/-- What the elements are after the extensions have run. -/
def View.of (key : Option String) : View :=
  key.elim .plain fun _ => .numbered

/-- The placeholder that stands for each element after the extensions have run. -/
def elementOf (key : Option String) (element : Parameter) (n : Nat) : Parameter :=
  key.elim element fun _ => ⟨n, "positioned", .record (Shape.indexed element.ty)⟩

/-- What extensions make of the value of a collection, given the arguments, and what they leave for
the selection of its elements. -/
structure Arrangement (services : Provider) (extensions : List Extension) (key : Option String)
    (window : HookArguments → Option (Value → Option Value)) : Prop where
  accepts : ∀ {context : HookContext} {arguments : HookArguments}, context.materialized = false →
    context.Sees arguments → (window arguments).isSome = true → ∀ pre m, ∃ pre' m',
      Gives (Compiler.runPreSelection context extensions pre) m pre' m'
  acts : ∀ {context : HookContext} {arguments : HookArguments} {collection : Expr}
      {element : Parameter} {pre : PreSelection} {m m' : Memory}, context.materialized = false →
    context.Sees arguments → collection.ty.element? = some element.ty →
    (∀ p ∈ context.arguments, p.id < m.next) →
    Gives (Compiler.runPreSelection context extensions ⟨collection, element, .parameter element⟩) m
      pre m' →
    ∃ f cs n, window arguments = some f
      ∧ pre = ⟨collection.calls cs, elementOf key element n,
          (View.of key).context element.ty (elementOf key element n)⟩
      ∧ (key.isSome = true → m.next ≤ n ∧ n < m'.next)
      ∧ (∀ c ∈ cs, ∀ a ∈ c.2, ∀ p ∈ a.freeParameters, p ∈ context.arguments)
      ∧ (key = none → ∀ c ∈ cs, c.1.picks = true)
      ∧ ∀ env, context.BoundIn env → ∀ source : Expr,
        (source.calls cs).value? services env = (source.value? services env).bind f
  fits : ∀ {arguments : HookArguments} {f : Value → Option Value}, window arguments = some f →
    ∀ {v w : Value}, v.Eager → f v = some w → w.Eager ∧ w.Elements (View.of key).Fits

theorem Expr.ty_calls {cs : List (Method × List Expr)} (h : ∀ c ∈ cs, c.1.picks = true) (e : Expr) :
    (e.calls cs).ty = e.ty := by
  induction cs generalizing e with
  | nil => rfl
  | cons c cs ih =>
    obtain ⟨hc, hcs⟩ := forall_mem_cons.1 h
    refine (ih hcs (.call c.1 e c.2)).trans ?_
    show callTy c.1 e.ty = e.ty
    generalize c.1 = method at hc
    cases method with
    | filter => rfl
    | orderBy => rfl
    | skip => rfl
    | take => rfl
    | _ => cases hc

/-- The elements of a collection, with their positions. -/
def enumerated (v : Value) : Option Value :=
  (Method.enumerate.apply v []).value?

theorem fits_indexedFrom (items : List Value) (hitems : ∀ x ∈ items, x.Eager) (start : Nat) :
    ∀ x ∈ Method.indexedFrom start items, View.numbered.Fits x := by
  induction items generalizing start with
  | nil => exact forall_mem_nil _
  | cons item rest ih =>
    obtain ⟨hitem, hrest⟩ := forall_mem_cons.1 hitems
    refine forall_mem_cons.2 ⟨⟨Value.eager_object.2 ?_, item, rfl, hitem⟩, ih hrest (start + 1)⟩
    exact forall_mem_cons.2 ⟨trivial, forall_mem_cons.2 ⟨hitem, fun _ h => nomatch h⟩⟩

theorem fits_of_enumerated (hv : v.Eager) (hw : enumerated v = some w) :
    w.Eager ∧ w.Elements View.numbered.Fits := by
  have hends : (Method.enumerate.apply v []).Ends
      (fun w => w.Eager ∧ w.Elements View.numbered.Fits) fun _ => True := by
    unfold Method.apply
    split
    · exact ⟨Value.kept_eager.null, fun items hitems => nomatch hitems⟩
    · refine (Value.kept_eager.ends_elements hv).bind fun items hitems => ?_
      have hall := fits_indexedFrom items hitems 0
      refine ⟨Value.eager_list.2 fun x hx => (hall x hx).eager, fun items' hitems' => ?_⟩
      obtain rfl := Option.some.inj hitems'
      exact hall
  exact hends.of_ok (Run.value?_eq_some_iff.1 hw)

theorem Compiler.runPreSelection_append_gives {context : HookContext}
    {first second : List Extension} :
    Gives (runPreSelection context (first ++ second) pre) m pre' m'
      ↔ ∃ pre₁ m₁, Gives (runPreSelection context first pre) m pre₁ m₁
          ∧ Gives (runPreSelection context second pre₁) m₁ pre' m' := by
  have happend : runPreSelection context (first ++ second) pre
      = runPreSelection context first pre >>= runPreSelection context second := by
    induction first generalizing pre with
    | nil => exact (pure_bind _ _).symm
    | cons x rest ih => simp only [cons_append, runPreSelection, bind_assoc, ih]
  rw [happend, gives_bind]

namespace Extension

variable {services : Provider} {extensions : List Extension}

theorem recordMember?_indexed (h : p.ty = .record (Shape.indexed ty)) :
    Expr.recordMember? (.parameter p) "index" = some (.member (.parameter p) "index" .int)
      ∧ Expr.recordMember? (.parameter p) "item" = some (.member (.parameter p) "item" ty) := by
  have hother : Text.sameIgnoringCase "index" "item" = false := by decide
  simp [Expr.recordMember?, Expr.ty, h, Ty.shape?, Shape.field?, Shape.indexed, hother]

theorem position_numbers {key : String} {context : HookContext} {j j' : Journal}
    (hmaterialized : context.materialized = false)
    (hcontext : pre.elementContext = .parameter pre.element)
    (hty : pre.collection.ty.element? = some pre.element.ty) :
    Gives ((position key).preSelection context pre) j pre' j'
      ↔ pre' = ⟨.call .enumerate pre.collection [], elementOf (some key) pre.element j.next,
          View.numbered.context pre.element.ty (elementOf (some key) pre.element j.next)⟩
        ∧ j' = { j with next := j.next + 1 } := by
  have hindexed : positionParameter pre j.next = elementOf (some key) pre.element j.next := by
    rw [positionParameter, Ty.elementOrNull, hty]
    rfl
  have hitem : recordMember? (.parameter (elementOf (some key) pre.element j.next)) "item"
      = some (View.numbered.context pre.element.ty (elementOf (some key) pre.element j.next)) :=
    (recordMember?_indexed rfl).2
  rw [position_gives, hmaterialized, hindexed, hcontext]
  simp only [Bool.false_eq_true, false_and, false_or, true_and, replace_parameter, existsAndEq,
    hitem, Option.some.injEq]

theorem acts_of_windows (h : ∀ x ∈ extensions, x.Window services) :
    ∃ window : Extension → View → HookArguments → Option (Value → Option Value),
      ∀ x ∈ extensions, x.Acts services (window x) := by
  choose! window hacts using fun x (hx : x ∈ extensions) => (h x hx).acts
  exact ⟨window, hacts⟩

theorem arrangement_of_windows (h : ∀ x ∈ extensions, x.Window services) :
    ∃ window, Arrangement services extensions none window := by
  obtain ⟨window, hacts⟩ := acts_of_windows h
  refine ⟨windowAll window extensions .plain, runPreSelection_accepts hacts, ?_, ?_⟩
  · intro context arguments collection element pre m m' hmaterialized hsees hty hold hpre
    have hcontext : parameter element = View.plain.context element.ty element := rfl
    obtain ⟨f, cs, hf, rfl, hfree, heval⟩ := runPreSelection_acts
      (fun x hx => ⟨hacts x hx, (h x hx).builtIn.draws⟩) hmaterialized hsees hpre hcontext hold
    exact ⟨f, cs, 0, hf, rfl, nofun, fun c hc => (hfree c hc).2,
      fun _ c hc => (hfree c hc).1, heval⟩
  · intro arguments f hf v w hv hw
    have hpicks := picksFrom_of_windowAll hacts hf hw
    exact ⟨hpicks.eager hv, (hpicks.eager hv).elements.imp fun _ => View.fits_plain⟩

theorem arrangement_of_position {before after : List Extension} (key : String)
    (hbefore : ∀ x ∈ before, x.Window services) (hafter : ∀ x ∈ after, x.Window services) :
    ∃ window, Arrangement services (before ++ .position key :: after) (some key) window := by
  obtain ⟨first, hfirst⟩ := acts_of_windows hbefore
  obtain ⟨second, hsecond⟩ := acts_of_windows hafter
  have hdraws : ∀ {xs : List Extension} {pre pre' : PreSelection} {context : HookContext}
      {m m' : Memory}, (∀ x ∈ xs, x.Window services) →
      Gives (runPreSelection context xs pre) m pre' m' → m.next ≤ m'.next := by
    intro xs pre pre' context m m' hxs hpre
    have honward : m.Onward .full .operation m' :=
      onward_of_runPreSelection (fun x hx => (hxs x hx).builtIn.draws) hpre
    exact honward.next
  refine ⟨fun arguments => (windowAll first before .plain arguments).bind fun f =>
    (windowAll second after .numbered arguments).map fun g v =>
      ((f v).bind enumerated).bind g, ?_, ?_, ?_⟩
  · intro context arguments hmaterialized hsees haccepts pre m
    obtain ⟨_, haccepts⟩ := Option.isSome_iff_exists.1 haccepts
    obtain ⟨f, hf, haccepts⟩ := Option.bind_eq_some_iff.1 haccepts
    obtain ⟨g, hg, -⟩ := Option.map_eq_some_iff.1 haccepts
    obtain ⟨pre₁, m₁, hpre₁⟩ := runPreSelection_accepts hfirst hmaterialized hsees
      (Option.isSome_iff_exists.2 ⟨f, hf⟩) pre m
    obtain ⟨pre₂, j₂, hpre₂⟩ : ∃ pre₂ j₂,
        Gives ((position key).preSelection context pre₁) m₁.toJournal pre₂ j₂ := by
      exact ⟨_, _, position_gives.2 (.inr ⟨hmaterialized, _, _, rfl,
        (recordMember?_indexed rfl).2, rfl, rfl⟩)⟩
    obtain ⟨pre₃, m₃, hpre₃⟩ := runPreSelection_accepts hsecond hmaterialized hsees
      (Option.isSome_iff_exists.2 ⟨g, hg⟩) pre₂ { m₁ with toJournal := j₂ }
    exact ⟨pre₃, m₃, runPreSelection_append_gives.2
      ⟨pre₁, m₁, hpre₁, runPreSelection_cons_gives.2 ⟨pre₂, j₂, hpre₂, hpre₃⟩⟩⟩
  · intro context arguments collection element pre m m' hmaterialized hsees hty hold hpre
    obtain ⟨pre₁, m₁, hpre₁, hpre⟩ := runPreSelection_append_gives.1 hpre
    have hplain : parameter element = View.plain.context element.ty element := rfl
    obtain ⟨f, cs, hf, rfl, hfree, heval⟩ := runPreSelection_acts
      (fun x hx => ⟨hfirst x hx, (hbefore x hx).builtIn.draws⟩) hmaterialized hsees
        hpre₁ hplain hold
    obtain ⟨pre₂, j₂, hpre₂, hpre₃⟩ := runPreSelection_cons_gives.1 hpre
    have hty₁ : (collection.calls cs).ty.element? = some element.ty := by
      rw [ty_calls fun c hc => (hfree c hc).1]
      exact hty
    obtain ⟨rfl, rfl⟩ := (position_numbers hmaterialized rfl hty₁).1 hpre₂
    have hm₁ : m.next ≤ m₁.next := hdraws hbefore hpre₁
    have hold₁ : ∀ p ∈ context.arguments, p.id < m₁.next + 1 := fun p hp =>
      Nat.lt_succ_of_lt (Nat.lt_of_lt_of_le (hold p hp) hm₁)
    obtain ⟨g, ds, hg, rfl, hfree', heval'⟩ := runPreSelection_acts
      (fun x hx => ⟨hsecond x hx, (hafter x hx).builtIn.draws⟩) hmaterialized hsees hpre₃
      (Eq.refl (View.numbered.context element.ty _)) hold₁
    refine ⟨fun v => ((f v).bind enumerated).bind g, cs ++ (.enumerate, []) :: ds, m₁.next, ?_, ?_,
      fun _ => ⟨hm₁, hdraws hafter hpre₃⟩, fun c hc => ?_, (absurd · (Option.some_ne_none key)),
      fun env henv source => ?_⟩
    · rw [hf, hg]
      rfl
    · rw [calls_append]
      rfl
    · rcases mem_append.1 hc with hc | hc
      · exact (hfree c hc).2
      · rcases mem_cons.1 hc with rfl | hc
        · exact forall_mem_nil _
        · exact (hfree' c hc).2
    · rw [calls_append]
      show ((call .enumerate (source.calls cs) []).calls ds).value? services env = _
      rw [heval' env henv, value?_call, heval env henv]
      simp only [Option.bind_assoc]
      rfl
  · intro arguments f hf v w hv hw
    obtain ⟨f₁, hf₁, hf⟩ := Option.bind_eq_some_iff.1 hf
    obtain ⟨f₂, hf₂, rfl⟩ := Option.map_eq_some_iff.1 hf
    obtain ⟨u₂, hu₂, hw⟩ := Option.bind_eq_some_iff.1 hw
    obtain ⟨u₁, hu₁, hu₂⟩ := Option.bind_eq_some_iff.1 hu₂
    obtain ⟨heager, hfits⟩ := fits_of_enumerated
      ((picksFrom_of_windowAll hfirst hf₁ hu₁).eager hv) hu₂
    have hpicks := picksFrom_of_windowAll hsecond hf₂ hw
    exact ⟨hpicks.eager heager, hpicks.elements hfits⟩

/-- **What extensions mean**: there is a function of the arguments that says what they make of the
value of a collection. -/
theorem Arranged.arrangement (h : Arranged services extensions key) :
    ∃ window, Arrangement services extensions key window := by
  cases key with
  | none => exact arrangement_of_windows h
  | some key =>
    obtain ⟨before, after, rfl, hbefore, hafter⟩ := h
    exact arrangement_of_position key hbefore hafter

end Extension

end QueryProjection
