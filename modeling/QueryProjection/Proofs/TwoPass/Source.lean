import QueryProjection.Proofs.Compile.Closed
import QueryProjection.Proofs.TwoPass.Answer

/-!
# What a field resolves to

Compiling a field puts its resolver into the context of the field, with a parameter for the
arguments. A field that comes by a fragment is compiled in a context of the fragment's own and moved
to where the fragment is spread.  This module says what assumptions the comparison of the two passes
rests on, and that none of this moving about changes what the resolver means
(`Interpretation.value?_placed`).

* `FieldDefinition.Regular` and `SelectedField.Regular` are the assumptions on the schema and the
  document;
* `Interpretation.Runs` says that an environment gives a compiled field what it needs.

`Interpretation.Reaches` says of a context what is needed of it later: wherever the resolver is put
in its place, it evaluates to a function of the value of the context.  That is why fields below can
be compared without a look at how their contexts came about, in a fragment, in a placeholder or at
the root, where the context is one of the schema's own parameters.
-/

namespace QueryProjection

open Environment Expr Resolve

/-! ## Types -/

/-- The type is an object type of the schema. -/
def Ty.IsObject (ty : Ty) : Prop :=
  ∃ name, ty = .object name

/-- The type is not that of a record. -/
def Ty.Bare (ty : Ty) : Prop :=
  ty.shape? = none

/-- The first type is what can become of the second one when types of which `R` holds are put in
place of object types. -/
def Ty.Under (R : Ty → Prop) (a : Ty) : Ty → Prop
  | .object _ => R a
  | .record _ => a.shape?.isSome = true
  | .list b => ∃ inner, a.element? = some inner ∧ Under R inner b
  | .map b => ∃ inner, a.element? = some inner ∧ Under R inner b
  | .null => True
  | .scalar _ => True
  | .function _ => True

theorem Ty.IsObject.bare {ty : Ty} (h : ty.IsObject) : ty.Bare := by
  obtain ⟨name, rfl⟩ := h
  rfl

namespace Ty.Under

variable {R : Ty → Prop} {a b : Ty}

theorem refl (hR : ∀ name, R (.object name)) (a : Ty) : Under R a a := by
  match a with
  | .object name => exact hR name
  | .record _ => exact rfl
  | .list a | .map a => exact ⟨a, rfl, refl hR a⟩
  | .null | .scalar _ | .function _ => trivial

theorem of_isObject (h : R a) (hb : b.IsObject) : Under R a b := by
  obtain ⟨name, rfl⟩ := hb
  exact h

theorem trans {a b c : Ty} (h : Under R a b) (h' : Under IsObject b c) : Under R a c := by
  have helement : ∀ {inner : Ty}, b.element? = some inner → ∃ inner', a.element? = some inner'
      ∧ Under R inner' inner := by
    intro inner hinner
    cases b with
    | list b | map b => exact Option.some.inj hinner ▸ h
    | _ => cases hinner
  match c with
  | .object name =>
    obtain ⟨name', rfl⟩ : b.IsObject := h'
    exact h
  | .record fields =>
    cases b with
    | record fields' => exact h
    | _ => cases h'
  | .list c | .map c =>
    obtain ⟨inner, hinner, h'⟩ := h'
    obtain ⟨inner', hinner', h⟩ := helement hinner
    exact ⟨inner', hinner', trans h h'⟩
  | .null | .scalar _ | .function _ => trivial

theorem elementOrNull (h : Under R a b) : Under R a.elementOrNull b.elementOrNull := by
  have helement : ∀ {b'}, (∃ inner, a.element? = some inner ∧ Under R inner b') →
      Under R a.elementOrNull b' := by
    rintro b' ⟨inner, hinner, h⟩
    rw [Ty.elementOrNull, hinner]
    exact h
  cases b with
  | list b | map b => exact helement h
  | _ => trivial

theorem callTy (h : Under R a b) (method : Method) :
    Under R (callTy method a) (callTy method b) := by
  cases method with
  | filter => exact h
  | orderBy => exact h
  | skip => exact h
  | take => exact h
  | count => trivial
  | first => exact h.elementOrNull
  | enumerate => exact ⟨_, rfl, rfl⟩

theorem binaryTy (h : Under R a b) (op : Operator) :
    Under R (binaryTy op a) (binaryTy op b) := by
  cases op with
  | coalesce => exact h
  | _ => trivial

end Ty.Under

variable {e context : Expr} {R : Ty → Prop} {definition : FieldDefinition}
  {arguments own : Option Parameter} {services : Provider} {values : VariableValues} {next : Nat}
  {field : SelectedField} {selections : List Selection} {I : Interpretation} {v x : Value}
  {p : Parameter} {env : Environment}

namespace Expr

variable {R : Ty → Prop} (hR : ∀ name, R (.object name))

include hR

theorem under_mapParts {f : List Parameter → Expr → Expr}
    (h : ∀ part ∈ e.parts, Ty.Under R (f part.1 part.2).ty part.2.ty) :
    Ty.Under R (e.mapParts f).ty e.ty := by
  cases e with
  | call method => exact Ty.Under.callTy (h _ List.mem_cons_self) method
  | binary op => exact Ty.Under.binaryTy (h _ List.mem_cons_self) op
  | lambda => trivial
  | record => exact rfl
  | projectEach source element body =>
    have helement : ∀ (c : Bool) (t : Ty), (if c then Ty.map t else .list t).element? = some t := by
      rintro (_ | _) t <;> rfl
    have hbody := h ([element], body) (by simp [parts])
    rw [mapParts, ty, ty]
    cases source.ty.isMap with
    | true => exact ⟨_, helement _ _, hbody⟩
    | false => exact ⟨_, helement _ _, hbody⟩
  | projectOne _ element body => exact h ([element], body) (by simp [parts])
  | materialize inner => exact h ([], inner) (by simp [parts])
  | _ => exact .refl hR _

variable {old : Parameter} {target : Expr} (hty : Ty.Under R target.ty old.ty)

include hty

theorem under_replaceUnder (e : Expr) (bound : List Parameter) :
    Ty.Under R (replaceUnder (Replacement.identity old).picks target bound e).ty e.ty := by
  induction e using induct_parts generalizing bound with
  | parameter p =>
    rw [replaceUnder]
    split
    · rename_i hp
      obtain rfl : old = p := by simpa [Replacement.picks] using hp.2
      exact hty
    · exact .refl hR _
  | node e he ih =>
    rw [replaceUnder_eq_mapParts he]
    exact under_mapParts hR fun part hpart => ih part hpart _

theorem under_replace (e : Expr) : Ty.Under R (e.replace (.identity old) target).ty e.ty :=
  under_replaceUnder hR hty e []

end Expr

theorem Resolve.under_place (hR : ∀ name, R (.object name)) (hcontext : R context.ty)
    (hobject : definition.context.ty.IsObject)
    (harguments : ∀ p ∈ arguments, p.ty = definition.argumentsParameter.ty) (resolver : Expr) :
    Ty.Under R (place definition context arguments resolver).ty resolver.ty := by
  rw [ty_place definition context harguments]
  exact under_replace hR (.of_isObject hcontext hobject) resolver

/-! ## Assumptions -/

/-- What is assumed of a field of the schema.  Its own parameters and those of its resolver have
numbers below `next`.  There is no lazy sequence in its constants, and its resolver neither projects
the elements of a collection nor binds the field's context again.  Its extensions filter, sort and
page, and one of them may add positions. -/
structure FieldDefinition.Regular (services : Provider) (next : Nat)
    (definition : FieldDefinition) : Prop where
  context_ty : definition.context.ty.IsObject
  arguments_ty : ∃ shape, definition.argumentsParameter.ty = .record shape
  context_id : definition.context.id < next
  arguments_id : definition.argumentsParameter.id < next
  free : ∀ p ∈ definition.resolve.freeParameters, p.id < next
  binders : ∀ p ∈ definition.resolve.binders, p.id < next
  own : definition.context ∉ definition.resolve.binders
  resolve : definition.resolve.Built Value.Eager False
  defaults : ∀ a ∈ definition.arguments, ∀ v ∈ a.2.default, v.Eager
  extensions :
    definition.shape = .list → ∃ key, Extension.Arranged services definition.extensions key

/-- The context can be put into the resolver of a field: nothing in the resolver binds it, and it is
not taken for the arguments. -/
structure FieldDefinition.Takes (definition : FieldDefinition) (context : Parameter) : Prop where
  unbound : context ∉ definition.resolve.binders
  other : context ≠ definition.argumentsParameter

/-- What is assumed of a selected field whatever the values of its arguments are: it has selections
below it only if its type has fields. -/
structure SelectedField.Sound (services : Provider) (next : Nat) (field : SelectedField)
    (selections : List Selection) : Prop where
  definition : field.definition.Regular services next
  selections : selections ≠ [] → field.definition.outputType?.isSome = true

/-- What is assumed of a selected field: the values of its arguments are eager, and it has
selections below it only if its type has fields. -/
structure SelectedField.Regular (services : Provider) (values : VariableValues) (next : Nat)
    (field : SelectedField) (selections : List Selection) : Prop where
  definition : field.definition.Regular services next
  given : field.Given Value.Eager values
  selections : selections ≠ [] → field.definition.outputType?.isSome = true

theorem SelectedField.Regular.sound (h : field.Regular services values next selections) :
    field.Sound services next selections :=
  ⟨h.definition, h.selections⟩

theorem FieldDefinition.Regular.takes_of_le (hd : definition.Regular services next)
    {context : Parameter} (h : next ≤ context.id) : definition.Takes context where
  unbound hmem := absurd (hd.binders _ hmem) (Nat.not_lt_of_le h)
  other heq := absurd hd.arguments_id (Nat.not_lt_of_le (heq ▸ h))

/-- The resolver of a field takes the context that it is written for. -/
theorem FieldDefinition.Regular.takes_context (hd : definition.Regular services next) :
    definition.Takes definition.context where
  unbound := hd.own
  other heq := by
    obtain ⟨name, hname⟩ := hd.context_ty
    obtain ⟨shape, hshape⟩ := hd.arguments_ty
    rw [heq, hshape] at hname
    cases hname

/-- What is assumed of an interpretation. -/
structure Interpretation.Regular (I : Interpretation) : Prop where
  services : I.services.Keep Value.Eager
  base : ∀ p v, I.base p = some v → v.Eager
  number : ∀ {extensions}, (∃ key, Extension.Arranged I.services extensions key) →
    Extension.Arranged I.services extensions (I.number extensions)
  window : ∀ {extensions}, (∃ key, Extension.Arranged I.services extensions key) →
    Arrangement I.services extensions (I.number extensions) (I.window extensions)

/-- What the extensions leave is eager, and so are the objects in it. -/
theorem Interpretation.fits_of_window? (hI : I.Regular)
    (hd : field.definition.Regular I.services next) {f : Value → Option Value}
    (hf : I.window? field = some f) {w : Value} (hv : v.Eager) (hw : f v = some w) :
    w.Eager ∧ w.EachOf field.definition.shape (View.of (I.key? field)).Fits := by
  unfold window? at hf
  unfold key?
  split at hf
  · rename_i hlist
    obtain ⟨record, -, hf⟩ := Option.bind_eq_some_iff.1 hf
    rw [if_pos hlist, hlist]
    exact (hI.window (hd.extensions hlist)).fits hf hv hw
  · rename_i hlist
    obtain rfl := Option.some.inj hf
    obtain rfl := Option.some.inj hw
    rw [if_neg hlist]
    refine ⟨hv, ?_⟩
    cases hshape : field.definition.shape with
    | leaf => trivial
    | object => exact View.fits_plain hv
    | list => exact absurd hshape hlist

theorem SelectedField.Regular.eager_record (h : field.Regular services values next selections)
    {record : List (String × Value)} (hrecord : field.record? values = some (some record)) :
    (Value.object record).Eager := by
  unfold record? at hrecord
  split at hrecord
  · cases hrecord
  · obtain ⟨result, hok, heq⟩ := Option.map_eq_some_iff.1 hrecord
    obtain rfl := Option.some.inj heq
    cases hvalues : argumentValues field values .operation field.definition.arguments with
    | error e => simp [hvalues, Except.toOption] at hok
    | ok result' =>
      obtain rfl : result' = result := by simpa [hvalues, Except.toOption] using hok
      exact Value.eager_object.2 (all_argumentValues Value.kept_eager h.given
        h.definition.defaults hvalues)

theorem Interpretation.Regular.eager_withArguments (hI : I.Regular)
    (h : field.Regular I.services I.values next selections)
    {record : Option (List (String × Value))} (hrecord : field.record? I.values = some record) :
    Eager (record.elim I.base fun values =>
      I.base.bind field.definition.argumentsParameter (.object values)) := by
  cases record with
  | none => exact hI.base
  | some values => exact Eager.bind hI.base (h.eager_record hrecord)

theorem Interpretation.eager_of_source? (hI : I.Regular)
    (h : field.Regular I.services I.values next selections) (hx : x.Eager)
    (hv : I.source? field x = some v) : v.Eager := by
  obtain ⟨record, hrecord, hv⟩ := Option.bind_eq_some_iff.1 hv
  exact Expr.eager_of_value? hI.services h.definition.resolve
    (fun p _ => (hI.eager_withArguments h hrecord).bind hx p) hv

/-! ## Moving a field of a fragment -/

/-- The expression moved from a fragment's own context, if there is one, to another context. -/
def Expr.moved (e : Expr) (own : Option Parameter) (context : Expr) : Expr :=
  own.elim e fun q => e.replace (.identity q) context

theorem Expr.value?_moved (hreads : context.ReadsOf p) (hp : p ∉ e.binders)
    (hx : context.value? services env = some x) :
    (e.moved own context).value? services env
      = e.value? services (own.elim env (env.bind · x)) := by
  cases own with
  | none => rfl
  | some q => exact value?_replace hreads hp hx

theorem Resolve.binders_place (definition : FieldDefinition) (hreads : context.ReadsOf p)
    (arguments : Option Parameter) (resolver : Expr) :
    (place definition context arguments resolver).binders = resolver.binders := by
  cases arguments with
  | none => exact binders_replace _ _ hreads
  | some p => exact (binders_replace _ _ .parameter).trans (binders_replace _ _ hreads)

/-- The context that a field is compiled in: its own one, if it has one. -/
def ownContext (own : Option Parameter) (context : Expr) : Expr :=
  own.elim context Expr.parameter

theorem Resolve.under_moved (hR : ∀ name, R (.object name))
    (hobject : definition.context.ty.IsObject) (hown : ∀ q ∈ own, q.ty.IsObject)
    (hcontext : R context.ty)
    (harguments : ∀ p ∈ arguments, p.ty = definition.argumentsParameter.ty) (resolver : Expr) :
    Ty.Under R ((place definition (ownContext own context) arguments resolver).moved own context).ty
      resolver.ty := by
  cases own with
  | none => exact under_place hR hcontext hobject harguments resolver
  | some q =>
    have hq : (parameter q).ty.IsObject := hown q rfl
    exact .trans (under_replace hR (.of_isObject hcontext hq) _)
      (under_place (fun name => ⟨name, rfl⟩) hq hobject harguments resolver)

/-! ## Environments -/

namespace Interpretation

variable {I : Interpretation} {next : Nat} {definition : FieldDefinition}

/-- The environment gives the schema's parameters and the context of a field their values, and the
constants of the compiled field theirs. -/
structure Runs (I : Interpretation) (next : Nat) (context : Expr) (x : Value)
    (constants : Constants) (env : Environment) : Prop where
  base : ∀ p, p.id < next → env p = I.base p
  context : context.value? I.services env = some x
  constants : ∀ p v, constants.get? p = some v → env p = some v

/-- What a selection is evaluated in: its element is newer than the schema, and its constants are
newer still. -/
theorem runs_bind {T : Ty → Prop} {constants : Constants} {element : Parameter} {first last : Nat}
    (hold : next ≤ element.id) (hnew : element.id < first) (hdrawn : constants.Drawn T first last)
    (hbase : ∀ p, p.id < next → env p = I.base p)
    (hconstants : ∀ p v, constants.get? p = some v → env p = some v) (z : Value) :
    I.Runs next (.parameter element) z constants (env.bind element z) where
  base p hp := by
    refine (env.bind_of_ne ?_ z).trans (hbase p hp)
    rintro rfl
    exact absurd hp (Nat.not_lt_of_le hold)
  context := (Expr.value?_parameter element).trans (env.bind_self element z)
  constants p v hv := by
    refine (env.bind_of_ne ?_ z).trans (hconstants p v hv)
    rintro rfl
    exact absurd (hdrawn.range _ (Constants.mem_keys_of_get? hv)).1 (Nat.not_le_of_lt hnew)

variable {context : Expr} {c root : Parameter}

theorem value?_placed (hd : definition.Regular I.services next) (hown : ∀ q ∈ own, next ≤ q.id)
    (hreads : context.ReadsOf c) (htakes : definition.Takes c)
    (hbase : ∀ p, p.id < next → env p = I.base p) (hx : context.value? I.services env = some x)
    (hp : next ≤ p.id) (hne : p ∉ own) {record : Option (List (String × Value))}
    (hrecord : ∀ values ∈ record, env p = some (.object values)) :
    ((place definition (ownContext own context) (record.map fun _ => p)
        definition.resolve).moved own context).value? I.services env
      = definition.resolve.value? I.services (I.environment definition record x) := by
  -- Parameters with numbers from `next` on are not bound in the resolver and do not stand in the
  -- way.
  have hother : ∀ q : Parameter, q.id < next → ∀ r : Parameter, next ≤ r.id → q ≠ r := by
    rintro q hq r hr rfl
    exact absurd hq (Nat.not_lt_of_le hr)
  obtain ⟨c', hreads', htakes', hhere⟩ : ∃ c', (ownContext own context).ReadsOf c'
      ∧ definition.Takes c' ∧ (ownContext own context).value? I.services
          (own.elim env (env.bind · x)) = some x := by
    cases own with
    | none => exact ⟨c, hreads, htakes, hx⟩
    | some r =>
      exact ⟨r, .parameter, hd.takes_of_le (hown r rfl),
        (Expr.value?_parameter r).trans (env.bind_self r x)⟩
  rw [Expr.value?_moved hreads (by rw [binders_place _ hreads']; exact htakes.unbound) hx]
  have henv : ∀ q, q.id < next → (own.elim env (env.bind · x)) q = I.base q := by
    intro q hq
    cases own with
    | none => exact hbase q hq
    | some r => exact (env.bind_of_ne (hother q hq r (hown r rfl)) x).trans (hbase q hq)
  have harguments : (own.elim env (env.bind · x)) p = env p := by
    cases own with
    | none => rfl
    | some r => exact env.bind_of_ne (fun h => hne (by rw [h]; rfl)) x
  generalize own.elim env (env.bind · x) = env₁ at henv hhere harguments ⊢
  generalize ownContext own context = context' at hreads' hhere ⊢
  cases record with
  | none =>
    show (definition.resolve.replace _ _).value? _ _ = _
    rw [Expr.value?_replace hreads' htakes'.unbound hhere]
    exact Expr.value?_congr fun q hq => bind_congr (henv q (hd.free q hq))
  | some values =>
    show ((definition.resolve.replace _ _).replace _ _).value? _ _ = _
    have hvalue : (Expr.parameter p).value? I.services env₁ = some (.object values) :=
      (Expr.value?_parameter p).trans (harguments.trans (hrecord values rfl))
    have hbinder :
        p ∉ (definition.resolve.replace (.identity definition.context) context').binders := by
      rw [Expr.binders_replace _ _ hreads']
      exact fun hmem => absurd (hd.binders p hmem) (Nat.not_lt_of_le hp)
    rw [Expr.value?_replace .parameter hbinder hvalue, Expr.value?_replace hreads' htakes'.unbound
      ((hreads'.value?_congr (env₁.bind_of_ne htakes'.other _)).trans hhere)]
    exact Expr.value?_congr fun q hq => bind_congr (bind_congr (henv q (hd.free q hq)))

/-- Wherever the resolver of a field is put in its place for this context, it evaluates to what
`source` gives for the value of the context. -/
def Reaches (I : Interpretation) (next : Nat) (context : Expr) (field : SelectedField)
    (source : Value → Option Value) : Prop :=
  ∀ {record : Option (List (String × Value))} {n : Nat} {own : Option Parameter}
      {env : Environment} {x : Value}, field.record? I.values = some record → next ≤ n →
    (∀ q ∈ own, next ≤ q.id ∧ q.id < n) → (∀ p, p.id < next → env p = I.base p) →
    context.value? I.services env = some x →
    (∀ b ∈ bound field record n, env b.1 = some b.2) →
    ((place field.definition (ownContext own context)
        ((bound field record n).map Prod.fst) field.definition.resolve).moved own
        context).value? I.services env = source x

/-- The resolver of a field with a parameter of the schema in place of its context. -/
def sourceAt? (I : Interpretation) (root : Parameter) (field : SelectedField) : Option Value :=
  (field.record? I.values).bind fun record =>
    (field.definition.resolve.replace (.identity field.definition.context) (.parameter root)).value?
      I.services (record.elim I.base fun values =>
        I.base.bind field.definition.argumentsParameter (.object values))

section Reaches

variable {field : SelectedField} (hd : field.definition.Regular I.services next)

include hd

variable {context : Expr} {c : Parameter}

theorem reaches_of_takes (hreads : context.ReadsOf c) (htakes : field.definition.Takes c) :
    I.Reaches next context field (I.source? field) := by
  intro record n own env x hrecord hn hown hbase hx hbound
  rw [map_fst_bound, value?_placed hd (fun q hq => (hown q hq).1) hreads htakes
    hbase hx hn (fun hq => Nat.lt_irrefl n (hown _ hq).2), source?, hrecord, Option.bind_some]
  rintro values ⟨⟩
  exact hbound _ rfl

/-- Nothing that a resolver binds stands in the way of a new context. -/
theorem reaches_of_le (hreads : context.ReadsOf c) (hc : next ≤ c.id) :
    I.Reaches next context field (I.source? field) :=
  reaches_of_takes hd hreads (hd.takes_of_le hc)

/-- A parameter of the schema may be bound in the resolver, but then it is so in every place. -/
theorem reaches_of_root (hroot : root.ty.IsObject) (hid : root.id < next) :
    I.Reaches next (.parameter root) field fun _ => I.sourceAt? root field := by
  intro record n own env x hrecord hn hown hbase hx hbound
  have hother : ∀ q : Parameter, q.id < next → ∀ r : Parameter, next ≤ r.id → q ≠ r := by
    rintro q hq r hr rfl
    exact absurd hq (Nat.not_lt_of_le hr)
  obtain ⟨name, hname⟩ := hroot
  obtain ⟨shape, hshape⟩ := hd.arguments_ty
  have harguments : root ≠ field.definition.argumentsParameter := by
    rintro rfl
    rw [hshape] at hname
    cases hname
  -- What comes by a fragment is as if it had been put there at once.
  have hmoved : (place field.definition (ownContext own (.parameter root))
        ((bound field record n).map Prod.fst) field.definition.resolve).moved own
        (.parameter root)
      = place field.definition (.parameter root)
          ((bound field record n).map Prod.fst) field.definition.resolve := by
    cases own with
    | none => rfl
    | some q =>
      obtain ⟨hq, hlt⟩ := hown q rfl
      have hreplace : (field.definition.resolve.replace (.identity field.definition.context)
            (.parameter q)).replace (.identity q) (.parameter root)
          = field.definition.resolve.replace (.identity field.definition.context)
            (.parameter root) :=
        Expr.replace_replace (fun h => hother q (hd.binders q h) q hq rfl)
          (fun h => hother q (hd.free q h) q hq rfl) _
      cases record with
      | none => exact hreplace
      | some values =>
        have hne : argumentsParameter field n ≠ q := by
          rintro rfl
          exact Nat.lt_irrefl n hlt
        refine (Expr.replaceUnder_comm (hother _ hd.arguments_id q hq) hne harguments _ []).trans ?_
        exact congrArg (Expr.replace · _ _) hreplace
  have hfree : ∀ p ∈ (field.definition.resolve.replace (.identity field.definition.context)
      (.parameter root)).freeParameters, p.id < next := by
    intro p hp
    rcases Expr.mem_freeParameters_replace hp with ⟨hp, -⟩ | hp
    · exact hd.free p hp
    · exact Expr.mem_freeParameters_parameter.1 hp ▸ hid
  have hbuilt : (field.definition.resolve.replace (.identity field.definition.context)
      (.parameter root)).Built Value.Eager False :=
    (nodewise_built _ _).replace hd.resolve (Expr.ReadsOf.parameter (p := root)).built _
  rw [hmoved, sourceAt?, hrecord, Option.bind_some, map_fst_bound]
  cases record with
  | none => exact Expr.value?_congr fun p hp => hbase p (hfree p hp)
  | some values =>
    have hvalue : (Expr.parameter (argumentsParameter field n)).value? I.services env
        = some (.object values) := (Expr.value?_parameter _).trans (hbound _ rfl)
    have hbinder : argumentsParameter field n ∉ (field.definition.resolve.replace
        (.identity field.definition.context) (.parameter root)).binders := by
      rw [Expr.binders_replace _ _ .parameter]
      exact fun h => hother _ (hd.binders _ h) (argumentsParameter field n) hn rfl
    exact (Expr.value?_replace .parameter hbinder hvalue).trans
      (Expr.value?_congr fun p hp => bind_congr (hbase p (hfree p hp)))

end Reaches

/-- The same, and `source` gives eager values. -/
structure Sources (I : Interpretation) (next : Nat) (context : Expr) (field : SelectedField)
    (source : Value → Option Value) : Prop where
  value : I.Reaches next context field source
  eager : ∀ {x s : Value}, x.Eager → source x = some s → s.Eager

variable (hI : I.Regular) {field : SelectedField} {selections : List Selection}
  (hfield : field.Regular I.services I.values next selections)

include hI hfield

theorem sources_of_le (hreads : context.ReadsOf c) (hc : next ≤ c.id) :
    I.Sources next context field (I.source? field) where
  value := reaches_of_le hfield.definition hreads hc
  eager := eager_of_source? hI hfield

theorem sources_of_root (hroot : root.ty.IsObject) (hid : root.id < next) :
    I.Sources next (.parameter root) field fun _ => I.sourceAt? root field where
  value := reaches_of_root hfield.definition hroot hid
  eager {x s} _ hs := by
    obtain ⟨record, hrecord, hs⟩ := Option.bind_eq_some_iff.1 hs
    exact Expr.eager_of_value? hI.services ((nodewise_built _ _).replace hfield.definition.resolve
        (Expr.ReadsOf.parameter (p := root)).built _)
      (fun p _ => hI.eager_withArguments hfield hrecord p) hs

end Interpretation
end QueryProjection
