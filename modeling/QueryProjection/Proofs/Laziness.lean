import Mathlib.Logic.Function.Iterate
import QueryProjection.Proofs.Bind
import QueryProjection.Proofs.Compile.Made
import QueryProjection.Proofs.Execute.Bound

/-!
# Only the list of a root field stays lazy

Projecting the elements of a collection gives a lazy sequence, and what is lazy may hold what is
lazy again.  In full mode the compiler forces every such sequence but the one of a root field.  It
leaves maps alone too, which are projected member by member, so there it relies on their values to
be objects.

* `Expr.Plain` says of the parts of a schema that there is nothing lazy in them;
* `Expr.Settled` is what fields are compiled to, and `Expr.Settled.eager_or_lazy` what they evaluate
  to, if `Expr.projectsMaps`;
* `Executor.only_root_list_stays_lazy` is the result for the fields of an operation.

Whether a projection is forced is decided by the type of its source when the field is compiled, and
whether it is lazy by the value when it is evaluated.  `Expr.Settled` knows the types, and
`Expr.projectsMaps` says that the values go with them; it looks only at what is really projected on
the way.  The flag of `Expr.Settled` says whether the field is one of the operation.  It is lost
below the first projection, so that further down a sequence can stay only if its source is a map.
-/

namespace QueryProjection

open Compiler List

/-! ## Projecting a value -/

namespace Value

/-- The value is null or an object, as one of a map type should be. -/
def isMapping : Value → Bool
  | .null | .object _ => true
  | _ => false

/-- What a projection of the value runs over. -/
def projected : Value → List Value
  | .null => []
  | .object members => members.map Prod.snd
  | v => v.elements.value?.getD []

/-- The value is a lazy sequence whose elements, if they can be iterated, are eager. -/
def LazyOfEager (v : Value) : Prop :=
  v.isLazy = true ∧ ∀ items, v.elements.result = .ok items → ∀ item ∈ items, item.Eager

variable {v w : Value}

theorem Eager.projected (h : v.Eager) : ∀ item ∈ v.projected, item.Eager := by
  cases v with
  | object members => exact forall_mem_map.2 (eager_object.1 h)
  | list items => exact eager_list.1 h
  | lazy => exact h.elim
  | _ => exact forall_mem_nil _

theorem elements_ofRun (run : Unit → Run EvaluationError (List Value)) :
    (ofRun run).elements = run () :=
  Iteration.toRun_ofRun _

/-- If the elements have eager projections, at most the projection itself is lazy. -/
theorem eager_or_lazy_of_projectValue {body : Value → Run EvaluationError Value}
    (hbody : ∀ item ∈ v.projected, ∀ x, (body item).value? = some x → x.Eager)
    (h : (Expr.projectValue v body).value? = some w) :
    w.Eager ∨ v.isMapping = false ∧ w.LazyOfEager := by
  have hlazy (hitems : v.projected = v.elements.value?.getD []) :
      LazyOfEager (.ofRun fun _ => do Expr.mapItems body (← v.elements)) := by
    refine ⟨rfl, fun results hresults x hx => ?_⟩
    rw [elements_ofRun] at hresults
    obtain ⟨items, hv, hresults⟩ := Option.bind_eq_some_iff.1
      ((Run.value?_bind _ _).symm.trans (Run.value?_eq_some_iff.2 hresults))
    obtain ⟨item, hitem, hx⟩ := mem_of_mapM (Expr.value?_mapItems body items ▸ hresults) hx
    exact hbody item (by rwa [hitems, hv]) x hx
  cases v with
  | null =>
    cases h
    exact .inl (kept_eager.null)
  | object members =>
    obtain ⟨results, hresults, h⟩ := Option.bind_eq_some_iff.1 ((Run.value?_bind _ _).symm.trans h)
    cases h
    rw [Expr.value?_mapMembers] at hresults
    refine .inl (eager_object.2 fun m hm => ?_)
    obtain ⟨item, hitem, hm⟩ := mem_of_mapEntries hresults hm
    exact hbody item (mem_map_of_mem hitem) _ hm
  | _ =>
    cases h
    exact .inr ⟨rfl, hlazy rfl⟩

end Value

theorem Ty.not_isMap_iterate {ty : Ty} (h : ty.element? = none) (n : Nat) :
    ¬ (elementOrNull^[n] ty).isMap = true := by
  induction n generalizing ty with
  | zero =>
    cases ty with
    | map => cases h
    | _ => exact Bool.false_ne_true
  | succ n ih =>
    rw [Function.iterate_succ_apply, elementOrNull, h]
    exact ih rfl

namespace Expr

open Value

/-! ## Compiled fields -/

/-- There is nothing lazy in the expression: it projects no elements, and its constants are
eager. -/
def Plain (e : Expr) : Prop :=
  e.Built Eager False

theorem nodewise_plain : Nodewise (BuiltHere Eager False) Plain :=
  nodewise_built Eager False

/-- Projections of plain expressions, as the compiler makes them in full mode: those of collections
are forced, unless the collection is a map or the field is one of the operation. -/
inductive Settled : Bool → Expr → Prop
  | plain {isRoot : Bool} {e : Expr} (h : e.Plain) : Settled isRoot e
  | record {isRoot : Bool} {shape : Shape} {values : List Expr}
      (h : ∀ e ∈ values, Settled false e) : Settled isRoot (.record shape values)
  | projectOne {isRoot : Bool} {source body : Expr} {element : Parameter} (hsource : source.Plain)
      (hbody : Settled false body) : Settled isRoot (.projectOne source element body)
  | projectEach {isRoot : Bool} {source body : Expr} {element : Parameter} (hsource : source.Plain)
      (hbody : Settled false body) (h : isRoot = false → source.ty.isMap = true) :
      Settled isRoot (.projectEach source element body)
  | forced {isRoot : Bool} {source body : Expr} {element : Parameter} (hsource : source.Plain)
      (hbody : Settled false body) :
        Settled isRoot (.materialize (.projectEach source element body))

section Replace

variable {target : Expr} {picks : Parameter → Bool}
  (hpicks : ∀ p, picks p = true → p.ty.element? = none)

include hpicks

/-- Where there is a map in the type, in collections of collections, there still is one when
something is put in place of objects. -/
theorem isMap_replaceUnder (e : Expr) (bound : List Parameter) (n : Nat)
    (h : (Ty.elementOrNull^[n] e.ty).isMap = true) :
    (Ty.elementOrNull^[n] (replaceUnder picks target bound e).ty).isMap = true := by
  induction e using induct generalizing bound n with
  | parameter p =>
    rw [replaceUnder]
    split
    · rename_i hp
      exact absurd h (Ty.not_isMap_iterate (hpicks p hp.2) n)
    · exact h
  | lambda => exact absurd h (Ty.not_isMap_iterate rfl n)
  | call method _ _ ih =>
    cases method with
    | count => exact h
    | first => exact ih bound (n + 1) h
    | enumerate =>
      cases n with
      | zero => cases h
      | succ n => exact absurd h (@Ty.not_isMap_iterate (.record _) rfl n)
    | _ => exact ih bound n h
  | binary op _ _ ih =>
    cases op with
    | coalesce => exact ih bound n h
    | _ => exact h
  | projectEach source _ body ihs ihb =>
    have hisMap (c : Bool) (t : Ty) :
        (if c then Ty.map t else .list t).isMap = c := by cases c <;> rfl
    have helement (c : Bool) (t : Ty) :
        (if c then Ty.map t else .list t).elementOrNull = t := by cases c <;> rfl
    rw [replaceUnder, ty]
    rw [ty] at h
    cases n with
    | zero =>
      rw [Function.iterate_zero_apply, hisMap] at h ⊢
      exact ihs bound 0 h
    | succ n =>
      rw [Function.iterate_succ_apply, helement] at h ⊢
      exact ihb _ n h
  | projectOne _ _ _ _ ih => exact ih _ n h
  | materialize _ ih => exact ih bound n h
  | _ => exact h

variable {e : Expr} {isRoot : Bool}

theorem Settled.replaceUnder (htarget : target.Plain) (h : Settled isRoot e)
    (bound : List Parameter) : Settled isRoot (Expr.replaceUnder picks target bound e) := by
  have hplain {e : Expr} (h : e.Plain) (bound : List Parameter) :=
    nodewise_plain.replaceUnder h htarget picks bound
  induction h generalizing bound with
  | plain h => exact .plain (hplain h bound)
  | record _ ih =>
    rw [Expr.replaceUnder, replaceUnderAll_eq_map]
    exact .record (forall_mem_map.2 fun e he => ih e he bound)
  | projectOne hsource _ ih => exact .projectOne (hplain hsource bound) (ih _)
  | projectEach hsource _ hmap ih =>
    exact .projectEach (hplain hsource bound)
      (ih _) fun hroot => isMap_replaceUnder hpicks _ bound 0 (hmap hroot)
  | forced hsource _ ih => exact .forced (hplain hsource bound) (ih _)

end Replace

/-! ## Their values -/

mutual

/-- What has a map type and is projected, at any depth and for any of the elements projected on the
way, is null or an object. -/
def projectsMaps (services : Provider) : Expr → Environment → Bool
  | .record _ values, env => projectAllMaps services values env
  | .projectOne source element body, env =>
    (source.value? services env).all fun v => body.projectsMaps services (env.bind element v)
  | .projectEach source element body, env => (source.value? services env).all fun v =>
    (!source.ty.isMap || v.isMapping)
      && v.projected.all fun item => body.projectsMaps services (env.bind element item)
  | .materialize inner, env => inner.projectsMaps services env
  | _, _ => true

/-- The same for several expressions. -/
def projectAllMaps (services : Provider) : List Expr → Environment → Bool
  | [], _ => true
  | e :: es, env => e.projectsMaps services env && projectAllMaps services es env

end

variable {services : Provider} {env : Environment} {e : Expr} {isRoot : Bool} {v : Value}

theorem projectAllMaps_iff {es : List Expr} :
    projectAllMaps services es env = true ↔ ∀ e ∈ es, e.projectsMaps services env = true := by
  induction es with
  | nil => simp [projectAllMaps]
  | cons e es ih => simp [projectAllMaps, ih]

theorem eager_of_readFields {shape : Shape} {operands : List Operand}
    {members : List (String × Value)}
    (hoperands : ∀ o ∈ operands, ∀ v, (o none).value? = some v → v.Eager)
    (h : (readFields shape operands).value? = some members) : ∀ m ∈ members, m.2.Eager := by
  fun_induction readFields shape operands generalizing members with
  | case1 name _ fields operand operands ih =>
    obtain ⟨hoperand, hoperands⟩ := forall_mem_cons.1 hoperands
    simp only [Run.value?_bind, Option.bind_eq_some_iff] at h
    obtain ⟨v, hv, rest, hrest, h⟩ := h
    cases h
    exact forall_mem_cons.2 ⟨hoperand v hv, ih hoperands hrest⟩
  | case2 =>
    cases h
    exact forall_mem_nil _

variable (hservices : services.Keep Eager)

include hservices

theorem Plain.eager_of_value? (he : e.Plain) (henv : env.Eager)
    (h : e.value? services env = some v) : v.Eager :=
  Expr.eager_of_value? hservices he (fun p _ => henv p) h

/-- Projecting the elements of a plain collection, if that makes eager values of them. -/
theorem eager_or_lazy_of_projectEach {source body : Expr} {element : Parameter}
    (hsource : source.Plain)
    (hbody : ∀ {env v}, env.Eager → body.projectsMaps services env = true →
      body.value? services env = some v → v.Eager) (henv : env.Eager)
    (hmaps : (projectEach source element body).projectsMaps services env = true)
    (h : (projectEach source element body).value? services env = some v) :
    v.Eager ∨ source.ty.isMap = false ∧ v.LazyOfEager := by
  rw [value?_projectEach] at h
  obtain ⟨w, hw, h⟩ := Option.bind_eq_some_iff.1 h
  have hweager := hsource.eager_of_value? hservices henv hw
  simp only [projectsMaps, hw, Option.all_some, Bool.and_eq_true, all_eq_true] at hmaps
  refine (eager_or_lazy_of_projectValue (fun item hitem x hx => ?_) h).imp_right
    fun hlazy => ⟨?_, hlazy.2⟩
  · exact hbody (henv.bind (hweager.projected item hitem)) (hmaps.2 item hitem) hx
  · simpa [hlazy.1] using hmaps.1

/-- **At most the projection of a root field is lazy**, and its elements are not. -/
theorem Settled.eager_or_lazy (hsettled : Settled isRoot e) (henv : env.Eager)
    (hmaps : e.projectsMaps services env = true) (h : e.value? services env = some v) :
    v.Eager ∨ isRoot = true ∧ v.LazyOfEager := by
  have hbelow {v : Value} (h : v.Eager ∨ false = true ∧ v.LazyOfEager) : v.Eager :=
    h.resolve_right fun h => Bool.false_ne_true h.1
  induction hsettled generalizing env v with
  | plain he => exact .inl (he.eager_of_value? hservices henv h)
  | record _ ih =>
    simp only [value?, valueOf, operand, Run.value?_bind, operands_eq_map] at h
    obtain ⟨members, hmembers, h⟩ := Option.bind_eq_some_iff.1 h
    cases h
    refine .inl (eager_object.2 fun m hm => eager_of_readFields (fun o ho v hv => ?_) hmembers m
      (Assoc.mem_ofList hm))
    obtain ⟨e, he, rfl⟩ := mem_map.1 ho
    exact hbelow (ih e he henv (projectAllMaps_iff.1 hmaps e he) hv)
  | projectOne hsource _ ih =>
    rw [value?_projectOne] at h
    obtain ⟨w, hw, h⟩ := Option.bind_eq_some_iff.1 h
    rw [projectsMaps, hw] at hmaps
    split at h
    · cases h
      exact .inl kept_eager.null
    · exact .inl (hbelow (ih (henv.bind (hsource.eager_of_value? hservices henv hw)) hmaps h))
  | projectEach hsource _ hmap ih =>
    refine (eager_or_lazy_of_projectEach hservices hsource
      (fun henv hmaps h => hbelow (ih henv hmaps h)) henv hmaps
      h).imp_right fun hlazy => ⟨?_, hlazy.2⟩
    by_contra hroot
    rw [hmap (Bool.not_eq_true _ ▸ hroot)] at hlazy
    cases hlazy.1
  | forced hsource _ ih =>
    rw [value?_materialize] at h
    obtain ⟨w, hw, h⟩ := Option.bind_eq_some_iff.1 h
    rcases eager_or_lazy_of_projectEach hservices hsource
      (fun henv hmaps h => hbelow (ih henv hmaps h)) henv hmaps hw with hw | ⟨-, hlazy, hitems⟩
    · cases w with
      | lazy => exact hw.elim
      | _ =>
        cases h
        exact .inl hw
    · rw [if_pos hlazy] at h
      obtain ⟨items, hv, rfl⟩ := Option.map_eq_some_iff.1 h
      exact .inl (eager_list.2 (hitems items (Run.value?_eq_some_iff.1 hv)))

end Expr

/-! ## Compiling -/

/-- The extension adds nothing lazy: its first hook keeps the collection and the context of its
elements plain, and its second hook keeps whatever holds of the selected fields, if that holds of
plain expressions. -/
def Extension.Plain (x : Extension) : Prop :=
  ∀ D : Expr → Prop, (∀ {e}, e.Plain → D e) → x.Keeps Expr.Plain D

/-- There is nothing lazy in what a field of the schema resolves to, nor in what its extensions
add. -/
structure FieldDefinition.Plain (definition : FieldDefinition) : Prop where
  resolve : definition.resolve.Plain
  extensions : definition.Hooks Extension.Plain

namespace Compiler

open Expr

theorem making_settled (isRoot : Bool) :
    Making Plain (Settled false) (Settled isRoot) .full isRoot where
  source := .plain
  object {source} element {fields} hsource hfields :=
    .projectOne hsource (.record (forall_mem_map.2 hfields))
  list {scope source} element {fields} hmode hroot hsource hfields := by
    have hbody : Settled false fields.toRecord := .record (forall_mem_map.2 hfields)
    have hmap : (Expr.projectEach source element fields.toRecord).ty.isMap = source.ty.isMap := by
      rw [ty]
      cases source.ty.isMap <;> rfl
    dsimp only [projectList]
    split
    · exact .forced hsource hbody
    · rename_i hlazy
      refine .projectEach hsource hbody fun hnested => ?_
      simpa [hmode, hroot, hnested, hmap] using hlazy
  move := by
    intro e context moved own typeCondition policy parameters path hty he hcontext hmoved
    have hreplaced {replacement : Replacement}
      (hpicks : ∀ p, replacement.picks p = true → p.ty = own.ty) {e : Expr}
        (he : Settled isRoot e) : Settled isRoot (e.replace replacement context) :=
      he.replaceUnder (fun p hp => by rw [hpicks p hp, hty]; rfl) hcontext []
    have hidentity : Settled isRoot (e.replace (.identity own) context) :=
      hreplaced (fun p hp => by simp_all [Replacement.picks]) he
    rcases rebase_eq_ok hmoved with rfl | rfl
    · exact hidentity
    · exact hreplaced (fun p hp => by simp_all [Replacement.picks]) hidentity

end Compiler

namespace Executor

/-- **Only the list of a root field stays lazy.** -/
theorem only_root_list_stays_lazy (executor : Executor)
    (hschema : ∀ definition, executor.schema.Defines definition → definition.Plain)
    (hservices : executor.services.Keep Value.Eager) (text : String) (operation : Option String)
    (document : Document)
    (hparse : Document.parse executor.schema text operation = .ok document) (supplied : Variables)
    (roots : List RootField) (hroots : rootFields
      (.ofDocument document supplied) document = .ok roots)
    (root : RootField) (hroot : root ∈ roots) (m m' : Memory) (compiled : Compiled)
    (hcompiled : Gives ((executor.compilerFor document supplied).compileRoot executor.schema root
      .full .schema) m
      (some compiled) m') (hconstants : compiled.constants.All Value.Eager) (data : Value)
      (hdata : data.Eager)
    (hmaps : compiled.expression.projectsMaps executor.services
      (executor.directEnvironment compiled data) = true)
    (v : Value) (hv : (compiled.expression.valueOf executor.services
      (executor.directEnvironment compiled data)).result = .ok v) :
    v.Eager ∨ v.LazyOfEager := by
  have hplain : root.field.Every fun field _ => field.definition.Plain :=
    (every_of_rootFields (Document.every_of_parse hparse).1 hroots root hroot).imp fun field _ h =>
      hschema _ h.defined
  have hfull : defers .full root.field.field = false := rfl
  rw [compileRoot_schema_gives, hfull, if_neg Bool.false_ne_true] at hcompiled
  obtain ⟨_, heq, hcompiled⟩ := hcompiled
  cases heq
  have hsettled : Expr.Settled true compiled.expression := by
    refine made_of_compileExpanded Expr.nodewise_plain (making_settled false) (hplain.imp ?_) rfl
      (making_settled true) rfl rfl (Expr.nodewise_plain.of_parameter _) hcompiled
    exact fun field _ h => ⟨fun _ => h.resolve,
      fun hshape x hx => h.extensions hshape x hx _ .plain⟩
  have henv : (executor.directEnvironment compiled data).Eager :=
    Environment.Eager.bind (fun p w hw => hconstants _ (Assoc.mem_of_find? hw)) hdata
  exact (hsettled.eager_or_lazy hservices henv hmaps (Run.value?_eq_some_iff.2 hv)).imp_right
    And.right

/-! People with their friends in order, and with their homes, which are a map. -/

namespace Registry

def context : Parameter := ⟨0, "ctx", .object "Query"⟩

def person : Parameter := ⟨1, "person", .object "Person"⟩

def home : Parameter := ⟨2, "home", .object "Home"⟩

def field (context : Parameter) (name : String) (ty : Ty) (extensions : List Extension) :
    String × FieldDefinition :=
  (name, ⟨name, none, context, .member (.parameter context) name ty, ⟨3, "args", .record []⟩, [],
    [], extensions⟩)

def people (context : Parameter) (name : String) : String × FieldDefinition :=
  field context name (.list (.object "Person")) [.position "rank"]

def executor : Executor where
  schema := ⟨"Query", context, [("Query", ⟨"Query", none, context, [people context "people"]⟩),
    ("Person", ⟨"Person", none, person,
      [field person "homes" (.map (.object "Home")) [], people person "friends"]⟩),
    ("Home", ⟨"Home", none, home, [field home "town" .string []]⟩)], 4⟩
  services := .empty

def query : String :=
  "\x7b people \x7b ...P friends \x7b ...P \x7d \x7d \x7d fragment P on Person \x7b homes \x7b town \x7d \x7d"

def everyone : Value :=
  .object
    [("people", .list [.object [("homes", .object [("winter", .object [("town", .string "Oslo")])]),
    ("friends", .list [.object [("homes", .null)]])]])]

theorem plain {definition : FieldDefinition} (h : executor.schema.Defines definition) :
    definition.Plain := by
  have hfield {extensions : List Extension} (hx : ∀ x ∈ extensions, x.Plain) (context : Parameter)
      (name : String) (ty : Ty) : (field context name ty extensions).2.Plain :=
    ⟨trivial, fun _ => hx⟩
  have hnone : ∀ x ∈ ([] : List Extension), x.Plain := forall_mem_nil _
  have hrank : (Extension.position "rank").Plain :=
    fun _ hD => Extension.keeps_position Expr.nodewise_plain hD
  have hpeople := hfield (forall_mem_singleton.2 hrank)
  obtain ⟨type, htype, definition, hdefinition, rfl⟩ := h
  simp only [executor, mem_cons, not_mem_nil, or_false] at htype
  rcases htype with rfl | rfl | rfl <;> simp only [mem_cons, not_mem_nil, or_false] at hdefinition
  · exact hdefinition ▸ hpeople _ _ _
  · rcases hdefinition with rfl | rfl
    · exact hfield hnone _ _ _
    · exact hpeople _ _ _
  · exact hdefinition ▸ hfield hnone _ _ _

def compiles (document : Document) (root : RootField) : Compile (Option Compiled) :=
  (executor.compilerFor document []).compileRoot executor.schema root .full .schema

def result (compiled : Compiled) : Except EvaluationError Value :=
  (compiled.expression.valueOf executor.services
    (executor.directEnvironment compiled everyone)).result

end Registry

open Registry in
/-- The list of people stays lazy, and the lists and maps in it do not. -/
theorem registry_stays_lazy :
    ∃ document roots, Document.parse executor.schema query none = .ok document
    ∧ rootFields (.ofDocument document []) document = .ok roots
    ∧ ∃ root ∈ roots, ∃ compiled m' v, Gives (compiles document root) { next := 4 }
      (some compiled) m'
      ∧ result compiled = .ok v ∧ v.isLazy = true ∧ (v.Eager ∨ v.LazyOfEager) := by
  have hrun : ((Document.parse executor.schema query none).toOption.bind fun document =>
      (rootFields (.ofDocument document []) document).toOption.bind fun roots =>
        roots.head?.bind fun root =>
        (outcome (compiles document root) { next := 4 }).1.toOption.join.bind fun compiled =>
          (result compiled).toOption.map fun v => compiled.constants.entries.isEmpty && v.isLazy
            && compiled.expression.projectsMaps executor.services
              (executor.directEnvironment compiled everyone))
      = some true := by decide +kernel
  simp only [Option.bind_eq_some_iff, Option.map_eq_some_iff, Option.join_eq_some_iff,
    toOption_eq_some_iff, Bool.and_eq_true, List.isEmpty_iff] at hrun
  obtain ⟨document, hparse, roots, hroots, root, hhead, compiled, hcompiled, v, hv,
    ⟨hconstants, hlazy⟩, hmaps⟩ := hrun
  have hroot := mem_of_mem_head? hhead
  have hgives : Gives (compiles document root) { next := 4 } (some compiled) _ :=
    Prod.ext hcompiled rfl
  refine ⟨document, roots, hparse, hroots, root, hroot, compiled, _, v, hgives, hv, hlazy,
    only_root_list_stays_lazy
    executor (fun _ => plain) ?_ query none document hparse [] roots hroots root hroot _ _ compiled
      hgives ?_ everyone
    ?_ hmaps v hv⟩
  · intro service method arguments v _ h
    cases h
  · exact fun e he => absurd (hconstants ▸ he) List.not_mem_nil
  · simp [everyone, Value.Eager, Value.EagerMembers, Value.EagerItems]

end Executor
end QueryProjection
