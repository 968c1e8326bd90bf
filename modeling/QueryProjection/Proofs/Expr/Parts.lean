import Mathlib.Data.List.Forall2
import Mathlib.Tactic.Common
import QueryProjection.Expr.Dependency
import QueryProjection.Expr.Evaluate
import QueryProjection.Expr.Replace

/-!
# The parts of an expression

Most of what is proved by induction over expressions treats all kinds of them alike: it holds of an
expression because it holds of its parts, below what the expression binds there.  `Expr.parts` lists
the parts, each with what is bound in it, and there is one equation for each function on
expressions, whatever the kind.

* `Expr.induct` is induction with a case for each kind of expression, `Expr.induct_parts` with one
  for the parameters and one for all the rest;
* `Expr.mapParts` changes the parts; replacing and substituting are of this form, by
  `replaceUnder_eq_mapParts` and `substituteIn_eq`;
* `Expr.Layer` relates expressions of one kind with related parts.  What is computed from the parts
  is then related: `Layer.mapParts`, `Layer.ty` and `Layer.operand`.
-/

namespace QueryProjection

open List

variable {N : Nat → Nat → Prop} {B : Parameter → Parameter → Prop}

namespace Expr

/-! ## Induction -/

variable {motive : Expr → Prop} {e : Expr}

/-- Induction over expressions.  A list of arguments comes with the hypothesis for each of them. -/
theorem induct (parameter : ∀ p, motive (.parameter p))
    (constant : ∀ site value ty, motive (.constant site value ty))
    (member : ∀ receiver name ty, motive receiver → motive (.member receiver name ty))
    (call : ∀ method receiver arguments, motive receiver → (∀ a ∈ arguments, motive a) →
      motive (.call method receiver arguments))
    (binary : ∀ op left right, motive left → motive right → motive (.binary op left right))
    (serviceCall : ∀ service method arguments ty, (∀ a ∈ arguments, motive a) →
      motive (.serviceCall service method arguments ty))
    (lambda : ∀ p body, motive body → motive (.lambda p body))
    (record : ∀ shape values, (∀ a ∈ values, motive a) → motive (.record shape values))
    (projectEach : ∀ source element body, motive source → motive body →
      motive (.projectEach source element body))
    (projectOne : ∀ source element body, motive source → motive body →
      motive (.projectOne source element body))
    (materialize : ∀ inner, motive inner → motive (.materialize inner)) (e : Expr) : motive e :=
  @Expr.rec motive (fun es => ∀ a ∈ es, motive a) parameter constant member call binary
    serviceCall lambda record projectEach projectOne materialize
    (forall_mem_nil _)
    (fun _ _ he hes _ h => (mem_cons.1 h).elim (· ▸ he) (hes _)) e

/-- The parts of an expression in order, each with the parameters that are bound in it. -/
def parts : Expr → List (List Parameter × Expr)
  | .parameter _ | .constant _ _ _ => []
  | .member inner _ _ | .materialize inner => [([], inner)]
  | .call _ receiver arguments => ([], receiver) :: arguments.map fun a => ([], a)
  | .binary _ left right => [([], left), ([], right)]
  | .serviceCall _ _ es _ | .record _ es => es.map fun a => ([], a)
  | .lambda p body => [([p], body)]
  | .projectEach source p body | .projectOne source p body => [([], source), ([p], body)]

theorem induct_all (h : ∀ e : Expr, (∀ part ∈ e.parts, motive part.2) → motive e) (e : Expr) :
    motive e := by
  induction e using induct with
  | _ =>
    refine h _ ?_
    clear h
    simp +contextual [parts, *]

/-- Induction over expressions by their parts, with a case of its own for parameters. -/
theorem induct_parts (parameter : ∀ p, motive (.parameter p))
    (node : ∀ e : Expr, e.asParameter? = none → (∀ part ∈ e.parts, motive part.2) → motive e)
    (e : Expr) : motive e := by
  induction e using induct_all with
  | h e ih =>
    cases e with
    | parameter p => exact parameter p
    | _ => exact node _ rfl ih

/-! ## Changing the parts -/

/-- The expression with other parts. -/
def mapParts (f : List Parameter → Expr → Expr) : Expr → Expr
  | .parameter p => .parameter p
  | .constant site value ty => .constant site value ty
  | .member receiver name ty => .member (f [] receiver) name ty
  | .call method receiver arguments => .call method (f [] receiver) (arguments.map (f []))
  | .binary op left right => .binary op (f [] left) (f [] right)
  | .serviceCall service method arguments ty =>
    .serviceCall service method (arguments.map (f [])) ty
  | .lambda p body => .lambda p (f [p] body)
  | .record shape values => .record shape (values.map (f []))
  | .projectEach source p body => .projectEach (f [] source) p (f [p] body)
  | .projectOne source p body => .projectOne (f [] source) p (f [p] body)
  | .materialize inner => .materialize (f [] inner)

section MapParts

variable {f g : List Parameter → Expr → Expr} {e : Expr}

theorem parts_mapParts :
    (e.mapParts f).parts = e.parts.map fun part => (part.1, f part.1 part.2) := by
  cases e <;> simp [mapParts, parts]

@[simp] theorem asParameter?_mapParts : (e.mapParts f).asParameter? = e.asParameter? := by
  cases e <;> rfl

theorem mapParts_mapParts :
    (e.mapParts f).mapParts g = e.mapParts fun bs part => g bs (f bs part) := by
  cases e <;> simp [mapParts]

theorem mapParts_congr (h : ∀ part ∈ e.parts, f part.1 part.2 = g part.1 part.2) :
    e.mapParts f = e.mapParts g := by
  cases e <;> simp_all [mapParts, parts]

theorem mapParts_eq_self (h : ∀ part ∈ e.parts, f part.1 part.2 = part.2) : e.mapParts f = e := by
  refine (mapParts_congr (g := fun _ part => part) h).trans ?_
  cases e <;> simp [mapParts]

theorem ty_mapParts (h : ∀ part ∈ e.parts, (f part.1 part.2).ty = part.2.ty) :
    (e.mapParts f).ty = e.ty := by
  cases e <;> simp_all [mapParts, parts, ty]

end MapParts

theorem replaceUnderAll_eq_map (picks : Parameter → Bool) (target : Expr)
    (bound : List Parameter) (es : List Expr) :
    replaceUnderAll picks target bound es = es.map (replaceUnder picks target bound) := by
  induction es with
  | nil => rfl
  | cons e es ih => simp [replaceUnderAll, ih]

theorem substituteInAll_eq_map (target replacement : Expr) (es : List Expr) :
    substituteInAll target replacement es = es.map (substituteIn target replacement) := by
  induction es with
  | nil => rfl
  | cons e es ih => simp [substituteInAll, ih]

theorem replaceUnder_eq_mapParts (he : e.asParameter? = none) (picks : Parameter → Bool)
    (target : Expr) (bound : List Parameter) :
    replaceUnder picks target bound e
      = e.mapParts fun bs part => replaceUnder picks target (bs ++ bound) part := by
  cases e with
  | parameter p => cases he
  | _ => simp [replaceUnder, mapParts, replaceUnderAll_eq_map]

theorem substituteIn_eq (target replacement e : Expr) :
    substituteIn target replacement e
      = if same e target then replacement else e.mapParts fun _ part =>
        substituteIn target replacement part := by
  cases e <;> simp only [substituteIn, mapParts, substituteInAll_eq_map]

/-! ## Free parameters -/

theorem freeOccurrencesAll_eq_flatMap (bound : List Parameter) (es : List Expr) :
    freeOccurrencesAll bound es = es.flatMap (freeOccurrences bound) := by
  induction es with
  | nil => rfl
  | cons e es ih => rw [freeOccurrencesAll, ih, flatMap_cons]

theorem freeOccurrences_eq_flatMap (he : e.asParameter? = none) (bound : List Parameter) :
    e.freeOccurrences bound = e.parts.flatMap fun part =>
      part.2.freeOccurrences (part.1 ++ bound) := by
  cases e with
  | parameter p => cases he
  | _ => simp [freeOccurrences, parts, freeOccurrencesAll_eq_flatMap, flatMap_map]

/-! ## Dependencies -/

/-- The chain that the parts of an expression are receivers of, if it is a member. -/
def chainBelow (chain : Option (Expr × String)) : Expr → Option (Expr × String)
  | .member receiver name ty => some ((chain.map Prod.fst).getD (.member receiver name ty), name)
  | _ => none

theorem collectAll_eq_foldlM (tracked : Tracked) (path : FieldPath) (bound : List Parameter)
    (es : List Expr) (found : Dependencies) :
    collectAll tracked path bound es found
      = es.foldlM (fun found a => collect tracked path bound none a found) found := by
  induction es generalizing found with
  | nil => rfl
  | cons e es ih =>
    rw [collectAll, foldlM_cons]
    exact congrArg _ (funext ih)

/-- An expression is visited by visiting its parts in turn. -/
theorem collect_eq_foldlM (he : e.asParameter? = none) (tracked : Tracked) (path : FieldPath)
    (bound : List Parameter) (chain : Option (Expr × String)) (found : Dependencies) :
    collect tracked path bound chain e found
      = e.parts.foldlM (fun found part =>
          collect tracked path (part.1 ++ bound) (e.chainBelow chain) part.2 found) found := by
  cases e with
  | parameter p => cases he
  | constant => rfl
  | member => cases chain <;> simp [collect, parts, chainBelow]
  | _ => simp [collect, parts, chainBelow, collectAll_eq_foldlM, foldlM_map]

/-! ## Expressions of one kind -/

/-- The expressions are of one kind.  They differ in the numbers of constants, as `N` says, in the
parameters that they bind, as `B` says, and in their parts, as `R` says of each below what is bound
in it. -/
inductive Layer (N : Nat → Nat → Prop) (B : Parameter → Parameter → Prop)
    (R : List Parameter → List Parameter → Expr → Expr → Prop) : Expr → Expr → Prop
  | constant {site site' : Nat} (h : N site site') (value : Value) (ty : Ty) :
      Layer N B R (.constant site value ty) (.constant site' value ty)
  | member {receiver receiver' : Expr} (h : R [] [] receiver receiver') (name : String) (ty : Ty) :
      Layer N B R (.member receiver name ty) (.member receiver' name ty)
  | call {receiver receiver' : Expr} {arguments arguments' : List Expr} (method : Method)
      (hr : R [] [] receiver receiver') (ha : Forall₂ (R [] []) arguments arguments') :
      Layer N B R (.call method receiver arguments) (.call method receiver' arguments')
  | binary {left left' right right' : Expr} (op : Operator) (hl : R [] [] left left')
      (hr : R [] [] right right') : Layer N B R (.binary op left right) (.binary op left' right')
  | serviceCall {arguments arguments' : List Expr} (service method : String)
      (ha : Forall₂ (R [] []) arguments arguments') (ty : Ty) :
      Layer N B R (.serviceCall service method arguments ty)
        (.serviceCall service method arguments' ty)
  | lambda {p p' : Parameter} {body body' : Expr} (hp : B p p') (hb : R [p] [p'] body body') :
      Layer N B R (.lambda p body) (.lambda p' body')
  | record {values values' : List Expr} (shape : Shape) (hv : Forall₂ (R [] []) values values') :
      Layer N B R (.record shape values) (.record shape values')
  | projectEach {source source' body body' : Expr} {p p' : Parameter} (hs : R [] [] source source')
      (hp : B p p') (hb : R [p] [p'] body body') :
      Layer N B R (.projectEach source p body) (.projectEach source' p' body')
  | projectOne {source source' body body' : Expr} {p p' : Parameter} (hs : R [] [] source source')
      (hp : B p p') (hb : R [p] [p'] body body') :
      Layer N B R (.projectOne source p body) (.projectOne source' p' body')
  | materialize {inner inner' : Expr} (h : R [] [] inner inner') :
      Layer N B R (.materialize inner) (.materialize inner')

namespace Layer

variable {N : Nat → Nat → Prop} {B : Parameter → Parameter → Prop}
  {R S : List Parameter → List Parameter → Expr → Expr → Prop}
  {f f' : List Parameter → Expr → Expr} {e e' : Expr}

theorem asParameter?_left (h : Layer N B R e e') : e.asParameter? = none := by
  cases h <;> rfl

theorem asParameter?_right (h : Layer N B R e e') : e'.asParameter? = none := by
  cases h <;> rfl

theorem change {N' : Nat → Nat → Prop} {B' : Parameter → Parameter → Prop} (h : Layer N B R e e')
    (hN : ∀ i i', N i i' → N' i i') (hB : ∀ p p', B p p' → B' p p')
    (hR : ∀ bs bs' x x', Forall₂ B bs bs' → R bs bs' x x' → S bs bs' x x') :
    Layer N' B' S e e' := by
  have hall {es es' : List Expr} (h : Forall₂ (R [] []) es es') : Forall₂ (S [] []) es es' :=
    h.imp fun x x' => hR [] [] x x' .nil
  have hone {p p' : Parameter} (hp : B p p') : Forall₂ B [p] [p'] := .cons hp .nil
  cases h with
  | constant h => exact .constant (hN _ _ h) _ _
  | member h => exact .member (hR _ _ _ _ .nil h) _ _
  | call _ hr ha => exact .call _ (hR _ _ _ _ .nil hr) (hall ha)
  | binary _ hl hr => exact .binary _ (hR _ _ _ _ .nil hl) (hR _ _ _ _ .nil hr)
  | serviceCall _ _ ha => exact .serviceCall _ _ (hall ha) _
  | lambda hp hb => exact .lambda (hB _ _ hp) (hR _ _ _ _ (hone hp) hb)
  | record _ hv => exact .record _ (hall hv)
  | projectEach hs hp hb =>
    exact .projectEach (hR _ _ _ _ .nil hs) (hB _ _ hp) (hR _ _ _ _ (hone hp) hb)
  | projectOne hs hp hb =>
    exact .projectOne (hR _ _ _ _ .nil hs) (hB _ _ hp) (hR _ _ _ _ (hone hp) hb)
  | materialize h => exact .materialize (hR _ _ _ _ .nil h)

theorem imp (h : Layer N B R e e')
    (hR : ∀ bs bs' x x', Forall₂ B bs bs' → R bs bs' x x' → S bs bs' x x') : Layer N B S e e' :=
  h.change (fun _ _ => id) (fun _ _ => id) hR

theorem with_mem (h : Layer N B R e e') :
    Layer N B (fun bs bs' x x' => R bs bs' x x' ∧ (bs, x) ∈ e.parts
      ∧ (bs', x') ∈ e'.parts) e e' := by
  have hall {es es' : List Expr} (h : Forall₂ (R [] []) es es') :
      Forall₂ (fun x x' => R [] [] x x' ∧ x ∈ es ∧ x' ∈ es') es es' := by
    induction h with
    | nil => exact .nil
    | cons h _ ih =>
      exact .cons ⟨h, by simp, by simp⟩ (ih.imp fun _ _ h => ⟨h.1, by simp [h.2], by simp [h.2]⟩)
  cases h with
  | constant h => exact .constant h _ _
  | call _ hr ha =>
    exact .call _ (by simpa [parts] using hr) ((hall ha).imp (by simp +contextual [parts]))
  | serviceCall _ _ ha => exact .serviceCall _ _ ((hall ha).imp (by simp +contextual [parts])) _
  | record _ hv => exact .record _ ((hall hv).imp (by simp +contextual [parts]))
  | _ => constructor <;> simpa [parts]

theorem mapParts (h : Layer N B (fun bs bs' x x' => R bs bs' (f bs x) (f' bs' x')) e e') :
    Layer N B R (e.mapParts f) (e'.mapParts f') := by
  have hall {es es' : List Expr} (h : Forall₂ (fun x x' => R [] [] (f [] x) (f' [] x')) es es') :
      Forall₂ (R [] []) (es.map (f [])) (es'.map (f' [])) := by
    rwa [forall₂_map_left_iff, forall₂_map_right_iff]
  cases h with
  | call _ hr ha => exact .call _ hr (hall ha)
  | serviceCall _ _ ha => exact .serviceCall _ _ (hall ha) _
  | record _ hv => exact .record _ (hall hv)
  | _ => constructor <;> assumption

theorem mapParts_left (h : Layer N B (fun bs bs' x x' => R bs bs' (f bs x) x') e e') :
    Layer N B R (e.mapParts f) e' := by
  have hboth : Layer N B R (e.mapParts f) (e'.mapParts fun _ part => part) := mapParts h
  rwa [mapParts_eq_self (f := fun _ part => part) fun _ _ => rfl] at hboth

theorem forall₂_parts (h : Layer N B R e e') :
    Forall₂ (fun part part' => Forall₂ B part.1 part'.1 ∧ R part.1 part'.1 part.2 part'.2)
      e.parts e'.parts := by
  cases h <;> simp_all [parts]

theorem ty (h : Layer N B (fun _ _ x x' => x'.ty = x.ty) e e') : e'.ty = e.ty := by
  cases h <;> simp_all [Expr.ty]

end Layer

theorem layer_self {R : List Parameter → List Parameter → Expr → Expr → Prop}
    (he : e.asParameter? = none) (hN : ∀ site value ty, e = .constant site value ty → N site site)
    (h : ∀ part ∈ e.parts, (∀ q ∈ part.1, B q q) ∧ R part.1 part.1 part.2 part.2) :
    Layer N B R e e := by
  cases e with
  | parameter p => cases he
  | constant site value ty => exact .constant (hN site value ty rfl) value ty
  | _ => constructor <;> simp_all [parts, forall₂_same]

end Expr

/-! ## Evaluation -/

namespace Environment

/-- The environment with the values of several parameters changed to the same one. -/
def bindAll (env : Environment) (ps : List Parameter) (v : Value) : Environment :=
  fun q => if q ∈ ps then some v else env q

variable {ps : List Parameter} {q : Parameter}

theorem bindAll_of_mem (env : Environment) (h : q ∈ ps) (v : Value) : env.bindAll ps v q = some v :=
  if_pos h

theorem bindAll_of_not_mem (env : Environment) (h : q ∉ ps) (v : Value) :
    env.bindAll ps v q = env q :=
  if_neg h

@[simp] theorem bindAll_nil (env : Environment) (v : Value) : env.bindAll [] v = env :=
  funext fun _ => if_neg not_mem_nil

@[simp] theorem bindAll_cons (env : Environment) (p : Parameter) (ps : List Parameter) (v : Value) :
    env.bindAll (p :: ps) v = (env.bindAll ps v).bind p v := by
  funext q
  by_cases hq : q = p <;> simp [bindAll, bind, hq]

end Environment

namespace Expr

theorem operands_eq_map (services : Provider) (env : Environment) (es : List Expr) :
    operands services env es = es.map (operand services env) := by
  induction es with
  | nil => rfl
  | cons e es ih => rw [operands, ih, map_cons]

/-- Expressions mean the same if their parts do, whatever is handed to what they bind. -/
theorem Layer.operand {services : Provider} {env env' : Environment} {e e' : Expr}
    (h : Layer N B (fun bs bs' x x' => ∀ v,
      x.operand services (env.bindAll bs v) = x'.operand services (env'.bindAll bs' v)) e e') :
    e.operand services env = e'.operand services env' := by
  have hown {x x' : Expr} (h : ∀ v,
      x.operand services (env.bindAll [] v) = x'.operand services (env'.bindAll [] v)) :
      x.operand services env = x'.operand services env' := by
    simpa using h .null
  have hbody {p p' : Parameter} {x x' : Expr} (h : ∀ v,
      x.operand services (env.bindAll [p] v) = x'.operand services (env'.bindAll [p'] v))
        (v : Value) :
      x.operand services (env.bind p v) = x'.operand services (env'.bind p' v) := by
    simpa using h v
  have hall {es es' : List Expr} (h : Forall₂ (fun x x' => ∀ v,
      x.operand services (env.bindAll [] v) = x'.operand services (env'.bindAll [] v)) es es') :
      operands services env es = operands services env' es' := by
    rw [operands_eq_map, operands_eq_map, ← forall₂_eq_eq_eq, forall₂_map_left_iff,
      forall₂_map_right_iff]
    exact h.imp fun _ _ => hown
  cases h with
  | constant => rfl
  | member h | materialize h => simp only [Expr.operand, hown h]
  | call _ hr ha => simp only [Expr.operand, hown hr, hall ha]
  | binary _ hl hr => simp only [Expr.operand, hown hl, hown hr]
  | serviceCall _ _ ha | record _ ha => simp only [Expr.operand, hall ha]
  | lambda _ hb => simp only [Expr.operand, hbody hb]
  | projectEach hs _ hb | projectOne hs _ hb => simp only [Expr.operand, hown hs, hbody hb]

end Expr
end QueryProjection
