import QueryProjection.Proofs.Expr.Free
import QueryProjection.Proofs.Expr.Unobserved

/-!
# Evaluation respects relations of values

Much of what is said about evaluation compares two evaluations, or one with itself: that it keeps a
property of values, that what is observed on the way makes no difference, that a larger environment
gives no less.  Such a comparison goes through methods, operators, records and projections in one
and the same way, whatever is compared.

* `Run.Relator` is a way of comparing runs, and `Run.Relator.Respects` says that a relation of
  values goes along with it;
* `Method.related_apply`, `Operator.related_apply` and `Expr.related_projectValue` are the steps;
* `Expr.Layer.related`: expressions with related parts have related values;
* `Expr.related_operand`: an expression has related values in environments that are related on its
  free parameters, if it is `Expr.Built` of constants that are related to themselves.
-/

namespace QueryProjection

open List

open Operand Value

/-! ## Comparing runs and values -/

/-- The error is not that of an unbound parameter. -/
def EvaluationError.Foreseen (e : EvaluationError) : Prop :=
  ∀ name, e ≠ .unboundParameter name

/-- A way of comparing runs, given one of comparing their results. -/
structure Run.Relator where
  Rel : ∀ {α : Type}, (α → α → Prop) → Run EvaluationError α → Run EvaluationError α → Prop
  pure : ∀ {α : Type} {R : α → α → Prop} {a b : α}, R a b → Rel R (Pure.pure a) (Pure.pure b)
  bind : ∀ {α β : Type} {R : α → α → Prop} {S : β → β → Prop} {x y : Run EvaluationError α}
    {f g : α → Run EvaluationError β}, Rel R x y → (∀ a b, R a b → Rel S (f a) (g b)) →
    Rel S (x >>= f) (y >>= g)
  fail : ∀ {α : Type} {R : α → α → Prop} {e : EvaluationError}, e.Foreseen →
    Rel R (Run.fail e) (Run.fail e)

namespace Run.Relator

variable (M : Relator) (R : Value → Value → Prop)

/-- Related values differ in what is observed at most, and looking into them and making new ones out
of them keeps them related. -/
structure Respects : Prop where
  agrees : ∀ {v w}, R v w → v.Agrees w
  null : R .null .null
  boolean : ∀ b, R (.boolean b) (.boolean b)
  int : ∀ i, R (.int i) (.int i)
  string : ∀ s, R (.string s) (.string s)
  list : ∀ {items items'}, Forall₂ R items items' → R (.list items) (.list items')
  object : ∀ {members members'}, R (.object members) (.object members')
    ↔ Assoc.Entries Eq R members members'
  elements : ∀ {v w}, R v w → M.Rel (Forall₂ R) v.elements w.elements

/-- Lazy sequences are related if what one iteration gives is. -/
def RespectsLazy : Prop :=
  ∀ run run' : Unit → Run EvaluationError (List Value), M.Rel (Forall₂ R) (run ()) (run' ()) →
    R (.ofRun run) (.ofRun run')

/-- For related arguments the services give related results. -/
def RespectsServices (services : Provider) : Prop :=
  ∀ service method arguments arguments', Forall₂ R arguments arguments' →
    M.Rel R (services.call service method arguments) (services.call service method arguments')

end Run.Relator

/-- Operands that give related results for related values. -/
def Operand.Related (M : Run.Relator) (R : Value → Value → Prop) (o o' : Operand) : Prop :=
  ∀ handed handed', Option.Rel R handed handed' → M.Rel R (o handed) (o' handed')

theorem Operand.Related.own {M : Run.Relator} {R : Value → Value → Prop} {o o' : Operand}
    (h : Related M R o o') : M.Rel R (o none) (o' none) :=
  h none none .none

section Related

variable {M : Run.Relator} {R : Value → Value → Prop}

/-! ## Methods -/

namespace Method

variable {items items' : List Value}

theorem related_keepWhere (hR : M.Respects R) {predicate predicate' : Operand}
    (h : predicate.Related M R predicate') (hitems : Forall₂ R items items') :
    M.Rel (Forall₂ R) (keepWhere predicate items) (keepWhere predicate' items') := by
  induction hitems with
  | nil => exact M.pure .nil
  | cons hitem _ ih =>
    refine M.bind (h _ _ (.some hitem)) fun verdict verdict' hverdict =>
      M.bind ih fun kept kept' hkept => M.pure ?_
    rw [(hR.agrees hverdict).eq_of isTrue_unobserved]
    split
    · exact .cons hitem hkept
    · exact hkept

theorem related_withKeys {key key' : Operand} (h : key.Related M R key')
    (hitems : Forall₂ R items items') :
    M.Rel (Assoc.Entries R R) (withKeys key items) (withKeys key' items') := by
  induction hitems with
  | nil => exact M.pure .nil
  | cons hitem _ ih =>
    exact M.bind (h _ _ (.some hitem)) fun k k' hk => M.bind ih fun rest rest' hrest =>
      M.pure (.cons ⟨hk, hitem⟩ hrest)

theorem related_sortBy (hR : M.Respects R) (descending : Bool) {keyed keyed' : List (Value × Value)}
    (h : Assoc.Entries R R keyed keyed') :
    Forall₂ R (sortBy descending keyed) (sortBy descending keyed') := by
  have hprecedes (a b a' b' : Value × Value) (ha : R a.1 a'.1 ∧ R a.2 a'.2)
    (hb : R b.1 b'.1 ∧ R b.2 b'.2) :
      precedes descending a'.1 b'.1 = precedes descending a.1 b.1 := by
    rw [precedes, precedes, ← order_unobserved a.1, hR.agrees ha.1, hR.agrees hb.1,
      order_unobserved]
  have hsorted := forall₂_insertionSort hprecedes h
  rw [sortBy, sortBy, forall₂_map_left_iff, forall₂_map_right_iff]
  exact hsorted.imp fun _ _ hab => hab.2

theorem related_indexedFrom (hR : M.Respects R) (start : Nat) (hitems : Forall₂ R items items') :
    Forall₂ R (indexedFrom start items) (indexedFrom start items') := by
  induction hitems generalizing start with
  | nil => exact .nil
  | cons hitem _ ih =>
    exact .cons (hR.object.2 (.cons ⟨rfl, hR.int _⟩ (.cons ⟨rfl, hitem⟩ .nil))) (ih _)

theorem related_counted (hR : M.Respects R) {amount amount' : Operand}
    (h : amount.Related M R amount')
    {f : Nat → List Value → List Value} (hf : ∀ n, Forall₂ R (f n items) (f n items'))
    (hitems : Forall₂ R items items') :
    M.Rel R
      (do match (← amount none).asInt? with
        | some n => return .list (f n.toInt.toNat items)
        | none => return .list items)
      (do match (← amount' none).asInt? with
        | some n => return .list (f n.toInt.toNat items')
        | none => return .list items') := by
  refine M.bind h.own fun v w hvw => ?_
  rw [(hR.agrees hvw).eq_of asInt?_unobserved]
  split
  · exact M.pure (hR.list (hf _))
  · exact M.pure (hR.list hitems)

variable {operands operands' : List Operand}

theorem related_applyToItems (hR : M.Respects R) (method : Method)
    (hitems : Forall₂ R items items')
    (h : Forall₂ (Related M R) operands operands') :
    M.Rel R (method.applyToItems items operands) (method.applyToItems items' operands') := by
  cases method with
  | filter =>
    cases h with
    | nil => exact M.fail nofun
    | cons hpredicate _ =>
      exact M.bind (related_keepWhere hR hpredicate hitems) fun _ _ h => M.pure (hR.list h)
  | orderBy =>
    rcases h with _ | ⟨hkey, _ | ⟨hdirection, _⟩⟩
    · exact M.fail nofun
    · exact M.fail nofun
    · refine M.bind hdirection.own fun d d' hd => M.bind (related_withKeys hkey hitems)
        fun _ _ hkeyed => M.pure ?_
      rw [(hR.agrees hd).eq_of isTrue_unobserved]
      exact hR.list (related_sortBy hR _ hkeyed)
  | skip =>
    cases h with
    | nil => exact M.fail nofun
    | cons hamount _ => exact related_counted hR hamount (fun n => forall₂_drop n hitems) hitems
  | take =>
    cases h with
    | nil => exact M.fail nofun
    | cons hamount _ => exact related_counted hR hamount (fun n => forall₂_take n hitems) hitems
  | count =>
    rw [applyToItems, applyToItems, hitems.length_eq]
    exact M.pure (hR.int _)
  | first =>
    cases hitems with
    | nil => exact M.pure hR.null
    | cons hitem _ => exact M.pure hitem
  | enumerate => exact M.pure (hR.list (related_indexedFrom hR 0 hitems))

theorem related_apply (hR : M.Respects R) (method : Method) {receiver receiver' : Value}
    (hreceiver : R receiver receiver') (h : Forall₂ (Related M R) operands operands') :
    M.Rel R (method.apply receiver operands) (method.apply receiver' operands') := by
  rw [apply, apply, (hR.agrees hreceiver).eq_of isNull_unobserved]
  split
  · exact M.pure hR.null
  · exact M.bind (hR.elements hreceiver) fun _ _ hitems => related_applyToItems hR method hitems h

end Method

/-! ## Operators -/

namespace Operator

variable {left left' : Value}

theorem related_shortcut? (hR : M.Respects R) (op : Operator) (h : R left left') :
    Option.Rel R (op.shortcut? left) (op.shortcut? left') := by
  have htrue := (hR.agrees h).eq_of isTrue_unobserved
  have hnull := (hR.agrees h).eq_of isNull_unobserved
  cases op with
  | and | or =>
    simp only [shortcut?, htrue]
    split
    · first | exact .none | exact .some (hR.boolean _)
    · first | exact .none | exact .some (hR.boolean _)
  | coalesce =>
    simp only [shortcut?, hnull]
    split
    · exact .none
    · exact .some h
  | _ => exact .none

theorem related_combine (hR : M.Respects R) (op : Operator) {right right' : Value}
    (hl : R left left') (hr : R right right') :
    R (op.combine left right) (op.combine left' right') := by
  replace hl := hR.agrees hl
  have hr' := hR.agrees hr
  have hsame : left.same right = left'.same right' := by
    rw [← same_unobserved, hl, hr', same_unobserved]
  have horder : left.order right = left'.order right' := by
    rw [← order_unobserved, hl, hr', order_unobserved]
  cases op with
  | coalesce => exact hr
  | concat =>
    simp only [combine, hl.eq_of plainText_unobserved, hr'.eq_of plainText_unobserved]
    exact hR.string _
  | _ =>
    simp only [combine, compares, hsame, horder, hl.eq_of isNull_unobserved,
      hr'.eq_of isNull_unobserved, hr'.eq_of isTrue_unobserved]
    exact hR.boolean _

theorem related_apply (hR : M.Respects R) (op : Operator) {left left' right right' : Operand}
    (hl : left.Related M R left') (hr : right.Related M R right') :
    M.Rel R (op.apply left right) (op.apply left' right') := by
  refine M.bind hl.own fun l l' hll => ?_
  have hshortcut := related_shortcut? hR op hll
  revert hshortcut
  generalize op.shortcut? l = s, op.shortcut? l' = s'
  rintro (hresult | _)
  · exact M.pure hresult
  · exact M.bind hr.own fun _ _ hrr => M.pure (related_combine hR op hll hrr)

end Operator

/-! ## Members, records and projections -/

namespace Expr

theorem related_readMember (hR : M.Respects R) (name : String) {v w : Value} (h : R v w) :
    M.Rel R (readMember name v) (readMember name w) := by
  have hagrees := hR.agrees h
  cases v with
  | null =>
    cases w with
    | null => exact M.pure h
    | _ => cases hagrees
  | object members =>
    cases w with
    | object members' =>
      exact M.pure (Option.rel_getD (Assoc.rel_find? (hR.object.1 h) name) hR.null)
    | _ => cases hagrees
  | _ =>
    cases w with
    | null | object _ => cases hagrees
    | _ =>
      simp only [readMember, hagrees.eq_of kind_unobserved]
      exact M.fail nofun

variable {operands operands' : List Operand} {P : Value → Prop} {L : Prop} {e : Expr}

theorem related_readAll (h : Forall₂ (Related M R) operands operands') :
    M.Rel (Forall₂ R) (readAll operands) (readAll operands') := by
  induction h with
  | nil => exact M.pure .nil
  | cons hoperand _ ih =>
    exact M.bind hoperand.own fun _ _ hvalue => M.bind ih fun _ _ hrest =>
      M.pure (.cons hvalue hrest)

theorem related_readFields (shape : Shape)
    (h : Forall₂ (Related M R) operands operands') :
    M.Rel (Assoc.Entries Eq R) (readFields shape operands) (readFields shape operands') := by
  induction shape generalizing operands operands' with
  | nil => exact M.pure .nil
  | cons field fields ih =>
    cases h with
    | nil => exact M.pure .nil
    | cons hoperand hrest =>
      exact M.bind hoperand.own fun _ _ hvalue => M.bind (ih hrest) fun _ _ hfields =>
        M.pure (.cons ⟨rfl, hvalue⟩ hfields)

section Projection

variable {body body' : Value → Run EvaluationError Value}
  (hbody : ∀ v w, R v w → M.Rel R (body v) (body' w))

include hbody

theorem related_mapItems {items items' : List Value}
    (h : Forall₂ R items items') :
    M.Rel (Forall₂ R) (mapItems body items) (mapItems body' items') := by
  induction h with
  | nil => exact M.pure .nil
  | cons hitem _ ih =>
    exact M.bind (hbody _ _ hitem) fun _ _ hvalue => M.bind ih fun _ _ hrest =>
      M.pure (.cons hvalue hrest)

theorem related_mapMembers {members members' : List (String × Value)}
    (h : Assoc.Entries Eq R members members') :
    M.Rel (Assoc.Entries Eq R) (mapMembers body members) (mapMembers body' members') := by
  induction h with
  | nil => exact M.pure .nil
  | cons hmember _ ih =>
    exact M.bind (hbody _ _ hmember.2) fun _ _ hvalue => M.bind ih fun _ _ hrest =>
      M.pure (.cons ⟨hmember.1, hvalue⟩ hrest)

theorem related_projectValue (hR : M.Respects R) (hlazy : M.RespectsLazy R) {source source' : Value}
    (h : R source source') : M.Rel R (projectValue source body) (projectValue source' body') := by
  have hagrees := hR.agrees h
  have hsequence : R (.ofRun fun _ => do mapItems body (← source.elements))
      (.ofRun fun _ => do mapItems body' (← source'.elements)) :=
    hlazy _ _ (M.bind (hR.elements h) fun _ _ hitems => related_mapItems hbody hitems)
  cases source with
  | null =>
    cases source' with
    | null => exact M.pure h
    | _ => cases hagrees
  | object members =>
    cases source' with
    | object members' =>
      exact M.bind (related_mapMembers hbody (hR.object.1 h)) fun _ _ hmembers =>
        M.pure (hR.object.2 hmembers)
    | _ => cases hagrees
  | _ =>
    cases source' with
    | null | object _ => cases hagrees
    | _ => exact M.pure hsequence

end Projection

/-! ## Expressions -/

mutual

/-- `P` holds of the constants in the expression, and it projects the elements of collections only
if `L`. -/
def Built (P : Value → Prop) (L : Prop) : Expr → Prop
  | .parameter _ => True
  | .constant _ value _ => P value
  | .member receiver _ _ => Built P L receiver
  | .call _ receiver arguments => Built P L receiver ∧ BuiltAll P L arguments
  | .binary _ left right => Built P L left ∧ Built P L right
  | .serviceCall _ _ arguments _ => BuiltAll P L arguments
  | .lambda _ body => Built P L body
  | .record _ values => BuiltAll P L values
  | .projectEach source _ body => L ∧ Built P L source ∧ Built P L body
  | .projectOne source _ body => Built P L source ∧ Built P L body
  | .materialize inner => Built P L inner

/-- The same for several expressions. -/
def BuiltAll (P : Value → Prop) (L : Prop) : List Expr → Prop
  | [] => True
  | e :: es => Built P L e ∧ BuiltAll P L es

end

/-- What `Built` asks of an expression apart from its parts. -/
def BuiltHere (P : Value → Prop) (L : Prop) : Expr → Prop
  | .constant _ value _ => P value
  | .projectEach _ _ _ => L
  | _ => True

theorem builtAll_iff {es : List Expr} : BuiltAll P L es ↔ ∀ e ∈ es, e.Built P L := by
  induction es with
  | nil => simp [BuiltAll]
  | cons e es ih => simp [BuiltAll, ih]

theorem built_iff_parts : e.Built P L ↔ e.BuiltHere P L ∧ ∀ part ∈ e.parts, part.2.Built P L := by
  cases e <;> simp [Built, BuiltHere, parts, builtAll_iff]

theorem built_of_forall (hP : ∀ v, P v) (hL : L) (e : Expr) : e.Built P L := by
  induction e using induct_all with
  | h e ih => exact built_iff_parts.2 ⟨by cases e <;> simp [BuiltHere, hP, hL], ih⟩

variable {services : Provider} {env env' : Environment}

/-- **Expressions with related parts have related values**, if related values are given to what they
bind. -/
theorem Layer.related (hR : M.Respects R) (hservices : M.RespectsServices R services)
    {N : Nat → Nat → Prop} {B : Parameter → Parameter → Prop} {e' : Expr}
    (hhere : e.BuiltHere (fun v => R v v) (M.RespectsLazy R))
    (h : Layer N B (fun bs bs' x x' => ∀ v v', R v v' →
      Related M R (x.operand services (env.bindAll bs v))
      (x'.operand services (env'.bindAll bs' v'))) e e') :
    Related M R (e.operand services env) (e'.operand services env') := by
  have hown {x x' : Expr} (h : ∀ v v', R v v' → Related M R (x.operand services (env.bindAll [] v))
      (x'.operand services (env'.bindAll [] v'))) :
      Related M R (x.operand services env) (x'.operand services env') := by
    simpa using h _ _ hR.null
  have hbody {p p' : Parameter} {x x' : Expr} (h : ∀ v v', R v v' →
      Related M R (x.operand services (env.bindAll [p] v))
        (x'.operand services (env'.bindAll [p'] v')))
      (v v' : Value) (hv : R v v') :
      M.Rel R (x.operand services (env.bind p v) none)
        (x'.operand services (env'.bind p' v') none) := by
    simpa using (h v v' hv).own
  have hall {es es' : List Expr} (h : Forall₂ (fun x x' => ∀ v v', R v v' →
      Related M R (x.operand services (env.bindAll [] v))
        (x'.operand services (env'.bindAll [] v'))) es es') :
      Forall₂ (Related M R) (operands services env es) (operands services env' es') := by
    rw [operands_eq_map, operands_eq_map, forall₂_map_left_iff, forall₂_map_right_iff]
    exact h.imp fun _ _ => hown
  intro handed handed' hhanded
  cases h with
  | constant => exact M.pure hhere
  | member h name => exact M.bind (hown h).own fun _ _ hv => related_readMember hR name hv
  | call method hr ha =>
    exact M.bind (hown hr).own fun _ _ hv => method.related_apply hR hv (hall ha)
  | binary op hl hr => exact op.related_apply hR (hown hl) (hown hr)
  | serviceCall service method ha =>
    exact M.bind (related_readAll (hall ha)) fun _ _ hvalues => hservices service method _ _ hvalues
  | lambda _ hb =>
    cases hhanded with
    | none => exact M.fail nofun
    | some hv => exact hbody hb _ _ hv
  | record shape hv =>
    refine M.bind (related_readFields shape (hall hv)) fun _ _ hfields => M.pure (hR.object.2 ?_)
    exact Assoc.Entries.insertAll (K := Eq) (fun hk hl => hk ▸ hl ▸ Iff.rfl) .nil hfields
  | projectEach hs _ hb =>
    exact M.bind (hown hs).own fun _ _ hv => related_projectValue (hbody hb) hR hhere hv
  | projectOne hs _ hb =>
    refine M.bind (hown hs).own fun v v' hv => ?_
    rw [(hR.agrees hv).eq_of isNull_unobserved]
    split
    · exact M.pure hR.null
    · exact hbody hb v v' hv
  | materialize h =>
    refine M.bind (hown h).own fun v v' hv => ?_
    rw [(hR.agrees hv).eq_of isLazy_unobserved]
    split
    · exact M.bind (hR.elements hv) fun _ _ hitems => M.pure (hR.list hitems)
    · exact M.pure hv

/-- **Evaluation respects relations of values.**  The free parameters of the expression are related
in the two environments, by whatever it means that one of them is unbound. -/
theorem related_operand (hR : M.Respects R) (hservices : M.RespectsServices R services)
    (hbuilt : e.Built (fun v => R v v) (M.RespectsLazy R)) (henv : ∀ p ∈ e.freeParameters,
      Related M R (operand services env (.parameter p)) (operand services env' (.parameter p))) :
    Related M R (e.operand services env) (e.operand services env') := by
  induction e using induct_parts generalizing env env' with
  | parameter p => exact henv p (mem_freeParameters_parameter.2 rfl)
  | node e he ih =>
    obtain ⟨hhere, hparts⟩ := built_iff_parts.1 hbuilt
    refine (layer_self (N := Eq) (B := Eq) he (fun _ _ _ _ => rfl) fun part hpart =>
      ⟨fun _ _ => rfl, fun v v' hv => ih part hpart (hparts part hpart) fun p hp => ?_⟩).related hR
        hservices hhere
    simp only [operand]
    by_cases hbound : p ∈ part.1
    · rw [Environment.bindAll_of_mem env hbound, Environment.bindAll_of_mem env' hbound]
      exact fun _ _ _ => M.pure hv
    · rw [Environment.bindAll_of_not_mem env hbound, Environment.bindAll_of_not_mem env' hbound]
      exact henv p ((mem_freeParameters_parts he).2 ⟨part, hpart, hp, hbound⟩)

end Expr

end Related

end QueryProjection
