import Mathlib.Data.List.Forall2
import QueryProjection.Expr.Evaluate
import QueryProjection.Proofs.Assoc
import QueryProjection.Proofs.Related

/-!
# Values up to what is observed

Two evaluations can give lazy sequences that yield the same elements and still are different values:
on iteration they may leave different notes.  Nothing that an expression does with a value can tell
them apart, apart from what is observed on the way, and forcing them gives the same.

* `Value.unobserved` is a value whose lazy sequences leave no notes, and `Value.Agrees` relates the
  values that are the same without them;
* `Run.Rel` and `Operand.Agrees` compare evaluations by their results, and `Provider.Insensitive`
  says that services cannot tell such values apart either;
* `Value.Agrees.materialize`: values that agree are forced to the same value, or fail alike.
-/

namespace QueryProjection

open List

/-! ## Values without observations -/

namespace Value

mutual

/-- The value with lazy sequences that leave no notes. -/
def unobserved : Value → Value
  | .list items => .list (unobservedItems items)
  | .object members => .object (unobservedMembers members)
  | .lazy iterate => .lazy fun _ => unobservedIteration (iterate ())
  | other => other

/-- The iteration without its notes, and those of its elements. -/
def unobservedIteration : Iteration → Iteration
  | .yields _ items => .yields [] (unobservedItems items)
  | .fails _ error => .fails [] error

/-- The same for the items of a list. -/
def unobservedItems : List Value → List Value
  | [] => []
  | item :: rest => unobserved item :: unobservedItems rest

/-- The same for the members of an object. -/
def unobservedMembers : List (String × Value) → List (String × Value)
  | [] => []
  | (key, value) :: rest => (key, unobserved value) :: unobservedMembers rest

end

theorem unobservedItems_eq_map (items : List Value) :
    unobservedItems items = items.map unobserved := by
  induction items with
  | nil => rfl
  | cons item rest ih => rw [unobservedItems, ih, map_cons]

@[simp] theorem kind_unobserved (v : Value) : v.unobserved.kind = v.kind := by
  cases v <;> rfl

@[simp] theorem isNull_unobserved (v : Value) : v.unobserved.isNull = v.isNull := by
  cases v <;> rfl

@[simp] theorem isLazy_unobserved (v : Value) : v.unobserved.isLazy = v.isLazy := by
  cases v <;> rfl

@[simp] theorem isTrue_unobserved (v : Value) : v.unobserved.isTrue = v.isTrue := by
  cases v <;> rfl

@[simp] theorem asInt?_unobserved (v : Value) : v.unobserved.asInt? = v.asInt? := by
  cases v <;> rfl

@[simp] theorem order_unobserved (a b : Value) : a.unobserved.order b.unobserved = a.order b := by
  cases a <;> cases b <;> rfl

mutual

@[simp] theorem text_unobserved (v : Value) : v.unobserved.text = v.text := by
  match v with
  | .list items => rw [unobserved, text, text, itemTexts_unobservedItems items]
  | .object members => rw [unobserved, text, text, memberTexts_unobservedMembers members]
  | .lazy _ | .null | .boolean _ | .int _ | .float _ | .string _ => simp only [unobserved, text]

theorem itemTexts_unobservedItems (items : List Value) :
    itemTexts (unobservedItems items) = itemTexts items := by
  match items with
  | [] => rfl
  | item :: rest =>
    rw [unobservedItems, itemTexts, itemTexts, text_unobserved item, itemTexts_unobservedItems rest]

theorem memberTexts_unobservedMembers (members : List (String × Value)) :
    memberTexts (unobservedMembers members) = memberTexts members := by
  match members with
  | [] => rfl
  | (key, value) :: rest =>
    rw [unobservedMembers, memberTexts, memberTexts, text_unobserved value,
      memberTexts_unobservedMembers rest]

end

@[simp] theorem plainText_unobserved (v : Value) : v.unobserved.plainText = v.plainText := by
  cases v with
  | list items => exact text_unobserved (.list items)
  | object members => exact text_unobserved (.object members)
  | _ => rfl

theorem find?_unobservedMembers (key : String) (members : List (String × Value)) :
    Assoc.find? key (unobservedMembers members) = (Assoc.find? key members).map unobserved := by
  induction members with
  | nil => rfl
  | cons member rest ih =>
    obtain ⟨k, v⟩ := member
    rw [unobservedMembers, Assoc.find?, Assoc.find?]
    split
    · rfl
    · exact ih

theorem length_unobservedMembers (members : List (String × Value)) :
    (unobservedMembers members).length = members.length := by
  induction members with
  | nil => rfl
  | cons member rest ih => simp only [unobservedMembers, length_cons, ih]

mutual

@[simp] theorem same_unobserved (a b : Value) : a.unobserved.same b.unobserved = a.same b := by
  match a with
  | .list xs =>
    cases b with
    | list ys =>
      simp only [unobserved, same]
      exact sameItems_unobservedItems xs ys
    | _ => rfl
  | .object ms =>
    cases b with
    | object ns =>
      simp only [unobserved, same, length_unobservedMembers, sameMembers_unobservedMembers ms ns]
    | _ => rfl
  | .null | .boolean _ | .int _ | .float _ | .string _ | .lazy _ => cases b <;> rfl

theorem sameItems_unobservedItems (xs ys : List Value) :
    sameItems (unobservedItems xs) (unobservedItems ys) = sameItems xs ys := by
  match xs with
  | [] => cases ys <;> rfl
  | x :: xs =>
    cases ys with
    | nil => rfl
    | cons y ys =>
      simp only [unobservedItems, sameItems, same_unobserved x y, sameItems_unobservedItems xs ys]

theorem sameMembers_unobservedMembers (ms ns : List (String × Value)) :
    sameMembers (unobservedMembers ms) (unobservedMembers ns) = sameMembers ms ns := by
  match ms with
  | [] => rfl
  | (key, x) :: ms =>
    simp only [unobservedMembers, sameMembers, find?_unobservedMembers,
      sameMembers_unobservedMembers ms ns]
    cases Assoc.find? key ns with
    | none => rfl
    | some y => simp only [Option.map_some, same_unobserved x y]

end

theorem elements_unobserved (v : Value) :
    v.unobserved.elements.result = v.elements.result.map (map unobserved) := by
  cases v with
  | list items => simp only [unobserved, elements, unobservedItems_eq_map]; rfl
  | lazy iterate =>
    simp only [unobserved, elements]
    cases iterate () with
    | yields events items => simp only [unobservedIteration, unobservedItems_eq_map]; rfl
    | fails events error => rfl
  | _ => rfl

mutual

theorem materialize_unobserved (v : Value) :
    v.unobserved.materialize.result = v.materialize.result := by
  match v with
  | .list items =>
    simp only [unobserved, materialize, Run.result_bind, materializeItems_unobservedItems items]
  | .object members =>
    simp only [unobserved, materialize, Run.result_bind,
      materializeMembers_unobservedMembers members]
  | .lazy iterate =>
    simp only [unobserved, materialize]
    exact materializeIteration_unobservedIteration (iterate ())
  | .null | .boolean _ | .int _ | .float _ | .string _ => rfl

theorem materializeIteration_unobservedIteration (i : Iteration) :
    (materializeIteration (unobservedIteration i)).result = (materializeIteration i).result := by
  match i with
  | .yields events items =>
    simp only [unobservedIteration, materializeIteration, Run.result_bind,
      materializeItems_unobservedItems items]
    rfl
  | .fails events error => rfl

theorem materializeItems_unobservedItems (items : List Value) :
    (materializeItems (unobservedItems items)).result = (materializeItems items).result := by
  match items with
  | [] => rfl
  | item :: rest =>
    simp only [unobservedItems, materializeItems, Run.result_bind, materialize_unobserved item,
      materializeItems_unobservedItems rest]

theorem materializeMembers_unobservedMembers (members : List (String × Value)) :
    (materializeMembers (unobservedMembers members)).result
      = (materializeMembers members).result := by
  match members with
  | [] => rfl
  | (key, value) :: rest =>
    simp only [unobservedMembers, materializeMembers, Run.result_bind, materialize_unobserved value,
      materializeMembers_unobservedMembers rest]

end

/-! ## Values that agree -/

/-- The same values, but for what is observed while their lazy sequences are iterated. -/
def Agrees (v w : Value) : Prop :=
  v.unobserved = w.unobserved

namespace Agrees

variable {u v w : Value}

theorem refl (v : Value) : v.Agrees v :=
  rfl

/-- What does not depend on the observations is the same for both. -/
theorem eq_of {α : Type} (h : v.Agrees w) {f : Value → α} (hf : ∀ v, f v.unobserved = f v) :
    f v = f w := by
  rw [← hf v, ← hf w, h]

theorem materialize (h : v.Agrees w) : v.materialize.result = w.materialize.result :=
  h.eq_of (f := fun v => v.materialize.result) materialize_unobserved

end Agrees

variable {items items' : List Value} {members members' : List (String × Value)}

theorem forall₂_agrees_iff :
    Forall₂ Agrees items items' ↔ items.map unobserved = items'.map unobserved := by
  rw [← forall₂_eq_eq_eq, forall₂_map_left_iff, forall₂_map_right_iff]
  rfl

theorem entries_agrees_iff :
    Assoc.Entries Eq Agrees members members'
      ↔ unobservedMembers members = unobservedMembers members' := by
  have hmap (ms : List (String × Value)) :
      unobservedMembers ms = ms.map fun m => (m.1, m.2.unobserved) := by
    induction ms with
    | nil => rfl
    | cons m ms ih => rw [unobservedMembers, ih, map_cons]
  rw [hmap, hmap, ← forall₂_eq_eq_eq, forall₂_map_left_iff, forall₂_map_right_iff]
  simp only [Prod.mk.injEq]
  rfl

theorem agrees_list : (list items).Agrees (list items') ↔ Forall₂ Agrees items items' := by
  rw [forall₂_agrees_iff, ← unobservedItems_eq_map, ← unobservedItems_eq_map]
  simp only [Agrees, unobserved, list.injEq]

theorem agrees_object :
    (object members).Agrees (object members') ↔ Assoc.Entries Eq Agrees members members' := by
  rw [entries_agrees_iff]
  simp only [Agrees, unobserved, object.injEq]

end Value

/-! ## Runs and operands that agree -/

namespace Run

variable {ε α β γ δ : Type} {R : α → β → Prop} {S : γ → δ → Prop} {x : Run ε α} {y : Run ε β}

/-- Both runs fail with the same error, or both end with results that are related. -/
def Rel (R : α → β → Prop) (x : Run ε α) (y : Run ε β) : Prop :=
  Except.Rel R x.result y.result

theorem rel_pure {a : α} {b : β} (h : R a b) : Rel R (pure a : Run ε α) (pure b : Run ε β) :=
  .ok h

theorem rel_fail (e : ε) : Rel R (fail e : Run ε α) (fail e : Run ε β) :=
  .error e

theorem Rel.bind (h : Rel R x y) {f : α → Run ε γ} {g : β → Run ε δ}
    (hfg : ∀ a b, R a b → Rel S (f a) (g b)) : Rel S (x >>= f) (y >>= g) := by
  unfold Rel
  rw [result_bind, result_bind]
  exact Except.Rel.bind h hfg

theorem Rel.mapError {ε' : Type} (h : Rel R x y) (f : ε → ε') :
    Rel R (x.mapError f) (y.mapError f) := by
  obtain ⟨_, result⟩ := x
  obtain ⟨_, result'⟩ := y
  cases h with
  | ok h => exact .ok h
  | error e => exact .error (f e)

end Run

open Value (Agrees)

theorem Value.Agrees.elements {v w : Value} (h : v.Agrees w) :
    Run.Rel (Forall₂ Agrees) v.elements w.elements := by
  have heq : v.elements.result.map (map unobserved)
      = w.elements.result.map (map unobserved) := by
    rw [← elements_unobserved, ← elements_unobserved, h]
  unfold Run.Rel
  cases hv : v.elements.result with
  | error e =>
    cases hw : w.elements.result with
    | error e' =>
      rw [hv, hw] at heq
      cases heq
      exact .error e
    | ok items' => rw [hv, hw] at heq; cases heq
  | ok items =>
    cases hw : w.elements.result with
    | error e' => rw [hv, hw] at heq; cases heq
    | ok items' =>
      rw [hv, hw] at heq
      exact .ok (forall₂_agrees_iff.2 (Except.ok.inj heq))

theorem Value.agrees_ofRun {run run' : Unit → Run EvaluationError (List Value)}
    (h : Run.Rel (Forall₂ Agrees) (run ()) (run' ())) : (ofRun run).Agrees (ofRun run') := by
  have hiteration :
      unobservedIteration (.ofRun (run ())) = unobservedIteration (.ofRun (run' ())) := by
    generalize run () = r, run' () = r' at h
    obtain ⟨events, result⟩ := r
    obtain ⟨events', result'⟩ := r'
    cases h with
    | ok hitems =>
      simp only [Iteration.ofRun, unobservedIteration, unobservedItems_eq_map,
        forall₂_agrees_iff.1 hitems]
    | error e => rfl
  simp only [Agrees, ofRun, unobserved, hiteration]

/-- Operands that agree on what they give for values that agree. -/
def Operand.Agrees (o o' : Operand) : Prop :=
  ∀ handed handed', Option.Rel Value.Agrees handed handed' →
    Run.Rel Value.Agrees (o handed) (o' handed')

/-- The services cannot tell lazy sequences apart that yield the same elements: for arguments that
agree, they fail alike or give values that agree. -/
def Provider.Insensitive (services : Provider) : Prop :=
  ∀ service method arguments arguments', Forall₂ Agrees arguments arguments' →
    Run.Rel Agrees (services.call service method arguments)
      (services.call service method arguments')

theorem Services.insensitive_of_methods {services : Services}
    (h : ∀ m ∈ services.methods, ∀ arguments arguments', Forall₂ Agrees arguments arguments' →
      Run.Rel Agrees (m.2 arguments) (m.2 arguments')) : services.provider.Insensitive := by
  intro service method arguments arguments' harguments
  simp only [Services.provider, Services.call]
  split
  · exact Run.rel_fail _
  · rename_i run hrun
    exact (h _ (Assoc.mem_of_find? hrun) _ _ harguments).mapError _

/-! ## Sorting -/

section Sorting

variable {α β : Type} {R : α → β → Prop} {before : α → α → Bool} {before' : β → β → Bool}
  {items : List α} {items' : List β}

theorem Value.forall₂_insertBefore (hbefore : ∀ a b a' b', R a a' → R b b' →
      before' a' b' = before a b) {x : α}
    {x' : β} (hx : R x x') (h : Forall₂ R items items') :
    Forall₂ R (insertBefore before x items) (insertBefore before' x' items') := by
  induction h with
  | nil => exact .cons hx .nil
  | cons hy hrest ih =>
    rw [insertBefore, insertBefore, hbefore _ _ _ _ hx hy]
    split
    · exact .cons hy ih
    · exact .cons hx (.cons hy hrest)

theorem Value.forall₂_insertionSort (hbefore : ∀ a b a' b', R a a' → R b b' →
      before' a' b' = before a b)
    (h : Forall₂ R items items') :
    Forall₂ R (insertionSort before items) (insertionSort before' items') := by
  have hfold (sorted : List α) (sorted' : List β) (hsorted : Forall₂ R sorted sorted') :
      Forall₂ R (items.foldl (fun sorted x => insertBefore before x sorted) sorted)
        (items'.foldl (fun sorted x => insertBefore before' x sorted) sorted') := by
    induction h generalizing sorted sorted' with
    | nil => exact hsorted
    | cons hx _ ih => exact ih _ _ (forall₂_insertBefore hbefore hx hsorted)
  exact rel_reverse (hfold [] [] .nil)

end Sorting

end QueryProjection
