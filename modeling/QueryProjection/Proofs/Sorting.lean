import Mathlib.Data.List.Sort
import QueryProjection.Proofs.Expr.Unobserved
import QueryProjection.Proofs.Expr.Value

/-!
# Sorting

`Value.insertionSort` inserts one element after the other.  For a total preorder that is the stable
sort, and the library's `List.mergeSort` gives the same list (`Value.insertionSort_eq_mergeSort`):
with the places in the list as a second criterion there is only one sorted list, and neither of the
two ever has to look at it.

The order of values is not a preorder on all of them.  Two integers are compared exactly and an
integer and a fraction after rounding, so large numbers of both kinds may be ranked in a circle.
`Value.Ranks` says that this does not happen among some keys, and `Value.ranked` is the stable sort
by keys wherever there is one.
-/

namespace QueryProjection

open List

namespace Value

/-! ## Insertion is a stable sort -/

section Insertion

variable {α : Type} {le : α → α → Bool}

theorem insertBefore_perm (before : α → α → Bool) (x : α) (items : List α) :
    (insertBefore before x items).Perm (x :: items) := by
  induction items with
  | nil => exact .refl _
  | cons y ys ih =>
    rw [insertBefore]
    split
    · exact (ih.cons y).trans (.swap x y ys)
    · exact .refl _

theorem insertionSort_perm (before : α → α → Bool) (items : List α) :
    (insertionSort before items).Perm items := by
  have hfold (sorted : List α) :
      (items.foldl (fun sorted x => insertBefore before x sorted) sorted).Perm
        (items ++ sorted) := by
    induction items generalizing sorted with
    | nil => exact .refl _
    | cons x rest ih =>
      exact (ih _).trans (((insertBefore_perm before x sorted).append_left rest).trans perm_middle)
  have hnil := hfold []
  rw [append_nil] at hnil
  exact (reverse_perm _).trans hnil

/-- An element that comes after those of the list is inserted without a look at the places. -/
theorem map_fst_insertBefore (x : α) {i : Nat} {items : List (α × Nat)} (h : ∀ y ∈ items, y.2 < i) :
    (insertBefore (fun a b => !zipIdxLE le b a) (x, i) items).map Prod.fst
      = insertBefore (fun a b => !le b a) x (items.map Prod.fst) := by
  induction items with
  | nil => rfl
  | cons y ys ih =>
    obtain ⟨hy, hys⟩ := forall_mem_cons.1 h
    have hle : zipIdxLE le y (x, i) = le y.1 x := by
      simp [zipIdxLE, Nat.le_of_lt hy]
    rw [map_cons, insertBefore, insertBefore, hle]
    split
    · rw [map_cons, ih hys]
    · rfl

theorem map_fst_insertionSort (items : List α) :
    (insertionSort (fun a b => !zipIdxLE le b a) items.zipIdx).map Prod.fst
      = insertionSort (fun a b => !le b a) items := by
  have hfold (k : Nat) (sorted : List (α × Nat)) (hsorted : ∀ y ∈ sorted, y.2 < k) :
      ((items.zipIdx k).foldl (fun sorted x => insertBefore (fun a b => !zipIdxLE le b a) x sorted)
          sorted).map Prod.fst
        = items.foldl (fun sorted x => insertBefore (fun a b => !le b a) x sorted)
          (sorted.map Prod.fst) := by
    induction items generalizing k sorted with
    | nil => rfl
    | cons x rest ih =>
      rw [zipIdx_cons, foldl_cons, foldl_cons, ← map_fst_insertBefore x hsorted]
      refine ih (k + 1) _ fun y hy => ?_
      rcases mem_cons.1 ((insertBefore_perm _ _ sorted).mem_iff.1 hy) with rfl | hy
      · exact Nat.lt_succ_self k
      · exact Nat.lt_succ_of_lt (hsorted y hy)
  rw [insertionSort, insertionSort, map_reverse, hfold 0 [] fun y hy => absurd hy not_mem_nil]
  rfl

variable (trans : ∀ a b c, le a b = true → le b c = true → le a c = true)
  (total : ∀ a b, (le a b || le b a) = true)

include trans total

theorem pairwise_insertBefore (x : α) {items : List α}
    (h : items.Pairwise fun a b => le b a = true) :
    (insertBefore (fun a b => !le b a) x items).Pairwise fun a b => le b a = true := by
  induction items with
  | nil => exact pairwise_singleton _ _
  | cons y ys ih =>
    obtain ⟨hy, hys⟩ := pairwise_cons.1 h
    rw [insertBefore]
    split
    · rename_i hbefore
      have hyx : le y x = false := by simpa using hbefore
      have hxy : le x y = true := by simpa [hyx] using total x y
      refine pairwise_cons.2 ⟨fun z hz => ?_, ih hys⟩
      rcases mem_cons.1 ((insertBefore_perm _ x ys).mem_iff.1 hz) with rfl | hz
      · exact hxy
      · exact hy z hz
    · rename_i hbefore
      have hyx : le y x = true := by simpa using hbefore
      exact pairwise_cons.2 ⟨forall_mem_cons.2 ⟨hyx, fun z hz => trans _ _ _ (hy z hz) hyx⟩, h⟩

theorem pairwise_insertionSort (items : List α) :
    (insertionSort (fun a b => !le b a) items).Pairwise fun a b => le a b = true := by
  have hfold (sorted : List α) (hsorted : sorted.Pairwise fun a b => le b a = true) :
      (items.foldl (fun sorted x => insertBefore (fun a b => !le b a) x sorted) sorted).Pairwise
        fun a b => le b a = true := by
    induction items generalizing sorted with
    | nil => exact hsorted
    | cons x rest ih => exact ih _ (pairwise_insertBefore trans total x hsorted)
  exact pairwise_reverse.2 (hfold [] .nil)

/-- **Inserting one element after the other is the stable sort.** -/
theorem insertionSort_eq_mergeSort (items : List α) :
    insertionSort (fun a b => !le b a) items = items.mergeSort le := by
  rw [← map_fst_insertionSort, ← mergeSort_zipIdx]
  have htrans := zipIdxLE_trans trans
  have htotal := zipIdxLE_total total
  have hperm := insertionSort_perm (fun a b => !zipIdxLE le b a) items.zipIdx
  have hperm' := mergeSort_perm items.zipIdx (zipIdxLE le)
  refine congrArg (map Prod.fst) (List.Perm.eq_of_pairwise ?_
    (pairwise_insertionSort htrans htotal _)
    (pairwise_mergeSort htrans htotal _) (hperm.trans hperm'.symm))
  -- Two elements that come before each other have the same place.
  intro a b ha hb hab hba
  have ha := mem_zipIdx_iff_getElem?.1 (hperm.mem_iff.1 ha)
  have hb := mem_zipIdx_iff_getElem?.1 (hperm'.mem_iff.1 hb)
  have hplace : a.2 = b.2 := by
    unfold zipIdxLE at hab hba
    grind
  rw [hplace, hb] at ha
  exact Prod.ext (Option.some.inj ha).symm hplace

end Insertion

/-! ## The order of values -/

theorem order_swap (a b : Value) : (order a b).swap = order b a := by
  have hnat (m n : Nat) : (compare m n).swap = compare n m := Std.OrientedOrd.eq_swap.symm
  have hint (m n : Int) : (compare m n).swap = compare n m := Std.OrientedOrd.eq_swap.symm
  have hstring (s t : String) : (compare s t).swap = compare t s := Std.OrientedOrd.eq_swap.symm
  cases a <;> cases b <;>
    first | exact hnat _ _ | exact hint _ _ | exact hstring _ _

/-- Keys that the order of values does not rank in a circle. -/
def Ranks (keys : List Value) : Prop :=
  ∀ a ∈ keys, ∀ b ∈ keys, ∀ c ∈ keys,
    (order a b).isLE = true → (order b c).isLE = true → (order a c).isLE = true

instance (keys : List Value) : Decidable (Ranks keys) :=
  inferInstanceAs (Decidable (∀ a ∈ keys, ∀ b ∈ keys, ∀ c ∈ keys,
    (order a b).isLE = true → (order b c).isLE = true → (order a c).isLE = true))

section Ranked

variable {α : Type}

/-- The items in the order of their keys; items with equal keys stay in the order they had.  Where
the keys cannot be ranked there is no such order, and the items are inserted one after the other. -/
def ranked (descending : Bool) (key : α → Value) (items : List α) : List α :=
  if Ranks (items.map key) then items.mergeSort fun a b => !precedes descending (key b) (key a)
  else insertionSort (fun a b => precedes descending (key a) (key b)) items

theorem not_precedes_total (descending : Bool) (a b : Value) :
    ((!precedes descending b a) || !precedes descending a b) = true := by
  have hswap := order_swap a b
  unfold precedes
  rw [← hswap]
  cases descending <;> cases order a b <;> rfl

theorem not_precedes_trans (descending : Bool) {keys : List Value} (hkeys : Ranks keys)
    {a b c : Value}
    (ha : a ∈ keys) (hb : b ∈ keys) (hc : c ∈ keys) (hab : (!precedes descending b a) = true)
    (hbc : (!precedes descending c b) = true) : (!precedes descending c a) = true := by
  have hup := hkeys a ha b hb c hc
  have hdown := hkeys c hc b hb a ha
  unfold precedes at hab hbc ⊢
  rw [← order_swap a b] at hab
  rw [← order_swap b c] at hbc hdown
  rw [← order_swap a c] at hdown ⊢
  rw [← order_swap a b] at hdown
  cases descending <;> cases hoab : order a b <;> cases hobc :
    order b c <;> cases hoac : order a c <;>
    simp_all

theorem insertionSort_eq_ranked (descending : Bool) (key : α → Value) (items : List α) :
    insertionSort (fun a b => precedes descending (key a) (key b)) items
      = ranked descending key items := by
  unfold ranked
  split
  · rename_i hkeys
    -- The keys are ranked among the items only, so both sorts are taken over these.
    have hkey (a : { a // a ∈ items }) : key a.1 ∈ items.map key := mem_map_of_mem a.2
    have hsorted := @insertionSort_eq_mergeSort { a // a ∈ items }
      (fun a b => !precedes descending (key b.1) (key a.1))
      (fun a b c => not_precedes_trans descending hkeys (hkey a) (hkey b) (hkey c))
      (fun a b => not_precedes_total descending (key a.1) (key b.1)) items.attach
    have hmerged := @map_mergeSort _ _ (fun a b => !precedes descending (key b.1) (key a.1))
      (fun a b => !precedes descending (key b) (key a)) Subtype.val items.attach fun _ _ _ _ => rfl
    rw [attach_map_subtype_val] at hmerged
    rw [← hmerged, ← hsorted]
    have hitems : Forall₂ (fun (a : { a // a ∈ items }) b => a.1 = b) items.attach items := by
      have hmap := forall₂_map_right_iff.2
        (forall₂_same.2 fun (a : { a // a ∈ items }) (_ : a ∈ items.attach) => (rfl : a.1 = a.1))
      rwa [attach_map_subtype_val] at hmap
    have hinserted : Forall₂ (fun (a : { a // a ∈ items }) b => a.1 = b)
        (insertionSort (fun a b => !!precedes descending (key a.1) (key b.1)) items.attach)
        (insertionSort (fun a b => precedes descending (key a) (key b)) items) :=
      forall₂_insertionSort (fun a b a' b' ha hb => by rw [← ha, ← hb, Bool.not_not]) hitems
    have hmap := map_eq_map_of_forall₂ hinserted (f := Subtype.val) (g := id) fun _ _ h => h.symm
    rwa [map_id] at hmap
  · rfl

theorem ranked_congr (descending : Bool) {key key' : α → Value} {items : List α}
    (h : ∀ a ∈ items, key a = key' a) :
    ranked descending key items = ranked descending key' items := by
  rw [← insertionSort_eq_ranked, ← insertionSort_eq_ranked]
  have hsame : Forall₂ (fun a b => a = b ∧ a ∈ items) items items :=
    forall₂_same.2 fun a ha => ⟨rfl, ha⟩
  have hsorted : Forall₂ (fun a b => a = b ∧ a ∈ items)
      (insertionSort (fun a b => precedes descending (key a) (key b)) items)
      (insertionSort (fun a b => precedes descending (key' a) (key' b)) items) :=
    forall₂_insertionSort (fun a b a' b' ha hb => by rw [← ha.1, ← hb.1, h a ha.2, h b hb.2]) hsame
  have heq := hsorted.imp fun _ _ hab => hab.1
  rwa [forall₂_eq_eq_eq] at heq

end Ranked

theorem sortBy_map (descending : Bool) (key : Value → Value) (items : List Value) :
    sortBy descending (items.map fun item => (key item, item)) = ranked descending key items := by
  rw [← insertionSort_eq_ranked, sortBy]
  have hkeyed : Forall₂ (fun item (keyed : Value × Value) => keyed = (key item, item)) items
      (items.map fun item => (key item, item)) :=
    forall₂_map_right_iff.2 (forall₂_same.2 fun _ _ => rfl)
  have hsorted : Forall₂ (fun item (keyed : Value × Value) => keyed = (key item, item))
      (insertionSort (fun a b => precedes descending (key a) (key b)) items)
      (insertionSort (fun a b => precedes descending a.1 b.1)
        (items.map fun item => (key item, item))) :=
    forall₂_insertionSort (fun a b a' b' ha hb => by rw [ha, hb]) hkeyed
  have hmap := map_eq_map_of_forall₂ hsorted (f := id)
    (g := Prod.snd) fun item keyed h => by rw [h]; rfl
  rwa [map_id] at hmap

/-! ## Methods that pick elements -/

/-- The number of elements that a value asks for.  A negative number asks for none of them, and what
is no integer does not ask for a number. -/
def count? (v : Value) : Option Nat :=
  v.asInt?.map fun n => n.toInt.toNat

end Value

/-- Whether the elements of the result are elements of the receiver. -/
def Method.picks : Method → Bool
  | .filter | .orderBy | .skip | .take => true
  | .count | .first | .enumerate => false

namespace Method

variable {items : List Value} {o : Operand} {w : Value}

theorem eq_filter_of_keepWhere {kept : List Value}
    (h : (keepWhere o items).value? = some kept) :
    kept = items.filter fun item => (o (some item)).value?.any Value.isTrue := by
  induction items generalizing kept with
  | nil => exact (Option.some.inj h).symm
  | cons item rest ih =>
    rw [keepWhere, Run.value?_bind] at h
    obtain ⟨verdict, hverdict, h⟩ := Option.bind_eq_some_iff.1 h
    rw [Run.value?_bind] at h
    obtain ⟨others, hothers, h⟩ := Option.bind_eq_some_iff.1 h
    rw [filter_cons, hverdict, Option.any_some, ← ih hothers]
    exact (Option.some.inj h).symm

theorem eq_map_of_withKeys {keyed : List (Value × Value)}
    (h : (withKeys o items).value? = some keyed) :
    keyed = items.map fun item => ((o (some item)).value?.getD .null, item) := by
  induction items generalizing keyed with
  | nil => exact (Option.some.inj h).symm
  | cons item rest ih =>
    rw [withKeys, Run.value?_bind] at h
    obtain ⟨key, hkey, h⟩ := Option.bind_eq_some_iff.1 h
    rw [Run.value?_bind] at h
    obtain ⟨others, hothers, h⟩ := Option.bind_eq_some_iff.1 h
    rw [map_cons, hkey, Option.getD_some, ← ih hothers]
    exact (Option.some.inj h).symm

theorem eq_list_of_counted {f : Nat → List Value} {amount : Value}
    (hamount : (o none).value? = some amount) (h : (do
      match (← o none).asInt? with
      | some n => return .list (f n.toInt.toNat)
      | none => return .list items : Run EvaluationError Value).value? = some w) :
    w = .list (amount.count?.elim items f) := by
  rw [Run.value?_bind, hamount, Option.bind_some] at h
  unfold Value.count?
  cases hn : amount.asInt? <;> rw [hn] at h <;> exact (Option.some.inj h).symm

theorem subperm_of_applyToItems {method : Method} (hm : method.picks = true)
    {operands : List Operand} (h : (method.applyToItems items operands).value? = some w) :
    ∃ picked, w = .list picked ∧ picked.Subperm items := by
  have hcounted : ∀ (o : Operand) (f : Nat → List Value), (∀ n, (f n).Sublist items) → (do
      match (← o none).asInt? with
      | some n => return .list (f n.toInt.toNat)
      | none => return .list items : Run EvaluationError Value).value? = some w →
      ∃ picked, w = .list picked ∧ picked.Subperm items := by
    intro o f hf h
    have hbind := h
    rw [Run.value?_bind] at hbind
    obtain ⟨amount, hamount, -⟩ := Option.bind_eq_some_iff.1 hbind
    refine ⟨_, eq_list_of_counted hamount h, ?_⟩
    cases amount.count? with
    | none => exact .refl _
    | some n => exact (hf n).subperm
  cases method with
  | filter =>
    rcases operands with _ | ⟨o, _⟩
    · cases h
    · rw [applyToItems, Run.value?_bind] at h
      obtain ⟨kept, hkept, h⟩ := Option.bind_eq_some_iff.1 h
      refine ⟨kept, (Option.some.inj h).symm, ?_⟩
      rw [eq_filter_of_keepWhere hkept]
      exact filter_sublist.subperm
  | orderBy =>
    rcases operands with _ | ⟨o, _ | ⟨o', _⟩⟩
    · cases h
    · cases h
    · rw [applyToItems, Run.value?_bind] at h
      obtain ⟨descending, -, h⟩ := Option.bind_eq_some_iff.1 h
      rw [Run.value?_bind] at h
      obtain ⟨keyed, hkeyed, h⟩ := Option.bind_eq_some_iff.1 h
      refine ⟨_, (Option.some.inj h).symm, ?_⟩
      rw [eq_map_of_withKeys hkeyed, Value.sortBy_map, ← Value.insertionSort_eq_ranked]
      exact (Value.insertionSort_perm _ items).subperm
  | skip =>
    rcases operands with _ | ⟨o, _⟩
    · cases h
    · exact hcounted o (items.drop ·) (fun n => drop_sublist n items) h
  | take =>
    rcases operands with _ | ⟨o, _⟩
    · cases h
    · exact hcounted o (items.take ·) (fun n => take_sublist n items) h
  | _ => cases hm

end Method
end QueryProjection
