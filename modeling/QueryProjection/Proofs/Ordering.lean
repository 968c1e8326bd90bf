import Mathlib.Algebra.Group.Nat.Defs
import QueryProjection.Proofs.Sorting

/-!
# Which values are ranked

`Value.order` goes by kind, except that numbers of both kinds are compared as numbers: two integers
exactly, and numbers of which one is a fraction after rounding.  Rounding keeps the order of
integers (`Binary64.orderKey_ofInt_mono`), so only the integers that round to the same fraction are
out of line: the larger one, that fraction and the smaller one form a circle (`Value.Circle`).  All
other values are ranked.

A circle needs two integers and a fraction, so sorting by keys without fractions is a stable sort,
in both directions: `Expr.orderBy_stable`.  With a fraction among the keys, what sorting gives can
depend on the order in which keys are compared, and nothing is said of it.

That rounding is monotone is shown for magnitudes: a whole number is rounded to a multiple of a unit
that grows with the number of its digits, and where the unit changes, the smaller number is rounded
to no more than the power of two that the larger one starts from.  The key by which fractions are
compared orders magnitudes as numbers, and turns the negative ones round.
-/

namespace QueryProjection

open List
namespace Binary64

/-! ## Rounding is monotone -/

variable {a d k n : Nat}

theorem roundDiv_mono {b : Nat} (d : Nat) (h : a ≤ b) : roundDiv a d ≤ roundDiv b d := by
  have hq := Nat.div_le_div_right (c := d) h
  have ha := Nat.div_add_mod a d
  have hb := Nat.div_add_mod b d
  unfold roundDiv
  rcases Nat.lt_or_eq_of_le hq with hlt | heq
  · grind
  · rw [heq] at ha ⊢
    grind

theorem le_roundDiv (hd : 0 < d) (h : k * d ≤ a) : k ≤ roundDiv a d := by
  have hq := (Nat.le_div_iff_mul_le hd).2 h
  unfold roundDiv
  grind

theorem roundDiv_le (h : a < k * d) : roundDiv a d ≤ k := by
  have hq := Nat.div_lt_of_lt_mul (Nat.mul_comm k d ▸ h)
  unfold roundDiv
  grind

theorem inUnits_one (n k : Nat) :
    inUnits n 1 ((k : Int) - 52) = (n * 2 ^ (52 - k), 2 ^ (k - 52)) := by
  unfold inUnits
  split
  · have hk : 52 - k = 0 := by omega
    have he : ((k : Int) - 52).toNat = k - 52 := by omega
    simp [hk, he]
  · have hk : k - 52 = 0 := by omega
    have he : (-((k : Int) - 52)).toNat = 52 - k := by omega
    simp [hk, he]

/-- In its unit a whole number has 53 digits. -/
theorem digits_inUnits (h : n ≠ 0) :
    2 ^ 52 * 2 ^ (n.log2 - 52) ≤ n * 2 ^ (52 - n.log2)
      ∧ n * 2 ^ (52 - n.log2) < 2 ^ 53 * 2 ^ (n.log2 - 52) := by
  have hlow := Nat.log2_self_le h
  have hhigh : n < 2 ^ (n.log2 + 1) := Nat.lt_log2_self
  generalize n.log2 = k at *
  rcases Nat.le_total 52 k with hk | hk
  · obtain ⟨j, rfl⟩ := Nat.exists_eq_add_of_le hk
    have hj : 52 - (52 + j) = 0 := by omega
    rw [hj, Nat.add_sub_cancel_left, ← Nat.pow_add, ← Nat.pow_add]
    refine ⟨by simpa using hlow, ?_⟩
    rw [Nat.add_right_comm] at hhigh
    simpa using hhigh
  · obtain ⟨j, hj⟩ := Nat.exists_eq_add_of_le hk
    have hzero : k - 52 = 0 := by omega
    have hj' : 52 - k = j := by omega
    have h53 : 53 = k + 1 + j := by omega
    rw [hzero, hj', h53, hj, Nat.pow_add _ (k + 1), Nat.pow_add _ k j, Nat.pow_zero,
      Nat.mul_one, Nat.mul_one]
    exact ⟨Nat.mul_le_mul_right _ hlow, Nat.mul_lt_mul_of_pos_right hhigh (Nat.two_pow_pos j)⟩

theorem unitExponent_one (h : n ≠ 0) : unitExponent n 1 = (n.log2 : Int) - 52 := by
  have hdigits := (Nat.le_div_iff_mul_le (Nat.two_pow_pos _)).2 (digits_inUnits h).1
  have hone : Nat.log2 1 = 0 := by decide
  simp only [unitExponent, hone, Int.natCast_zero, Int.sub_zero, inUnits_one, Nat.pow_eq,
    Nat.not_lt.2 hdigits, if_false]
  omega

/-- The magnitude of a whole number that is rounded. -/
def wholeMagnitude (n : Nat) : Nat :=
  if n = 0 then 0
  else min infinityMagnitude
    ((n.log2 + 1022) * 2 ^ 52 + roundDiv (n * 2 ^ (52 - n.log2)) (2 ^ (n.log2 - 52)))

theorem ofRatio_one (negative : Bool) (n : Nat) :
    ofRatio negative n 1 = ofMagnitude negative (wholeMagnitude n) := by
  unfold ofRatio wholeMagnitude
  split
  · rfl
  · rename_i h
    have hexponent : ((n.log2 : Int) - 52 + 1074).toNat = n.log2 + 1022 := by omega
    simp only [unitExponent_one h, inUnits_one, hexponent, Nat.pow_eq]

theorem wholeMagnitude_mono {m : Nat} (h : m ≤ n) : wholeMagnitude m ≤ wholeMagnitude n := by
  unfold wholeMagnitude
  split
  · exact Nat.zero_le _
  · rename_i hm
    have hn : n ≠ 0 := by omega
    rw [if_neg hn]
    refine Nat.le_min.2 ⟨Nat.min_le_left _ _, (Nat.min_le_right _ _).trans ?_⟩
    rcases Nat.lt_or_eq_of_le ((Nat.le_log2 hn).2 ((Nat.log2_self_le hm).trans h)) with hlt | heq
    · -- The larger number has the larger unit, and each has 53 digits in its own.
      have hlow := le_roundDiv (Nat.two_pow_pos _) (digits_inUnits hn).1
      have hhigh := roundDiv_le (digits_inUnits hm).2
      omega
    · rw [← heq]
      exact Nat.add_le_add_left (roundDiv_mono _ (Nat.mul_le_mul_right _ h)) _

theorem orderKey_ofMagnitude (negative : Bool) {magnitude : Nat}
    (h : magnitude ≤ infinityMagnitude) :
    (ofMagnitude negative magnitude).orderKey
      = if negative then -(magnitude : Int) - 1 else magnitude := by
  unfold infinityMagnitude at h
  simp only [Nat.pow_eq] at h
  simp only [orderKey, Binary64.negative, Binary64.magnitude, ofMagnitude,
    UInt64.toNat_ofNat', Nat.pow_eq, decide_eq_true_eq]
  split <;> split <;> omega

theorem wholeMagnitude_le (n : Nat) : wholeMagnitude n ≤ infinityMagnitude := by
  unfold wholeMagnitude
  split
  · exact Nat.zero_le _
  · exact Nat.min_le_left _ _

theorem orderKey_ofInt (i : Int) : (ofInt i).orderKey =
    if i < 0 then -(wholeMagnitude i.natAbs : Int) - 1 else wholeMagnitude i.natAbs := by
  rw [ofInt, ofRatio_one, orderKey_ofMagnitude _ (wholeMagnitude_le _)]
  simp only [decide_eq_true_eq]

/-- **Rounding keeps the order of integers.** -/
theorem orderKey_ofInt_mono {i j : Int} (h : i ≤ j) : (ofInt i).orderKey ≤ (ofInt j).orderKey := by
  rw [orderKey_ofInt, orderKey_ofInt]
  split <;> split
  · have := wholeMagnitude_mono (m := j.natAbs) (n := i.natAbs) (by omega)
    omega
  · omega
  · omega
  · have := wholeMagnitude_mono (m := i.natAbs) (n := j.natAbs) (by omega)
    omega

theorem orderKey_injective {x y : Binary64} (h : x.orderKey = y.orderKey) : x = y := by
  have hx := x.bits.toNat_lt
  have hy := y.bits.toNat_lt
  have hbits : x.bits.toNat = y.bits.toNat := by
    simp only [orderKey, negative, magnitude, decide_eq_true_eq, Nat.pow_eq] at h
    split at h <;> split at h <;> omega
  cases x
  cases y
  exact congrArg mk (UInt64.toNat_inj.1 hbits)

end Binary64

namespace Value

/-! ## Which values are ranked -/

variable {a b c : Value}

theorem order_of_rank_lt (h : a.rank < b.rank) : a.order b = .lt := by
  have hrank : compare a.rank b.rank = .lt := Nat.compare_eq_lt.2 h
  cases a <;> cases b <;> first | exact hrank | exact absurd h (Nat.lt_irrefl _)

theorem rank_le_of_order (h : a.order b ≠ .gt) : a.rank ≤ b.rank := by
  by_contra hlt
  rw [← order_swap, order_of_rank_lt (Nat.lt_of_not_le hlt)] at h
  exact h rfl

/-- An integer, the fraction that it rounds to, and a smaller integer that rounds to the same
fraction. -/
def Circle (a b c : Value) : Prop :=
  ∃ x f y, a = .int x ∧ b = .float f ∧ c = .int y ∧ y < x ∧ Binary64.ofInt x.toInt = f
    ∧ Binary64.ofInt y.toInt = f

theorem rank_eq_two_iff : a.rank = 2 ↔ ∃ x, a.asFloat? = some x := by
  cases a <;> simp [rank, asFloat?]

theorem orderKey_le_of_order {x y : Binary64} (ha : a.asFloat? = some x) (hb : b.asFloat? = some y)
    (h : a.order b ≠ .gt) : x.orderKey ≤ y.orderKey := by
  cases a <;> cases b <;> cases ha <;> cases hb
  case int.int i j => exact Binary64.orderKey_ofInt_mono (Int.compare_ne_gt.1 h)
  all_goals exact Int.compare_ne_gt.1 h

/-- What is not a number is compared within its kind by an order, or not at all. -/
theorem order_trans_of_not_number (hb : b.asFloat? = none) (hrank : a.rank = b.rank)
    (hrank' : b.rank = c.rank)
    (hab : a.order b ≠ .gt) (hbc : b.order c ≠ .gt) : a.order c ≠ .gt := by
  have htrans {α : Type} [Ord α] [Std.TransOrd α] (x y z : α) (hxy : compare x y ≠ .gt)
      (hyz : compare y z ≠ .gt) : compare x z ≠ .gt :=
    Ordering.isLE_iff_ne_gt.1 (Std.TransOrd.isLE_trans (Ordering.isLE_iff_ne_gt.2 hxy)
      (Ordering.isLE_iff_ne_gt.2 hyz))
  cases b <;> cases hb <;> cases a <;> simp [rank] at hrank <;> cases c <;> simp [rank] at hrank'
  case boolean.refl.boolean.boolean => exact htrans _ _ _ hab hbc
  case string.refl.string.string => exact htrans _ _ _ hab hbc
  all_goals exact hab

theorem circle_of_order (hab : a.order b ≠ .gt) (hbc : b.order c ≠ .gt)
    (hac : a.order c = .gt) : Circle a b c := by
  have hca : c.order a ≠ .gt := by
    rw [← order_swap, hac]
    decide
  have hrank := rank_le_of_order hab
  have hrank' := rank_le_of_order hbc
  have hback := rank_le_of_order hca
  cases hb : b.asFloat? with
  | none => exact absurd hac (order_trans_of_not_number hb (by omega) (by omega) hab hbc)
  | some f =>
    have hnumber := rank_eq_two_iff.2 ⟨f, hb⟩
    obtain ⟨x, hx⟩ := rank_eq_two_iff.1 (show a.rank = 2 by omega)
    obtain ⟨y, hy⟩ := rank_eq_two_iff.1 (show c.rank = 2 by omega)
    -- After rounding the three are in order and hence all the same.
    have hxf := orderKey_le_of_order hx hb hab
    have hfy := orderKey_le_of_order hb hy hbc
    have hyx := orderKey_le_of_order hy hx hca
    cases a <;> cases hx <;> cases c <;> cases hy
    case int.refl.int.refl i k =>
      have hki : k.toInt < i.toInt := Int.compare_eq_gt.1 hac
      cases b <;> cases hb
      case int.refl j =>
        have hij := Int.compare_ne_gt.1 hab
        have hjk := Int.compare_ne_gt.1 hbc
        omega
      case float.refl =>
        exact ⟨i, f, k, rfl, rfl, rfl, Int64.lt_iff_toInt_lt.2 hki,
          Binary64.orderKey_injective (by omega), Binary64.orderKey_injective (by omega)⟩
    all_goals exact absurd hac (Int.compare_ne_gt.2 (hxf.trans hfy))

/-- **Values are ranked, but for the circles of rounding.**  Comparing the other way round gives the
reverse, a value equals itself, and of values in order the first does not come after the last unless
the three form a circle. -/
theorem order_ranks_but_circles (a b c : Value) :
    a.order b = (b.order a).swap ∧ a.order a = .eq
      ∧ (a.order b ≠ .gt → b.order c ≠ .gt → (a.order c = .gt ↔ Circle a b c)) := by
  have hself : a.order a = .eq := by
    have hswap := order_swap a a
    cases h : a.order a <;> rw [h] at hswap <;> first | rfl | cases hswap
  refine ⟨(order_swap b a).symm, hself, fun hab hbc => ⟨circle_of_order hab hbc, ?_⟩⟩
  rintro ⟨x, f, y, rfl, rfl, rfl, hlt, -, -⟩
  exact Int.compare_eq_gt.2 (Int64.lt_iff_toInt_lt.1 hlt)

/-- Two integers that round to the same fraction. -/
theorem order_circle_at_rounding :
    let a := Value.int 9007199254740993
    let b := Value.float (.ofInt 9007199254740992)
    let c := Value.int 9007199254740992
    a.order b = .eq ∧ b.order c = .eq ∧ a.order c = .gt ∧ Circle a b c := by
  intro a b c
  have hab : a.order b = .eq := by decide +kernel
  have hbc : b.order c = .eq := by decide +kernel
  have hac : a.order c = .gt := by decide +kernel
  exact ⟨hab, hbc, hac, ((order_ranks_but_circles a b c).2.2 (by rw [hab]; decide)
    (by rw [hbc]; decide)).1 hac⟩

/-! ## Sorting without fractions -/

theorem ranks_of_no_float {keys : List Value} (h : ∀ k ∈ keys, ∀ x, k ≠ .float x) : Ranks keys := by
  intro a _ b hb c _ hab hbc
  rw [Ordering.isLE_iff_ne_gt] at *
  intro hac
  obtain ⟨_, f, _, -, rfl, -⟩ := circle_of_order hab hbc hac
  exact h _ hb f rfl

variable {α : Type} {key : α → Value}

/-- Keys without fractions are ranked: what comes out is a permutation, in the given direction, and
items of equal keys stay in the order they had. -/
theorem ranked_stable (hkey : ∀ a x, key a ≠ .float x) (descending : Bool) (items : List α) :
    (ranked descending key items).Perm items
      ∧ (ranked descending key items).Pairwise
        (fun a b => precedes descending (key b) (key a) = false)
      ∧ ∀ b, (ranked descending key items).filter (fun a => (key a).order (key b) == .eq)
        = items.filter fun a => (key a).order (key b) == .eq := by
  have htrans (a b c : α) (hab : (!precedes descending (key b) (key a)) = true)
      (hbc : (!precedes descending (key c) (key b)) = true) :
        (!precedes descending (key c) (key a)) = true := by
    have hranks : Ranks [key a, key b, key c] := ranks_of_no_float (by simp [hkey])
    exact not_precedes_trans descending hranks (by simp) (by simp) (by simp) hab hbc
  have htotal (a b : α) := not_precedes_total descending (key a) (key b)
  have hranked :
      ranked descending key items = items.mergeSort fun a b =>
        !precedes descending (key b) (key a) := by
    refine if_pos (ranks_of_no_float fun k hk => ?_)
    obtain ⟨a, -, rfl⟩ := mem_map.1 hk
    exact hkey a
  rw [hranked]
  have hperm := mergeSort_perm items fun a b => !precedes descending (key b) (key a)
  refine ⟨hperm, (pairwise_mergeSort htrans htotal items).imp
    fun h => by simpa using h, fun b => ?_⟩
  -- The class of a key is in order as it stands, so sorting leaves it as it is.
  have hclass : (items.filter fun a => (key a).order (key b) == .eq).Pairwise
      fun a c => (!precedes descending (key c) (key a)) = true := by
    refine pairwise_of_forall_mem_list fun a ha c hc => ?_
    obtain ⟨-, ha⟩ := mem_filter.1 ha
    obtain ⟨-, hc⟩ := mem_filter.1 hc
    refine htrans a b c ?_ ?_
    · rw [precedes, ← order_swap, eq_of_beq ha]
      cases descending <;> rfl
    · rw [precedes, eq_of_beq hc]
      cases descending <;> rfl
  have hsub := (sublist_mergeSort htrans htotal hclass filter_sublist).filter
    fun a => (key a).order (key b) == .eq
  rw [filter_filter] at hsub
  simp only [Bool.and_self] at hsub
  exact (hsub.eq_of_length (hperm.filter _).length_eq.symm).symm

end Value

namespace Method

theorem value?_withKeys {o : Operand} {key : Value → Value} {items : List Value}
    (h : ∀ item ∈ items, (o (some item)).value? = some (key item)) :
    (withKeys o items).value? = some (items.map fun item => (key item, item)) := by
  induction items with
  | nil => rfl
  | cons item rest ih =>
    obtain ⟨hitem, hrest⟩ := forall_mem_cons.1 h
    simp [withKeys, hitem, ih hrest]

end Method

namespace Expr

/-- **Sorting is stable in both directions.**  Where no key is a fraction, sorting gives the
elements in another order: from the largest key on if the direction is true and from the smallest on
otherwise, and elements of equal keys in the order they had. -/
theorem orderBy_stable (services : Provider) (env : Environment) (list body direction : Expr)
    (p : Parameter)
    (v d : Value) (items : List Value) (key : Value → Value)
    (hlist : list.value? services env = some v)
    (hitems : v.elements.value? = some items) (hdirection : direction.value? services env = some d)
    (hkeys : ∀ item ∈ items, body.value? services (env.bind p item) = some (key item))
    (hfloat : ∀ item ∈ items, ∀ x, key item ≠ .float x) :
    ∃ sorted, (Expr.call .orderBy list [.lambda p body, direction]).value? services env
      = some (.list sorted)
      ∧ sorted.Perm items
      ∧ sorted.Pairwise (fun a b => (key a).order (key b) ≠ if d.isTrue then .lt else .gt)
      ∧ ∀ b ∈ items, sorted.filter (fun a => (key a).order (key b) == .eq)
        = items.filter fun a => (key a).order (key b) == .eq := by
  -- Only the keys of the items matter.
  obtain ⟨key', hsame, hkey'⟩ : ∃ key' : Value → Value, (∀ item ∈ items, key' item = key item)
      ∧ ∀ a x, key' a ≠ .float x := by
    classical
    refine ⟨fun item => if item ∈ items then key item else .null, fun item hitem => if_pos hitem,
      fun a x => ?_⟩
    dsimp only
    split
    · exact hfloat a ‹_› x
    · exact nofun
  obtain ⟨hperm, hsorted, hstable⟩ := Value.ranked_stable hkey' d.isTrue items
  have hmem {a : Value} (ha : a ∈ Value.ranked d.isTrue key' items) : key' a = key a :=
    hsame a (hperm.mem_iff.1 ha)
  refine ⟨Value.ranked d.isTrue key' items, ?_, hperm, ?_, fun b hb => ?_⟩
  · have hwithKeys := Method.value?_withKeys (o := (lambda p body).operand services env)
      fun item hitem => (hkeys item hitem).trans (congrArg some (hsame item hitem).symm)
    have hnull : v.isNull = false := by
      cases v <;> first | rfl | cases hitems
    rw [value?_call, hlist, Option.bind_some, Method.apply, hnull]
    have hd : (direction.operand services env none).value? = some d := hdirection
    simp [Method.applyToItems, hitems, hwithKeys, hd, Value.sortBy_map]
  · refine hsorted.imp_of_mem fun ha hb h => ?_
    rw [hmem ha, hmem hb, Value.precedes, ← Value.order_swap] at h
    intro heq
    rw [heq] at h
    cases hd : d.isTrue <;> rw [hd] at h <;> cases h
  · have hclass {l : List Value} (hl : ∀ a ∈ l, a ∈ items) :
        l.filter (fun a => (key' a).order (key b) == .eq) = l.filter fun a =>
          (key a).order (key b) == .eq :=
      filter_congr fun a ha => by rw [hsame a (hl a ha)]
    have hfilter := hstable b
    rwa [hsame b hb, hclass fun a ha => hperm.mem_iff.1 ha, hclass fun _ => id] at hfilter

/-! Values of all kinds but fractions, sorted by themselves; lists are as good as each other. -/

def mixed : List Value :=
  [.list [.int 1], .null, .list [], .int 2, .object [], .string "b"]

def descending (p : Parameter) : Expr :=
  .call .orderBy (.constant 0 (.list mixed) (.list .null))
    [.lambda p (.parameter p), .constant 1 (.boolean true) .boolean]

theorem mixed_stable : (∀ item ∈ mixed, ∀ x, item ≠ .float x)
    ∧ ∃ sorted, (descending ⟨0, "item", .null⟩).value? .empty .empty = some (.list sorted)
      ∧ (Value.list sorted).text = "[\x7b\x7d, [1], [], \"b\", 2, null]" ∧ sorted.Perm mixed
      ∧ sorted.Pairwise (fun a b => a.order b ≠ .lt)
      ∧ ∀ b ∈ mixed, sorted.filter (·.order b == .eq) = mixed.filter (·.order b == .eq) := by
  have hfloat : ∀ item ∈ mixed, ∀ x, item ≠ .float x := by
    simp [mixed]
  obtain ⟨sorted, hsorted, hstable⟩ := orderBy_stable .empty .empty
    (.constant 0 (.list mixed) (.list .null))
    (.parameter ⟨0, "item", .null⟩) (.constant 1 (.boolean true) .boolean)
      ⟨0, "item", .null⟩ _ _ mixed id rfl rfl rfl
    (fun item _ => rfl) hfloat
  refine ⟨hfloat, sorted, hsorted, ?_, hstable⟩
  have htext : ((descending ⟨0, "item", .null⟩).value? .empty .empty).map Value.text
      = some "[\x7b\x7d, [1], [], \"b\", 2, null]" := by decide +kernel
  rw [descending, hsorted] at htext
  exact Option.some.inj htext

end Expr
end QueryProjection
