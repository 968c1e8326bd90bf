import Mathlib.Data.List.Nodup
import Mathlib.Data.List.Perm.Subperm
import QueryProjection.Proofs.Merge

/-!
# Fields that are added to a selection

The data pass adds fields to a selection that nobody selected: members that service fields will
read, and members that the extensions of a list read of its elements.  These are added behind the
selected fields and never in place of one.

* `SelectionMap.Adds` says that fields were added behind others;
* `SelectionMap.Probes` is the search for the key of a fetched field, without a bound on its length.
  One try more than there are fields finds a key (`SelectionMap.exists_fetchedKey`), so the search
  ends (`SelectionMap.probes_insertFetched`);
* `SelectionMap.field?_insertFetched`: what is fetched is found under the key that is given back.
-/

namespace QueryProjection

open List

open SelectionMap Text

namespace SelectionMap

/-! ## Adding -/

/-- No two fields have keys that differ in case only. -/
def Distinct (map : SelectionMap) : Prop :=
  (map.fields.map Prod.fst).Pairwise fun a b => Text.sameIgnoringCase a b = false

/-- Fields of which `Q` holds were added behind those of the map. -/
structure Adds (Q : Expr → Prop) (map other : SelectionMap) : Prop where
  fields : ∃ more, other.fields = map.fields ++ more ∧ ∀ f ∈ more, Q f.2
  distinct : map.Distinct → other.Distinct

variable {Q : Expr → Prop} {map other third : SelectionMap} {key : String} {e : Expr}

theorem Adds.refl (Q : Expr → Prop) (map : SelectionMap) : map.Adds Q map :=
  ⟨⟨[], (append_nil _).symm, forall_mem_nil _⟩, id⟩

theorem Adds.trans (h : map.Adds Q other) (h' : other.Adds Q third) : map.Adds Q third := by
  obtain ⟨⟨more, hmore, hQ⟩, hd⟩ := h
  obtain ⟨⟨more', hmore', hQ'⟩, hd'⟩ := h'
  refine ⟨⟨more ++ more', ?_, fun f hf => ?_⟩, fun h => hd' (hd h)⟩
  · rw [hmore', hmore, append_assoc]
  · exact (mem_append.1 hf).elim (hQ f) (hQ' f)

theorem Adds.imp {R : Expr → Prop} (hQR : ∀ e, Q e → R e) (h : map.Adds Q other) :
    map.Adds R other :=
  let ⟨more, hmore, hQ⟩ := h.fields
  ⟨⟨more, hmore, fun f hf => hQR f.2 (hQ f hf)⟩, h.distinct⟩

variable {f : String × Expr} {name : String} {attempt i : Nat}

theorem Adds.field? (h : map.Adds Q other) (hf : map.field? key = some f) :
    other.field? key = some f := by
  obtain ⟨more, hmore, -⟩ := h.fields
  rw [SelectionMap.field?, hmore, find?_append, ← SelectionMap.field?, hf]
  rfl

theorem Adds.mem (h : map.Adds Q other) (hf : f ∈ other.fields) : f ∈ map.fields ∨ Q f.2 := by
  obtain ⟨more, hmore, hQ⟩ := h.fields
  rw [hmore] at hf
  exact (mem_append.1 hf).imp_right (hQ f)

theorem Adds.isEmpty (h : map.Adds Q other) (he : other.isEmpty = true) : map.isEmpty = true := by
  obtain ⟨more, hmore, -⟩ := h.fields
  rw [SelectionMap.isEmpty, List.isEmpty_iff, hmore, List.append_eq_nil_iff] at he
  rw [SelectionMap.isEmpty, he.1]
  rfl

theorem write_of_field?_eq_none {entries : List (String × Expr)}
    (h : entries.find? (fun f => sameIgnoringCase f.1 key) = none) :
    Merge.write key e entries = entries ++ [(key, e)] := by
  induction entries with
  | nil => rfl
  | cons f rest ih =>
    obtain ⟨hf, hrest⟩ := forall_mem_cons.1 (find?_eq_none.1 h)
    rw [Merge.write, if_neg hf, ih (find?_eq_none.2 hrest)]
    rfl

theorem adds_insert (h : map.field? key = none) (he : Q e) : map.Adds Q (map.insert key e) := by
  refine ⟨⟨[(key, e)], ?_, fun f hf => ?_⟩, fun hd => ?_⟩
  · rw [fields_insert, write_of_field?_eq_none h]
  · rw [mem_singleton.1 hf]
    exact he
  · rw [Distinct, fields_insert, write_of_field?_eq_none h, map_append, pairwise_append]
    refine ⟨hd, pairwise_singleton _ _, fun a ha b hb => ?_⟩
    obtain rfl := mem_singleton.1 hb
    obtain ⟨f, hf, rfl⟩ := mem_map.1 ha
    exact Bool.eq_false_iff.2 (find?_eq_none.1 h f hf)

theorem adds_insertIfAbsent (map : SelectionMap) (key : String) (he : Q e) :
    map.Adds Q (map.insertIfAbsent key e).2 := by
  unfold insertIfAbsent contains
  cases h : map.field? key with
  | some f => exact .refl Q map
  | none => exact adds_insert h he

theorem field?_insert_self (h : map.field? key = none) :
    (map.insert key e).field? key = some (key, e) := by
  rw [field?, fields_insert, write_of_field?_eq_none h, find?_append, ← field?, h]
  simp

theorem same_of_field? (h : map.field? key = some f) : sameIgnoringCase f.1 key = true :=
  find?_some (p := fun g : String × Expr => sameIgnoringCase g.1 key) h

theorem field?_spelling (h : map.field? key = some f) : map.field? f.1 = some f := by
  rw [← h]
  refine congrArg (find? · map.fields) (funext fun g => ?_)
  rw [sameIgnoringCase_comm g.1 f.1, sameIgnoringCase_comm g.1 key]
  exact Merge.sameIgnoringCase_congr (same_of_field? h) g.1

theorem field?_insert_of_ne {other : String} (h : sameIgnoringCase key other = false) :
    (map.insert key e).field? other = map.field? other := by
  rw [field?, field?, fields_insert]
  induction map.fields with
  | nil => simp [Merge.write, h]
  | cons f rest ih =>
    obtain ⟨name, old⟩ := f
    rw [Merge.write]
    split
    · rename_i hname
      have hother : sameIgnoringCase name other = false :=
        (Merge.sameIgnoringCase_congr hname other).trans h
      simp only [find?_cons, hother]
    · simp only [find?_cons]
      split
      · rfl
      · exact ih

theorem exists_field?_insert (map : SelectionMap) (key : String) (e : Expr) :
    ∃ spelling, (map.insert key e).field? key = some (spelling, e) := by
  have hfirst := Merge.first?_write key e map.fields key
  rw [if_pos (sameIgnoringCase_refl key), ← fields_insert] at hfirst
  obtain ⟨f, hf, rfl⟩ := Option.map_eq_some_iff.1 hfirst
  exact ⟨f.1, hf⟩

theorem Distinct.insert (h : map.Distinct) (key : String) (e : Expr) :
    (map.insert key e).Distinct := by
  cases hkey : map.field? key with
  | none => exact (adds_insert (Q := fun _ => True) hkey trivial).distinct h
  | some f =>
    have hany : (map.fields.map Prod.fst).any (sameIgnoringCase · key) = true :=
      any_eq_true.2 ⟨f.1, mem_map_of_mem (mem_of_find?_eq_some hkey), same_of_field? hkey⟩
    rw [Distinct, fields_insert, Merge.keys_write, if_pos hany]
    exact h

/-! ## Fetching -/

/-- The search for the key of a fetched field, from an attempt on.  It ends at a key that is not
taken, or whose field has the same expression, and otherwise goes on to the next one.  Nothing here
bounds the number of attempts. -/
inductive Probes (map : SelectionMap) (name : String) (e : Expr) :
    Nat → String × SelectionMap → Prop
  | free {attempt : Nat} (h : map.field? (fetchedKey name attempt) = none) :
      Probes map name e attempt (fetchedKey name attempt, map.insert (fetchedKey name attempt) e)
  | shared {attempt : Nat} {f : String × Expr} (h : map.field? (fetchedKey name attempt) = some f)
      (hsame : f.2.same e = true) : Probes map name e attempt (f.1, map)
  | taken {attempt : Nat} {f : String × Expr} {r : String × SelectionMap}
      (h : map.field? (fetchedKey name attempt) = some f) (hsame : f.2.same e = false)
      (hnext : Probes map name e (attempt + 1) r) : Probes map name e attempt r

/-- A search that ends has found a free key and written the field there, or a field to share. -/
theorem Probes.ends {r : String × SelectionMap} (h : map.Probes name e attempt r) :
    (∃ i, map.field? (fetchedKey name i) = none
      ∧ r = (fetchedKey name i, map.insert (fetchedKey name i) e))
      ∨ ∃ i f, map.field? (fetchedKey name i) = some f ∧ f.2.same e = true ∧ r = (f.1, map) := by
  induction h with
  | free h => exact .inl ⟨_, h, rfl⟩
  | shared h hsame => exact .inr ⟨_, _, h, hsame, rfl⟩
  | taken _ _ _ ih => exact ih

theorem map_toLower_toDigits (n : Nat) :
    (Nat.toDigits 10 n).map Char.toLower = Nat.toDigits 10 n := by
  refine (map_congr_left fun c hc => ?_).trans (map_id _)
  have hdigit : c.isDigit = true := Nat.isDigit_of_mem_toDigits (by decide) (by decide) hc
  refine dif_neg fun hupper => ?_
  simp only [Char.isDigit, Bool.and_eq_true, decide_eq_true_eq] at hdigit
  exact absurd (UInt32.le_trans hupper.1 hdigit.2) (by decide)

theorem fetchedKey_injective (name : String) {j : Nat}
    (h : foldCase (fetchedKey name i) = foldCase (fetchedKey name j)) : i = j := by
  have hlist : (fetchedKey name i).toList.map Char.toLower
      = (fetchedKey name j).toList.map Char.toLower := by
    simpa only [foldCase, String.toList_ofList] using congrArg String.toList h
  have hlength := congrArg length hlist
  simp only [length_map] at hlength
  have hdep : "__dep_".toList.length = 6 := by decide
  have hmark : "_".toList.length = 1 := by decide
  -- The lengths tell the first two attempts from each other and from all others.
  have hcases : i = j ∨ 2 ≤ i ∧ 2 ≤ j := by
    rcases i with _ | _ | i <;> rcases j with _ | _ | j <;>
      simp only [fetchedKey, String.toList_append, length_append] at hlength <;> omega
  rcases hcases with h | ⟨hi, hj⟩
  · exact h
  · obtain ⟨i, rfl⟩ := Nat.exists_eq_add_of_le' hi
    obtain ⟨j, rfl⟩ := Nat.exists_eq_add_of_le' hj
    simp only [fetchedKey, String.toList_append, map_append] at hlist
    have hdigits := append_cancel_left hlist
    rw [Nat.repr_eq_ofList_toDigits, Nat.repr_eq_ofList_toDigits, String.toList_ofList,
      String.toList_ofList, map_toLower_toDigits, map_toLower_toDigits] at hdigits
    rw [← Nat.ofDigitChars_ten_toDigits (n := i + 2), hdigits, Nat.ofDigitChars_ten_toDigits]

/-- Among different keys, one more than there are fields, there is one that is not taken. -/
theorem exists_field?_eq_none (map : SelectionMap) {tried : Nat → String}
    (hinj : ∀ i j, foldCase (tried i) = foldCase (tried j) → i = j) :
    ∃ i ≤ map.size, map.field? (tried i) = none := by
  by_contra hnone
  have htaken : ∀ i ≤ map.size, ∃ f ∈ map.fields, foldCase f.1 = foldCase (tried i) := by
    intro i hi
    obtain ⟨f, hf⟩ := Option.ne_none_iff_exists'.1 fun h => hnone ⟨i, hi, h⟩
    exact ⟨f, mem_of_find?_eq_some hf, (sameIgnoringCase_iff _ _).1 (same_of_field? hf)⟩
  have hnodup : ((range (map.size + 1)).map fun i => foldCase (tried i)).Nodup :=
    List.Nodup.map hinj nodup_range
  have hsubset : ((range (map.size + 1)).map fun i => foldCase (tried i))
      ⊆ map.fields.map fun f => foldCase f.1 := by
    intro k hk
    obtain ⟨i, hi, rfl⟩ := mem_map.1 hk
    obtain ⟨f, hf, heq⟩ := htaken i (Nat.le_of_lt_succ (mem_range.1 hi))
    exact mem_map.2 ⟨f, hf, heq⟩
  have hlength := (subperm_of_subset hnodup hsubset).length_le
  rw [length_map, length_map, length_range] at hlength
  exact absurd hlength (Nat.not_succ_le_self _)

theorem exists_fetchedKey (map : SelectionMap) (name : String) :
    ∃ i ≤ map.size, map.field? (fetchedKey name i) = none :=
  map.exists_field?_eq_none fun _ _ => fetchedKey_injective name

theorem probes_insertFetchedFrom (e : Expr) {fuel : Nat}
    (hi : map.field? (fetchedKey name i) = none) (hfirst : attempt ≤ i)
    (hlast : i < attempt + fuel) :
    map.Probes name e attempt (map.insertFetchedFrom name e fuel attempt) := by
  induction fuel generalizing attempt with
  | zero => omega
  | succ fuel ih =>
    rw [insertFetchedFrom]
    cases hkey : map.field? (fetchedKey name attempt) with
    | none => exact .free hkey
    | some f =>
      cases hsame : f.2.same e with
      | true =>
        simp only [hsame, if_true]
        exact .shared hkey hsame
      | false =>
        have hne : attempt ≠ i := by
          rintro rfl
          rw [hkey] at hi
          cases hi
        simp only [hsame, Bool.false_eq_true, if_false]
        exact .taken hkey hsame (ih (by omega) (by omega))

theorem probes_insertFetched (map : SelectionMap) (name : String) (e : Expr) :
    map.Probes name e 0 (map.insertFetched name e) :=
  let ⟨_, hle, hi⟩ := exists_fetchedKey map name
  probes_insertFetchedFrom e hi (Nat.zero_le _) (by omega)

theorem adds_insertFetched (map : SelectionMap) (name : String) (he : Q e) :
    map.Adds Q (map.insertFetched name e).2 := by
  rcases (map.probes_insertFetched name e).ends with ⟨i, hfree, heq⟩ | ⟨i, f, -, -, heq⟩
  · rw [heq]
    exact adds_insert hfree he
  · rw [heq]
    exact .refl Q map

theorem field?_insertFetched (map : SelectionMap) (name : String) (e : Expr) :
    ∃ found, (map.insertFetched name e).2.field? (map.insertFetched name e).1
        = some ((map.insertFetched name e).1, found)
      ∧ found.same e = true
      ∧ ∃ i, sameIgnoringCase (map.insertFetched name e).1 (fetchedKey name i) = true := by
  rcases (map.probes_insertFetched name e).ends with ⟨i, hfree, heq⟩ | ⟨i, f, hf, hsame, heq⟩
  · rw [heq]
    exact ⟨e, field?_insert_self hfree, Expr.same_refl e, i, sameIgnoringCase_refl _⟩
  · rw [heq]
    exact ⟨f.2, field?_spelling hf, hsame, i, same_of_field? hf⟩

end SelectionMap
end QueryProjection
