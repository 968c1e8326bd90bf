import QueryProjection.Proofs.Eager
import QueryProjection.Proofs.Expr.Rename

/-!
# Chains of members

A service field is evaluated after its dependencies, which are chains of members on its context,
have been fetched.  A chain evaluates to what is reached from the value of the parameter it starts
at, and leaves no events on the way.

* `Expr.ReadsOf.eq_of_same`: a chain is the same expression only as itself;
* `Expr.occurrences` lists the free occurrences of a parameter with the member that is read on each;
* `Expr.collected_collect`: a visit of an expression adds the members that its occurrences read, and
  fails if one of them reads none;
* `Expr.dependencies_eq_nil_iff`: an expression has no dependencies on a parameter exactly if it
  does not mention it.
-/

namespace QueryProjection

open List

namespace Expr

variable {services : Provider} {p q : Parameter} {name : String} {whole : Expr}

/-! ## Chains -/

variable {e : Expr} {path : FieldPath} {found : Dependencies} {bound : List Parameter}

theorem ReadsOf.eq_of_same (h : whole.ReadsOf p) (hsame : same e whole = true) : e = whole := by
  induction h generalizing e with
  | parameter =>
    cases e with
    | parameter p' =>
      rw [same, beq_iff_eq] at hsame
      rw [hsame]
    | _ => simp [same] at hsame
  | member _ name ty ih =>
    cases e with
    | member receiver name' ty' =>
      simp only [same, Bool.and_eq_true, beq_iff_eq] at hsame
      obtain ⟨⟨hreceiver, rfl⟩, rfl⟩ := hsame
      rw [ih hreceiver]
    | _ => simp [same] at hsame

theorem ChainOn.replace (h : ChainOn (.parameter p) name whole) (target : Expr) :
    ChainOn target name (whole.replace (.identity p) target)
      ∧ (whole.replace (.identity p) target).ty = whole.ty := by
  induction h with
  | first ty =>
    refine ⟨?_, rfl⟩
    show ChainOn target name (.member (Expr.replace _ _ _) name ty)
    rw [replace_parameter]
    exact .first ty
  | next _ name' ty ih => exact ⟨.next ih.1 name' ty, rfl⟩

/-! ## Dependencies -/

theorem root_of_dependencies (h : e.dependencies (.identity p) path = .ok found) :
    ∀ d ∈ found, d.2.root = p := by
  refine collect_induct (I := fun found => ∀ d ∈ found, d.2.root = p) ?_ e chainOn_none
    (forall_mem_nil _) h
  intro bound root name whole found htracks _ hfound d hd
  rcases Assoc.mem_insert hd with hd | rfl
  · exact hfound d hd
  · have htarget : p = root := beq_iff_eq.1 (Bool.and_eq_true_iff.1 htracks).1
    exact htarget.symm

theorem nodup_of_dependencies {tracked : Tracked} (h : e.dependencies tracked path = .ok found) :
    (found.map Prod.fst).Nodup := by
  refine collect_induct (I := fun found => (Assoc.keys found).Nodup)
    (fun _ _ _ _ _ _ _ hfound => Assoc.nodup_keys_insert _ _ _ hfound) e chainOn_none ?_ h
  exact nodup_nil

/-! ## Occurrences of a parameter -/

mutual

/-- The free occurrences of a parameter, in order, each with the member that is read directly on it,
if there is one.  `read` is the member that is read directly on the expression itself. -/
def occurrences (p : Parameter) (read : Option String) : Expr → List (Option String)
  | .parameter q => if q = p then [read] else []
  | .constant _ _ _ => []
  | .member receiver name _ => occurrences p (some name) receiver
  | .call _ receiver arguments => occurrences p none receiver ++ occurrencesAll p arguments
  | .binary _ left right => occurrences p none left ++ occurrences p none right
  | .serviceCall _ _ arguments _ => occurrencesAll p arguments
  | .lambda q body => if q = p then [] else occurrences p none body
  | .record _ values => occurrencesAll p values
  | .projectEach source q body =>
    occurrences p none source ++ if q = p then [] else occurrences p none body
  | .projectOne source q body =>
    occurrences p none source ++ if q = p then [] else occurrences p none body
  | .materialize inner => occurrences p none inner

/-- The same for several expressions. -/
def occurrencesAll (p : Parameter) : List Expr → List (Option String)
  | [] => []
  | e :: es => occurrences p none e ++ occurrencesAll p es

end

theorem occurrences_eq_flatMap (he : e.asParameter? = none) (read : Option String)
    (chain : Option (Expr × String)) :
    e.occurrences p read = e.parts.flatMap fun part =>
      if p ∈ part.1 then [] else part.2.occurrences p ((e.chainBelow chain).map Prod.snd) := by
  have hall (es : List Expr) : occurrencesAll p es = es.flatMap (occurrences p none) := by
    induction es with
    | nil => rfl
    | cons e es ih => rw [occurrencesAll, ih, flatMap_cons]
  cases e with
  | parameter q => cases he
  | _ => simp [occurrences, parts, chainBelow, hall, flatMap_map, eq_comm]

theorem not_mem_freeOccurrences (e : Expr) (h : p ∈ bound) : p ∉ e.freeOccurrences bound :=
  fun hp => ((mem_freeOccurrences e bound).1 hp).2 h

/-- The occurrences that are listed are the free ones, each once. -/
theorem length_occurrences (e : Expr) (read : Option String) (h : p ∉ bound) :
    (e.occurrences p read).length = (e.freeOccurrences bound).count p := by
  induction e using induct_parts generalizing read bound with
  | parameter q =>
    rw [occurrences, freeOccurrences]
    by_cases hq : q = p
    · rw [if_pos hq, if_neg (hq ▸ h), hq]
      exact count_singleton_self.symm
    · rw [if_neg hq]
      split
      · rfl
      · exact (count_eq_zero.2 fun hp => hq (mem_singleton.1 hp).symm).symm
  | node e he ih =>
    rw [occurrences_eq_flatMap he read none, freeOccurrences_eq_flatMap he, length_flatMap,
      count_flatMap]
    refine congrArg sum (map_congr_left fun part hpart => ?_)
    by_cases hp : p ∈ part.1
    · have hnone := not_mem_freeOccurrences part.2 (mem_append_left bound hp)
      rw [if_pos hp, Function.comp_apply, count_eq_zero.2 hnone, length_nil]
    · rw [if_neg hp]
      exact ih part hpart _ fun h' => (mem_append.1 h').elim hp h

/-! ## What a visit finds -/

/-- A visit that ends has met occurrences with members only, and has added these members.  One that
fails has met an occurrence without a member. -/
def Collected (met : List (Option String)) (found : Dependencies) :
    Except CompileError Dependencies → Prop
  | .ok found' => none ∉ met
      ∧ ∀ name, name ∈ Assoc.keys found' ↔ name ∈ Assoc.keys found ∨ some name ∈ met
  | .error _ => none ∈ met

theorem collected_nil (found : Dependencies) : Collected [] found (.ok found) :=
  ⟨not_mem_nil, by simp⟩

theorem Collected.bind {met met' : List (Option String)} {x : Except CompileError Dependencies}
    (h : Collected met found x) {f : Dependencies → Except CompileError Dependencies}
    (hf : ∀ found', Collected met' found' (f found')) :
    Collected (met ++ met') found (x >>= f) := by
  cases x with
  | error e => exact mem_append_left _ h
  | ok found' =>
    have hrest := hf found'
    change Collected (met ++ met') found (f found')
    generalize f found' = y at hrest ⊢
    cases y with
    | error e => exact mem_append_right _ hrest
    | ok found'' =>
      refine ⟨fun hnone => (mem_append.1 hnone).elim h.1 hrest.1, fun name => ?_⟩
      rw [hrest.2, h.2, mem_append, or_assoc]

theorem Collected.foldlM {α : Type} {met : α → List (Option String)}
    {f : Dependencies → α → Except CompileError Dependencies} {items : List α}
    (h : ∀ a ∈ items, ∀ found, Collected (met a) found (f found a)) (found : Dependencies) :
    Collected (items.flatMap met) found (items.foldlM f found) := by
  induction items generalizing found with
  | nil => exact collected_nil found
  | cons a rest ih =>
    obtain ⟨ha, hrest⟩ := forall_mem_cons.1 h
    rw [flatMap_cons, foldlM_cons]
    exact (ha found).bind (ih hrest)

theorem collect_of_not_mem (e : Expr) (h : p ∉ e.freeOccurrences bound)
    (chain : Option (Expr × String)) (found : Dependencies) :
    collect (.identity p) path bound chain e found = .ok found := by
  induction e using induct_parts generalizing bound chain found with
  | parameter q =>
    have htracks : (Tracked.identity p).tracks bound q = false := by
      rw [Bool.eq_false_iff]
      intro htracks
      obtain ⟨heq, hbound⟩ := Bool.and_eq_true_iff.1 htracks
      obtain rfl := beq_iff_eq.1 heq
      rw [freeOccurrences, if_neg (by simpa using hbound)] at h
      exact h mem_cons_self
    simp only [collect, htracks, Bool.false_eq_true, if_false]
  | node e he ih =>
    rw [freeOccurrences_eq_flatMap he, mem_flatMap, not_exists] at h
    rw [collect_eq_foldlM he]
    generalize e.chainBelow chain = below, e.parts = parts at h ih
    induction parts generalizing found with
    | nil => rfl
    | cons part rest ihrest =>
      obtain ⟨hfirst, hrest⟩ := forall_mem_cons.1 ih
      rw [foldlM_cons, hfirst (fun hp => h part ⟨mem_cons_self, hp⟩)]
      exact ihrest found (fun part' hpart' => h part' (hpart'.imp_left (mem_cons_of_mem _))) hrest

/-- **A visit finds the members that are read on the occurrences it meets.** -/
theorem collected_collect (path : FieldPath) (e : Expr) (h : p ∉ bound)
    (chain : Option (Expr × String)) (found : Dependencies) :
    Collected (e.occurrences p (chain.map Prod.snd)) found
      (collect (.identity p) path bound chain e found) := by
  induction e using induct_parts generalizing bound chain found with
  | parameter q =>
    unfold occurrences collect
    by_cases hq : q = p
    · subst hq
      have htracks : Tracked.tracks (.identity q) bound q = true := by simp [Tracked.tracks, h]
      rw [if_pos rfl, if_pos htracks]
      cases chain with
      | none => exact mem_singleton.2 rfl
      | some c =>
        refine ⟨by simp, fun name => ?_⟩
        have hkeys : name ∈ Assoc.keys (Assoc.insertAll found [(c.2, ⟨q, c.1⟩)])
            ↔ name ∈ Assoc.keys found ∨ name ∈ Assoc.keys [(c.2, (⟨q, c.1⟩ : Dependency))] :=
          Assoc.mem_keys_insertAll
        simpa [Assoc.insertAll, Assoc.keys] using hkeys
    · have htracks : Tracked.tracks (.identity p) bound q = false := by
        simp [Tracked.tracks, Ne.symm hq]
      rw [if_neg hq, htracks]
      exact collected_nil found
  | node e he ih =>
    rw [occurrences_eq_flatMap he _ chain, collect_eq_foldlM he]
    refine Collected.foldlM (fun part hpart found => ?_) found
    by_cases hp : p ∈ part.1
    · rw [if_pos hp, collect_of_not_mem part.2
        (not_mem_freeOccurrences part.2 (mem_append_left bound hp))]
      exact collected_nil found
    · rw [if_neg hp]
      exact ih part hpart (fun h' => (mem_append.1 h').elim hp h) _ found

theorem collected_dependencies (path : FieldPath) (e : Expr) :
    Collected (e.occurrences p none) [] (e.dependencies (.identity p) path) :=
  collected_collect path e not_mem_nil none []

theorem mem_keys_of_dependencies (h : e.dependencies (.identity p) path = .ok found)
    (name : String) : name ∈ Assoc.keys found ↔ some name ∈ e.occurrences p none := by
  have hcollected := collected_dependencies (p := p) path e
  rw [h] at hcollected
  exact (hcollected.2 name).trans (or_iff_right not_mem_nil)

theorem mem_freeParameters_of_dependencies (h : e.dependencies (.identity p) path = .ok found)
    {d : String × Dependency} (hd : d ∈ found) : p ∈ e.freeParameters := by
  have hoccurrence := (mem_keys_of_dependencies h d.1).1 (mem_map_of_mem hd)
  have hlength : (e.occurrences p none).length = (e.freeOccurrences []).count p :=
    length_occurrences e none not_mem_nil
  exact mem_freeParameters.2 (count_pos_iff.1 (hlength ▸ length_pos_of_mem hoccurrence))

theorem not_mem_freeParameters_of_dependencies (h : e.dependencies (.identity p) path = .ok []) :
    p ∉ e.freeParameters := by
  intro hmem
  have hcollected := collected_dependencies (p := p) path e
  rw [h] at hcollected
  have hlength : (e.occurrences p none).length = (e.freeOccurrences []).count p :=
    length_occurrences e none not_mem_nil
  obtain ⟨m, hm⟩ := exists_mem_of_length_pos (hlength ▸ count_pos_iff.2 (mem_freeParameters.1 hmem))
  cases m with
  | none => exact hcollected.1 hm
  | some name => exact not_mem_nil ((mem_keys_of_dependencies h name).2 hm)

theorem dependencies_eq_nil_iff :
    e.dependencies (.identity p) path = .ok [] ↔ p ∉ e.freeParameters :=
  ⟨not_mem_freeParameters_of_dependencies, fun h =>
    collect_of_not_mem e (fun hmem => h (mem_freeParameters.2 hmem)) none []⟩

/-! ## Substituting -/

theorem binders_substitute {target replacement : Expr} (hr : replacement.binders = []) :
    ∀ q ∈ (e.substitute target replacement).binders, q ∈ e.binders := by
  unfold substitute
  induction e using induct_all with
  | h e ih =>
    intro q hq
    rw [substituteIn_eq] at hq
    split at hq
    · exact absurd (hr ▸ hq) not_mem_nil
    · rw [mem_binders, parts_mapParts] at hq
      obtain ⟨_, hmem, hq⟩ := hq
      obtain ⟨part, hpart, rfl⟩ := mem_map.1 hmem
      exact mem_binders.2 ⟨part, hpart, hq.imp_right (ih part hpart q)⟩

end Expr
end QueryProjection
