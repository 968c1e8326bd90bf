import QueryProjection.Proofs.Renumbered.Expr

/-!
# What is done with renumbered expressions

Everything that the compiler does with expressions it does alike with renumbered ones, and so does
evaluation.

* `Expr.Renumbered.replaceUnder` puts expressions in place of a parameter, and
  `Expr.Renumbered.rebase` those that were yet to be put in place;
* `Expr.Renumbered.same` compares, and `Expr.Renumbered.substituteIn` replaces what is the same;
* `Expr.Renumbered.find?_freeOccurrences` looks for free parameters, `Expr.Renumbered.collect` for
  dependencies;
* `Expr.Renumbered.operand` evaluates.
-/

namespace QueryProjection

open List

namespace Expr

variable {base : Nat} {w w' : Numbering base} {M M' : Moved} {bound bound' : List Parameter}
  {e e' : Expr}

/-! ## Replacing parameters -/

variable {q q' p : Parameter} {target target' : Expr} {name : String} {tracked : Tracked}

theorem Renumbered.replaceUnder (hq : q.Renumbered w q') {Q : Parameter → Prop}
    (htarget : ∀ bound, (∀ p ∈ bound, Q p) → q' ∉ bound → target.Renumbered w M' bound target')
    (hmoved : ∀ p e bound, M p e bound →
      p ≠ q ∧ M' p (Expr.replaceUnder (Replacement.identity q').picks target' bound e) bound)
    (hbound : Forall₂ (Parameter.Renumbered w) bound bound') (hQ : ∀ p ∈ bound', Q p)
    (hbinders : ∀ p ∈ e'.binders, Q p) (h : e.Renumbered w M bound' e') :
    (Expr.replaceUnder (Replacement.identity q).picks target bound e).Renumbered w M' bound'
      (Expr.replaceUnder (Replacement.identity q').picks target' bound' e') := by
  induction bound', e, e', h using Renumbered.induct generalizing bound with
  | parameter bound' p p' hp =>
    rw [Expr.replaceUnder, Expr.replaceUnder]
    simp only [picks_identity, hp.eq_iff hq, Parameter.Renumbered.mem_iff hbound hp]
    split
    · rename_i hpicked
      refine htarget bound' hQ ?_
      rw [← (hp.eq_iff hq).2 hpicked.2, Parameter.Renumbered.mem_iff hbound hp]
      exact hpicked.1
    · exact .parameter hp
  | moved bound' p e' h =>
    obtain ⟨hne, h⟩ := hmoved p e' bound' h
    rw [Expr.replaceUnder, if_neg fun hp => hne (picks_identity.1 hp.2)]
    exact .moved h
  | layer bound' e e' _ h =>
    rw [replaceUnder_eq_mapParts h.asParameter?_left, replaceUnder_eq_mapParts h.asParameter?_right]
    refine .of_layer (h.with_mem.imp ?_).mapParts
    rintro bs bs' x x' hbs ⟨⟨_, hx⟩, _, hmem⟩
    have hpart (p : Parameter) (hp : p ∈ bs' ∨ p ∈ x'.binders) :
        Q p := hbinders p (mem_binders.2 ⟨_, hmem, hp⟩)
    exact hx (rel_append hbs hbound)
      (forall_mem_append.2 ⟨fun p hp => hpart p (.inl hp), hQ⟩) fun p hp => hpart p (.inr hp)

/-- Where nothing is yet to be replaced, nothing has to be known of binders. -/
theorem Renumbered.replace (h : e.Renumbered w .none [] e') (hq : q.Renumbered w q')
    (htarget : target.Renumbered w .none [] target') :
    (e.replace (.identity q) target).Renumbered w .none [] (e'.replace (.identity q') target') :=
  h.replaceUnder (Q := fun _ => True) hq (fun _ _ _ => htarget.under _ _)
    (fun _ _ _ h => h.elim) .nil (fun _ _ => trivial) (fun _ _ => trivial)

theorem Renumbered.rebase {own : Parameter} {context context' : Expr}
    (h : e.Renumbered w (.to own context') bound' e') (hown : ∀ i, ¬ w.pairs own.id i)
    (hcontext : context.Renumbered w .none [] context')
    (hbound : Forall₂ (Parameter.Renumbered w) bound bound') :
    (Expr.replaceUnder (Replacement.identity own).picks context bound e).Renumbered w
      .none bound' e' := by
  induction bound', e, e', h using Renumbered.induct generalizing bound with
  | parameter bound' p p' hp =>
    rw [Expr.replaceUnder, if_neg fun hpicked => hown _ (picks_identity.1 hpicked.2 ▸ hp.id)]
    exact .parameter hp
  | moved bound' p e' h =>
    obtain ⟨rfl, rfl, -⟩ := h
    have hfree : p ∉ bound := fun hp => (Parameter.Renumbered.exists_of_mem hbound hp).elim hown
    rw [Expr.replaceUnder, if_pos ⟨hfree, picks_identity.2 rfl⟩]
    exact hcontext.under _ _
  | layer bound' e e' _ h =>
    rw [replaceUnder_eq_mapParts h.asParameter?_left]
    refine .of_layer (h.imp ?_).mapParts_left
    rintro _ _ _ _ hbs ⟨_, hx⟩
    exact hx (rel_append hbs hbound)

/-! ## Comparing -/

theorem Renumbered.same {f f' : Expr} (he : e.Renumbered w .none bound e')
    (hf : f.Renumbered w .none bound' f') : Expr.same e' f' = Expr.same e f := by
  have hall : ∀ {es es' fs fs' : List Expr} {bound bound' : List Parameter},
      Forall₂ (fun e e' => ∃ _ : e.Renumbered w .none bound e', ∀ {bound' f f'},
        f.Renumbered w .none bound' f' → Expr.same e' f' = Expr.same e f) es es' →
      RenumberedAll w .none bound' fs fs' → sameAll es' fs' = sameAll es fs := by
    intro es es' fs fs' bound bound' h hfs
    induction h generalizing fs fs' with
    | nil => cases hfs <;> rfl
    | cons h _ ih =>
      cases hfs with
      | nil => rfl
      | cons hf hfs => rw [sameAll, sameAll, h.2 hf, ih hfs]
  have hparameter : ∀ {p p' q q' : Parameter}, p.Renumbered w p' → q.Renumbered w q' →
      (p' == q') = (p == q) := by
    intro p p' q q' hp hq
    rw [Bool.eq_iff_iff, beq_iff_eq, beq_iff_eq]
    exact hp.eq_iff hq
  have hsite : ∀ {i i' j j' : Nat}, w.pairs i i' → w.pairs j j' → (i' == j') = (i == j) := by
    intro i i' j j' hi hj
    rw [Bool.eq_iff_iff, beq_iff_eq, beq_iff_eq]
    exact ⟨fun h => w.left_unique hi (h ▸ hj), fun h => w.right_unique hi (h ▸ hj)⟩
  induction bound, e, e', he using Renumbered.induct generalizing bound' f f' with
  | moved bound p e' h => exact h.elim
  | parameter bound p p' hp =>
    cases hf with
    | parameter hq => exact hparameter hp hq
    | moved h => exact h.elim
    | _ => rfl
  | layer bound e e' _ h =>
    -- Expressions of different kinds are not the same; those of one kind are compared part by part.
    cases hf with
    | moved h => exact h.elim
    | parameter hq => cases h <;> rfl
    | constant h' => cases h with
      | constant h => rw [Expr.same, Expr.same, hsite h h']
      | _ => rfl
    | member hf => cases h with
      | member h => rw [Expr.same, Expr.same, h.2 hf]
      | _ => rfl
    | call _ hf hfs => cases h with
      | call _ hr ha => rw [Expr.same, Expr.same, hr.2 hf, hall ha hfs]
      | _ => rfl
    | binary _ hf hg => cases h with
      | binary _ hl hr => rw [Expr.same, Expr.same, hl.2 hf, hr.2 hg]
      | _ => rfl
    | serviceCall _ _ hfs => cases h with
      | serviceCall _ _ ha => rw [Expr.same, Expr.same, hall ha hfs]
      | _ => rfl
    | lambda hq hf => cases h with
      | lambda hp hb => rw [Expr.same, Expr.same, hb.2 hf, hparameter hp hq]
      | _ => rfl
    | record _ hfs => cases h with
      | record _ hv => rw [Expr.same, Expr.same, hall hv hfs]
      | _ => rfl
    | projectEach hf hq hg => cases h with
      | projectEach hs hp hb => rw [Expr.same, Expr.same, hs.2 hf, hb.2 hg, hparameter hp hq]
      | _ => rfl
    | projectOne hf hq hg => cases h with
      | projectOne hs hp hb => rw [Expr.same, Expr.same, hs.2 hf, hb.2 hg, hparameter hp hq]
      | _ => rfl
    | materialize hf => cases h with
      | materialize h => rw [Expr.same, Expr.same, h.2 hf]
      | _ => rfl

theorem Renumbered.substituteIn (h : e.Renumbered w .none bound e')
    {replacement replacement' : Expr} (ht : target.Renumbered w .none [] target')
    (hr : replacement.Renumbered w .none [] replacement') :
    (Expr.substituteIn target replacement e).Renumbered w .none bound
      (Expr.substituteIn target' replacement' e') := by
  have hsame {e e' : Expr} {bound : List Parameter} (h : e.Renumbered w .none bound e') := h.same ht
  induction bound, e, e', h using Renumbered.induct with
  | moved bound p e' h => exact h.elim
  | parameter bound p p' hp =>
    have hown : (Expr.parameter p).Renumbered w .none bound (.parameter p') := .parameter hp
    rw [substituteIn_eq, substituteIn_eq, hsame hown]
    split
    · exact hr.under _ _
    · exact hown
  | layer bound e e' he h =>
    rw [substituteIn_eq, substituteIn_eq, hsame he]
    split
    · exact hr.under _ _
    · exact .of_layer (h.imp fun _ _ _ _ _ ⟨_, hx⟩ => hx).mapParts

/-! ## Free parameters -/

theorem find?_eraseDups (bad : Parameter → Bool) :
    ∀ l : List Parameter, l.eraseDups.find? bad = l.find? bad
  | [] => rfl
  | p :: rest => by
    have : (rest.filter fun q => !q == p).length < rest.length + 1 :=
      Nat.lt_succ_of_le (length_filter_le _ _)
    rw [eraseDups_cons, find?_cons, find?_cons, find?_eraseDups bad, find?_filter]
    cases hp : bad p with
    | true => rfl
    | false =>
      dsimp only
      congr 1
      funext q
      by_cases hqp : q = p
      · simp [hqp, hp]
      · simp [hqp]
termination_by l => l.length

/-- The same parameter is found, if nothing is found in what is yet to be replaced. -/
theorem Renumbered.find?_freeOccurrences {bad bad' : Parameter → Bool}
    (hbad : ∀ p p', p.Renumbered w p' → bad' p' = bad p)
    (hmoved : ∀ p e bound, M p e bound → bad p = false ∧ ∀ q ∈ e.freeParameters, bad' q = false)
    (hbound : Forall₂ (Parameter.Renumbered w) bound bound') (h : e.Renumbered w M bound' e') :
    Option.Rel (Parameter.Renumbered w) ((e.freeOccurrences bound).find? bad)
      ((e'.freeOccurrences bound').find? bad') := by
  have hor : ∀ {o₁ o₂ o₁' o₂' : Option Parameter}, Option.Rel (Parameter.Renumbered w) o₁ o₁' →
      Option.Rel (Parameter.Renumbered w) o₂ o₂' →
      Option.Rel (Parameter.Renumbered w) (o₁.or o₂) (o₁'.or o₂') := by
    intro o₁ o₂ o₁' o₂' h₁ h₂
    cases h₁ with
    | some h => exact .some h
    | none => exact h₂
  induction bound', e, e', h using Renumbered.induct generalizing bound with
  | parameter bound' p p' hp =>
    rw [freeOccurrences, freeOccurrences]
    by_cases hmem : p ∈ bound
    · rw [if_pos hmem, if_pos ((Parameter.Renumbered.mem_iff hbound hp).2 hmem)]
      exact .none
    · rw [if_neg hmem, if_neg (mt (Parameter.Renumbered.mem_iff hbound hp).1 hmem),
        List.find?_singleton, List.find?_singleton, hbad p p' hp]
      split
      · exact .some hp
      · exact .none
  | moved bound' p e' h =>
    obtain ⟨hp, hfree⟩ := hmoved p e' bound' h
    have hleft : ((Expr.parameter p).freeOccurrences bound).find? bad = none := by
      rw [freeOccurrences]
      split
      · rfl
      · rw [List.find?_singleton, hp]
        rfl
    have hright : (e'.freeOccurrences bound').find? bad' = none := by
      refine List.find?_eq_none.2 fun q hq => ?_
      rw [hfree q (mem_freeParameters.2 ((mem_freeOccurrences e' bound').1 hq).1)]
      exact Bool.false_ne_true
    rw [hleft, hright]
    exact .none
  | layer bound' e e' _ h =>
    rw [freeOccurrences_eq_flatMap h.asParameter?_left,
      freeOccurrences_eq_flatMap h.asParameter?_right]
    have hparts := h.forall₂_parts
    generalize e.parts = parts, e'.parts = parts' at hparts
    induction hparts with
    | nil => exact .none
    | cons hpart _ ih =>
      obtain ⟨hbs, _, hx⟩ := hpart
      rw [flatMap_cons, flatMap_cons, List.find?_append, List.find?_append]
      exact hor (hx (rel_append hbs hbound)) ih

/-! ## Chains of members -/

theorem Renumbered.exists_readsOf (h : e.Renumbered w .none bound e') (he' : e'.ReadsOf q') :
    ∃ q, q.Renumbered w q' ∧ e.ReadsOf q := by
  induction he' generalizing e with
  | parameter =>
    cases h with
    | parameter hp => exact ⟨_, hp, .parameter⟩
    | moved h => exact h.elim
  | member _ name ty ih =>
    cases h with
    | member h =>
      obtain ⟨q, hq, hreads⟩ := ih h
      exact ⟨q, hq, hreads.member name ty⟩
    | moved h => exact h.elim

/-- Nothing is yet to be replaced in a chain that starts at some other parameter. -/
theorem Renumbered.of_chainOn (hp : ∀ e bound, ¬ M p e bound)
    (hchain : ChainOn (.parameter p) name e) (h : e.Renumbered w M bound e') :
    e.Renumbered w .none [] e' := by
  induction hchain generalizing e' with
  | first ty =>
    cases h with
    | member h =>
      cases h with
      | parameter hp => exact .member (.parameter hp) name ty
      | moved h => exact absurd h (hp _ _)
  | next _ name' ty ih =>
    cases h with
    | member h => exact .member (ih h) name' ty

theorem ChainOn.renumbered (hp : p.id < base) (h : ChainOn (.parameter p) name e)
    (w : Numbering base) : e.Renumbered w .none [] e := by
  induction h with
  | first ty => exact .member (.parameter (.known hp)) name ty
  | next _ name' ty ih => exact .member ih name' ty

theorem ChainOn.renumbered_replace {chain : Expr} (h : ChainOn (.parameter p) name chain)
    (he : e.Renumbered w .none [] e') :
    (chain.replace (.identity p) e).Renumbered w .none [] (chain.replace (.identity p) e') := by
  induction h with
  | first ty =>
    show Renumbered w .none [] (.member (Expr.replace _ _ _) name ty)
      (.member (Expr.replace _ _ _) name ty)
    rw [replace_parameter, replace_parameter]
    exact .member he name ty
  | next _ name' ty ih => exact .member ih name' ty

theorem Renumbered.recordMember? (h : e.Renumbered w .none bound e') (name : String) :
    Option.Rel (fun m m' => m.Renumbered w .none bound m') (e.recordMember? name)
      (e'.recordMember? name) := by
  rw [Expr.recordMember?, Expr.recordMember?, h.ty]
  cases e.ty.shape? with
  | none => exact .none
  | some shape =>
    cases hfield : Shape.field? shape name with
    | none =>
      simp only [Option.bind_eq_bind, Option.bind_some, hfield, Option.bind_none]
      exact .none
    | some field =>
      simp only [Option.bind_eq_bind, Option.bind_some, hfield]
      exact .some (.member h _ _)

/-! ## Dependencies -/

/-- Dependencies of renumbered expressions. -/
abbrev Dependencies.Renumbered (w : Numbering base) (M : Moved) :
    Dependencies → Dependencies → Prop :=
  Assoc.Entries Eq fun d d' =>
    d.root.Renumbered w d'.root ∧ ∃ bound, d.chain.Renumbered w M bound d'.chain

/-- A chain reads nothing that is tracked unless the parameter it starts at is. -/
theorem ReadsOf.collect (h : e.ReadsOf q) (hq : tracked.tracks bound q = false) (path : FieldPath)
    (chain : Option (Expr × String)) (found : Dependencies) :
    Expr.collect tracked path bound chain e found = .ok found := by
  induction h generalizing chain with
  | parameter => simp only [Expr.collect, hq, Bool.false_eq_true, if_false]
  | member _ name ty ih => exact ih _

theorem Renumbered.collect {tracked' : Tracked}
    (htracks : ∀ {bound bound' p p'}, Forall₂ (Parameter.Renumbered w) bound bound' →
      p.Renumbered w p' → tracked'.tracks bound' p' = tracked.tracks bound p) (path : FieldPath)
    (hmoved : ∀ {bound bound' p e}, Forall₂ (Parameter.Renumbered w) bound bound' → M p e bound' →
      tracked.tracks bound p = false ∧
        ∀ chain found, Expr.collect tracked' path bound' chain e found = .ok found)
    (hbound : Forall₂ (Parameter.Renumbered w) bound bound')
    {chain chain' : Option (Expr × String)}
    (hchain : Option.Rel (fun c c' => (∃ bound, c.1.Renumbered w M bound c'.1)
      ∧ c.2 = c'.2) chain chain')
    {found found' : Dependencies} (hfound : found.Renumbered w M found')
    (h : e.Renumbered w M bound' e') :
    Except.Rel (Dependencies.Renumbered w M) (Expr.collect tracked path bound chain e found)
      (Expr.collect tracked' path bound' chain' e' found') := by
  induction bound', e, e', h using Renumbered.induct generalizing bound chain chain'
    found found' with
  | parameter bound' p p' hp =>
    simp only [Expr.collect, htracks hbound hp]
    split
    · cases hchain with
      | none =>
        rw [hp.name]
        exact .error _
      | @some c c' h =>
        obtain ⟨whole, name⟩ := c
        obtain ⟨whole', name'⟩ := c'
        obtain ⟨hwhole, rfl⟩ := h
        exact .ok (hfound.insert (fun h h' => h ▸ h' ▸ Iff.rfl) rfl ⟨hp, hwhole⟩)
    · exact .ok hfound
  | moved bound' p e' h =>
    obtain ⟨hp, hcollect⟩ := hmoved hbound h
    simp only [Expr.collect, hp, Bool.false_eq_true, if_false, hcollect]
    exact .ok hfound
  | layer bound' e e' he h =>
    have hbelow : Option.Rel (fun c c' => (∃ bound, c.1.Renumbered w M bound c'.1) ∧ c.2 = c'.2)
        (e.chainBelow chain) (e'.chainBelow chain') := by
      cases h with
      | member =>
        cases hchain with
        | some hc => exact .some ⟨hc.1, rfl⟩
        | none => exact .some ⟨⟨bound', he⟩, rfl⟩
      | _ => exact .none
    rw [collect_eq_foldlM h.asParameter?_left, collect_eq_foldlM h.asParameter?_right]
    have hparts := h.forall₂_parts
    generalize e.parts = parts, e'.parts = parts' at hparts
    induction hparts generalizing found found' with
    | nil => exact .ok hfound
    | cons hpart _ ih =>
      obtain ⟨hbs, _, hx⟩ := hpart
      rw [foldlM_cons, foldlM_cons]
      exact (hx (rel_append hbs hbound) hbelow hfound).bind fun _ _ hfound => ih hfound

/-! ## Evaluation -/

/-- Renumbered expressions have the same meaning where the same parameters have the same values. -/
theorem Renumbered.operand (services : Provider) {env env' : Environment}
    (henv : ∀ p p', p.Renumbered w p' → env' p' = env p) (h : e.Renumbered w .none bound e') :
    Expr.operand services env' e' = Expr.operand services env e := by
  induction bound, e, e', h using Renumbered.induct generalizing env env' with
  | parameter bound p p' hp =>
    funext handed
    rw [Expr.operand, Expr.operand, henv p p' hp, hp.name]
  | moved bound p e' h => exact h.elim
  | layer bound e e' _ h =>
    refine (h.imp fun bs bs' x x' hbs ⟨_, hx⟩ v => (hx fun p p' hp => ?_).symm).operand.symm
    simp only [Environment.bindAll, Parameter.Renumbered.mem_iff hbs hp, henv p p' hp]

end Expr
end QueryProjection
