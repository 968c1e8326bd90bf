import QueryProjection.Proofs.Expr.Kept

/-!
# Expressions in changing environments

How the value of an expression changes with the values of its free parameters, and what it takes to
trade a change of the expression for a change of the environment.

* `Expr.value?_replace`: putting a parameter, or a chain of its members, in place of another
  parameter is giving its value to that one, unless a binder is in the way;
* `Expr.value?_mono`: an environment that binds more gives every value that one that binds less
  gives.  This needs an expression that projects no elements, because a projection is a lazy
  sequence and carries its environment along;
* `Expr.operand_substitute`: a subexpression may be replaced by one of the same value.
-/

namespace QueryProjection

open List

open Environment Replacement

/-! ## Binders -/

namespace Expr

mutual

/-- The parameters that the expression binds somewhere. -/
def binders : Expr → List Parameter
  | .parameter _ => []
  | .constant _ _ _ => []
  | .member receiver _ _ => binders receiver
  | .call _ receiver arguments => binders receiver ++ bindersAll arguments
  | .binary _ left right => binders left ++ binders right
  | .serviceCall _ _ arguments _ => bindersAll arguments
  | .lambda p body => p :: binders body
  | .record _ values => bindersAll values
  | .projectEach source element body => binders source ++ element :: binders body
  | .projectOne source element body => binders source ++ element :: binders body
  | .materialize inner => binders inner

/-- The same for several expressions. -/
def bindersAll : List Expr → List Parameter
  | [] => []
  | e :: es => binders e ++ bindersAll es

end

theorem binders_eq_flatMap (e : Expr) :
    e.binders = e.parts.flatMap fun part => part.1 ++ part.2.binders := by
  have hall (es : List Expr) : bindersAll es = es.flatMap binders := by
    induction es with
    | nil => rfl
    | cons e es ih => rw [bindersAll, ih, flatMap_cons]
  cases e <;> simp [binders, parts, hall, flatMap_map]

variable {e target : Expr} {q p : Parameter}

theorem mem_binders : q ∈ e.binders ↔ ∃ part ∈ e.parts, q ∈ part.1 ∨ q ∈ part.2.binders := by
  simp only [binders_eq_flatMap e, mem_flatMap, mem_append]

theorem not_mem_of_not_mem_binders (h : q ∉ e.binders) {part : List Parameter × Expr}
    (hpart : part ∈ e.parts) : q ∉ part.1 ∧ q ∉ part.2.binders :=
  not_or.1 fun hq => h (mem_binders.2 ⟨part, hpart, hq⟩)

theorem binders_replaceUnder (picks : Parameter → Bool) (htarget : target.binders = []) (e : Expr)
    (bound : List Parameter) : (replaceUnder picks target bound e).binders = e.binders := by
  induction e using induct_parts generalizing bound with
  | parameter p =>
    rw [replaceUnder]
    split
    · exact htarget
    · rfl
  | node e he ih =>
    rw [replaceUnder_eq_mapParts he, binders_eq_flatMap, parts_mapParts, flatMap_map,
      binders_eq_flatMap e]
    exact flatMap_congr fun part hpart => congrArg _ (ih part hpart _)

theorem ReadsOf.built {P : Value → Prop} {L : Prop} (h : e.ReadsOf p) : e.Built P L := by
  induction h with
  | parameter => exact trivial
  | member _ _ _ ih => exact ih

theorem ReadsOf.binders_eq_nil (h : e.ReadsOf p) : e.binders = [] := by
  induction h with
  | parameter => rfl
  | member _ _ _ ih => exact ih

theorem binders_replace (e : Expr) (replacement : Replacement) (htarget : target.ReadsOf p) :
    (e.replace replacement target).binders = e.binders :=
  binders_replaceUnder _ htarget.binders_eq_nil _ _

end Expr

/-! ## Renaming -/

variable {env' : Environment}

namespace Environment

/-- The environment in which `p`, unless it is bound, has this value. -/
def bindUnless (env : Environment) (bound : List Parameter) (p : Parameter) (v : Value) :
    Environment :=
  fun q => if q = p ∧ q ∉ bound then some v else env q

theorem bindUnless_nil (env : Environment) (p : Parameter) (v : Value) :
    env.bindUnless [] p v = env.bind p v := by
  funext q
  simp [bindUnless, bind]

theorem bindUnless_bindAll (env : Environment) (bound bs : List Parameter) (p : Parameter)
    (v w : Value) :
    (env.bindAll bs w).bindUnless (bs ++ bound) p v = (env.bindUnless bound p v).bindAll bs w := by
  funext r
  by_cases hr : r ∈ bs
  · simp [bindUnless, bindAll, hr]
  · simp [bindUnless, bindAll, hr]

variable {p q : Parameter} {env : Environment}

theorem bind_of_ne (env : Environment) (h : q ≠ p) (v : Value) : env.bind p v q = env q :=
  if_neg h

@[simp] theorem bind_self (env : Environment) (p : Parameter) (v : Value) :
    env.bind p v p = some v :=
  if_pos rfl

theorem bind_congr {v : Value} (h : env q = env' q) : env.bind p v q = env'.bind p v q := by
  rw [bind, bind, h]

theorem bind_le (w : Value) (h : p ≠ q → ∀ v, env p = some v → env' p = some v) :
    ∀ v, env.bind q w p = some v → env'.bind q w p = some v := by
  intro v hv
  by_cases hp : p = q
  · subst hp
    rw [bind_self] at hv ⊢
    exact hv
  · rw [bind_of_ne _ hp] at hv ⊢
    exact h hp v hv

end Environment

namespace Expr

variable {services : Provider} {e target : Expr} {env : Environment} {v : Value}
  {old p new : Parameter}

theorem operand_mapParts (he : e.asParameter? = none) {f : List Parameter → Expr → Expr}
    (h : ∀ part ∈ e.parts, ∀ v,
      (f part.1 part.2).operand services (env.bindAll part.1 v)
        = part.2.operand services (env'.bindAll part.1 v)) :
    (e.mapParts f).operand services env = e.operand services env' :=
  (layer_self (N := Eq) (B := Eq) he (fun _ _ _ _ => rfl) fun part hpart =>
    ⟨fun _ _ => rfl, h part hpart⟩).mapParts_left.operand

theorem readMember_eq_pure {name : String} {w : Value} (h : (readMember name v).value? = some w) :
    readMember name v = pure w := by
  cases v with
  | null => exact congrArg pure (Option.some.inj h)
  | object members => exact congrArg pure (Option.some.inj h)
  | _ => cases h

namespace ReadsOf

variable {p : Parameter} {e : Expr} (h : e.ReadsOf p) {env env' : Environment}

include h

theorem operand_eq_pure (hv : e.value? services env = some v) (handed : Option Value) :
    e.operand services env handed = pure v := by
  induction h generalizing v handed with
  | parameter =>
    rw [value?_parameter] at hv
    rw [operand, hv]
  | member _ name ty ih =>
    rw [value?_member] at hv
    obtain ⟨u, hu, hv⟩ := Option.bind_eq_some_iff.1 hv
    rw [operand, ih hu none]
    exact readMember_eq_pure hv

theorem value?_congr (henv : env p = env' p) : e.value? services env = e.value? services env' := by
  induction h with
  | parameter => rw [value?_parameter, value?_parameter, henv]
  | member _ name ty ih => rw [value?_member, value?_member, ih]

/-- A chain of members reaches the same, from whatever has the value of the parameter that it starts
at. -/
theorem value?_replace (htarget : target.value? services env' = env p) :
    (e.replace (.identity p) target).value? services env' = e.value? services env := by
  induction h with
  | parameter => rw [replace_parameter, htarget, value?_parameter]
  | member _ name ty ih =>
    show (Expr.member (Expr.replace _ _ _) name ty).value? services env' = _
    rw [value?_member, value?_member, ih]

end ReadsOf

theorem operand_replaceUnder (htarget : target.ReadsOf p) (e : Expr) (hp : p ∉ e.binders)
    (henv : target.value? services env = some v) (bound : List Parameter) :
    (replaceUnder (identity old).picks target bound e).operand services env
      = e.operand services (env.bindUnless bound old v) := by
  induction e using induct_parts generalizing env bound with
  | parameter q =>
    have hpicks : (q ∉ bound ∧ (identity old).picks q = true)
        ↔ q = old ∧ q ∉ bound := by
      simp only [picks, beq_iff_eq]
      exact ⟨fun h => ⟨h.2.symm, h.1⟩, fun h => ⟨h.2, h.1.symm⟩⟩
    rw [replaceUnder]
    by_cases hq : q = old ∧ q ∉ bound
    · rw [if_pos (hpicks.2 hq), operand, bindUnless, if_pos hq]
      exact funext fun handed => htarget.operand_eq_pure henv handed
    · rw [if_neg (mt hpicks.1 hq), operand, operand, bindUnless, if_neg hq]
  | node e he ih =>
    rw [replaceUnder_eq_mapParts he]
    refine operand_mapParts he fun part hpart w => ?_
    obtain ⟨hbound, hpart'⟩ := not_mem_of_not_mem_binders hp hpart
    rw [← bindUnless_bindAll]
    refine ih part hpart hpart' ?_ _
    rw [htarget.value?_congr (bindAll_of_not_mem env hbound w), henv]

/-- Putting a parameter, or a chain of its members, in place of another parameter is giving its
value to that one. -/
theorem value?_replace (htarget : target.ReadsOf p) (hp : p ∉ e.binders)
    (henv : target.value? services env = some v) :
    (e.replace (.identity old) target).value? services env
      = e.value? services (env.bind old v) := by
  rw [value?, value?, valueOf, valueOf, replace, operand_replaceUnder htarget e hp henv,
    bindUnless_nil]

/-! ## Parameters that are not there -/

theorem replaceUnder_of_not_picked {picks : Parameter → Bool} (e : Expr) (bound : List Parameter)
    (h : ∀ q ∈ e.freeOccurrences bound, picks q = false) :
    replaceUnder picks target bound e = e := by
  induction e using induct_parts generalizing bound with
  | parameter p =>
    rw [replaceUnder]
    refine if_neg ?_
    rintro ⟨hp, hpicks⟩
    have hfree := h p (by rw [freeOccurrences, if_neg hp]; exact mem_singleton.2 rfl)
    rw [hpicks] at hfree
    cases hfree
  | node e he ih =>
    rw [replaceUnder_eq_mapParts he]
    refine mapParts_eq_self fun part hpart => ih part hpart _ fun q hq => h q ?_
    rw [freeOccurrences_eq_flatMap he]
    exact mem_flatMap.2 ⟨part, hpart, hq⟩

theorem replaceUnder_of_not_mem (e : Expr) (bound : List Parameter)
    (h : old ∉ e.freeOccurrences bound) :
    replaceUnder (identity old).picks target bound e = e := by
  refine replaceUnder_of_not_picked e bound fun q hq => ?_
  rw [picks, beq_eq_false_iff_ne]
  exact fun heq => h (heq ▸ hq)

theorem replace_of_not_mem (h : old ∉ e.freeParameters) (target : Expr) :
    e.replace (.identity old) target = e :=
  replaceUnder_of_not_mem e [] (mt mem_freeParameters.2 h)

/-! ## Replacing what was put in place -/

theorem picks_identity : (identity old).picks p = true ↔ p = old := by
  rw [picks, beq_iff_eq]
  exact eq_comm

theorem replaceUnder_replaceUnder (e : Expr) {bound : List Parameter} (hbinders : new ∉ e.binders)
    (hbound : new ∉ bound) (hfree : new ∉ e.freeOccurrences bound) :
    replaceUnder (identity new).picks target bound
        (replaceUnder (identity old).picks (.parameter new) bound e)
      = replaceUnder (identity old).picks target bound e := by
  induction e using induct_parts generalizing bound with
  | parameter p =>
    by_cases hp : p ∉ bound ∧ (identity old).picks p = true
    · rw [replaceUnder, if_pos hp, replaceUnder,
        if_pos ⟨hbound, picks_identity.2 rfl⟩, replaceUnder, if_pos hp]
    · have hnew : ¬ (p ∉ bound ∧ (identity new).picks p = true) := by
        rintro ⟨hp, hpicks⟩
        obtain rfl := picks_identity.1 hpicks
        rw [freeOccurrences, if_neg hp] at hfree
        exact hfree (mem_singleton_self p)
      rw [replaceUnder, if_neg hp, replaceUnder, if_neg hnew, replaceUnder, if_neg hp]
  | node e he ih =>
    rw [freeOccurrences_eq_flatMap he, mem_flatMap, not_exists] at hfree
    rw [replaceUnder_eq_mapParts he, replaceUnder_eq_mapParts (asParameter?_mapParts.trans he),
      mapParts_mapParts, replaceUnder_eq_mapParts he]
    refine mapParts_congr fun part hpart => ?_
    obtain ⟨hown, hpart'⟩ := not_mem_of_not_mem_binders hbinders hpart
    exact ih part hpart hpart' (fun h => (mem_append.1 h).elim hown hbound) fun h =>
      hfree part ⟨hpart, h⟩

theorem replace_replace (hbinders : new ∉ e.binders) (hfree : new ∉ e.freeParameters)
    (target : Expr) :
    (e.replace (.identity old) (.parameter new)).replace (.identity new) target
      = e.replace (.identity old) target :=
  replaceUnder_replaceUnder e hbinders not_mem_nil (mt mem_freeParameters.2 hfree)

theorem replaceUnder_comm {a b c d : Parameter} (hab : a ≠ b) (hca : c ≠ b) (hdb : d ≠ a) (e : Expr)
    (bound : List Parameter) :
    replaceUnder (identity b).picks (.parameter d) bound
        (replaceUnder (identity a).picks (.parameter c) bound e)
      = replaceUnder (identity a).picks (.parameter c) bound
          (replaceUnder (identity b).picks (.parameter d) bound e) := by
  induction e using induct_parts generalizing bound with
  | parameter p =>
    by_cases hp : p ∈ bound
    · simp [replaceUnder, hp]
    · by_cases hpa : p = a
      · subst hpa
        simp [replaceUnder, hp, picks_identity, hab, hca]
      · by_cases hpb : p = b
        · subst hpb
          simp [replaceUnder, hp, picks_identity, hpa, hdb]
        · simp [replaceUnder, hp, picks_identity, hpa, hpb]
  | node e he ih =>
    simp only [replaceUnder_eq_mapParts, he, asParameter?_mapParts, mapParts_mapParts]
    exact mapParts_congr fun part hpart => ih part hpart _

end Expr

/-! ## Environments that bind more -/

/-- The second run gives something that is related to what the first one gives, if that gives
anything. -/
def Run.Relator.upward : Run.Relator where
  Rel R x y := ∀ a, x.value? = some a → ∃ b, y.value? = some b ∧ R a b
  pure h _ ha := ⟨_, rfl, Option.some.inj ha ▸ h⟩
  bind := by
    intro _ _ _ _ x y f g hxy hfg c hc
    rw [value?_bind] at hc ⊢
    obtain ⟨a, ha, hc⟩ := Option.bind_eq_some_iff.1 hc
    obtain ⟨b, hb, hab⟩ := hxy a ha
    rw [hb]
    exact hfg a b hab c hc
  fail _ _ ha := nomatch ha

namespace Run.Relator

theorem upward_self {α : Type} {R : α → α → Prop} (hR : ∀ a, R a a) (x : Run EvaluationError α) :
    upward.Rel R x x :=
  fun a ha => ⟨a, ha, hR a⟩

theorem respects_upward : upward.Respects Eq where
  agrees h := h ▸ .refl _
  null := rfl
  boolean _ := rfl
  int _ := rfl
  string _ := rfl
  list h := congrArg _ (forall₂_eq_eq_eq ▸ h)
  object := by
    have hentries : (fun x y : String × Value => x.1 = y.1 ∧ x.2 = y.2) = Eq := by
      funext x y
      rw [Prod.ext_iff]
    intro members members'
    rw [Assoc.Entries, hentries, forall₂_eq_eq_eq, Value.object.injEq]
  elements := by
    rintro v _ rfl
    exact upward_self (fun _ => forall₂_refl _) _

end Run.Relator

namespace Expr

variable {services : Provider} {P : Value → Prop} {e : Expr} {env env' : Environment}

/-- An environment that binds the free parameters of an expression in the same way, and perhaps some
that were unbound, gives what the other one gives. -/
theorem value?_mono (hbuilt : e.Built P False)
    (henv : ∀ p ∈ e.freeParameters, ∀ v, env p = some v → env' p = some v) {v : Value}
    (h : e.value? services env = some v) : e.value? services env' = some v := by
  have hrelated :
      Operand.Related .upward Eq (e.operand services env) (e.operand services env') := by
    refine related_operand Run.Relator.respects_upward ?_
      (hbuilt.imp (fun _ _ => rfl) False.elim) ?_
    · intro service method arguments arguments' h
      rw [forall₂_eq_eq_eq] at h
      rw [h]
      exact Run.Relator.upward_self (fun _ => rfl) _
    · intro p hp _ _ _ w hw
      have hp := henv p hp
      simp only [operand] at hw ⊢
      cases hv : env p with
      | none =>
        rw [hv] at hw
        cases hw
      | some u =>
        rw [hv] at hw
        rw [hp u hv]
        exact ⟨w, hw, rfl⟩
  obtain ⟨_, hv, rfl⟩ := hrelated.own v h
  exact hv

theorem operand_congr (henv : ∀ p ∈ e.freeParameters, env p = env' p) :
    e.operand services env = e.operand services env' := by
  induction e using induct_parts generalizing env env' with
  | parameter p =>
    have hp := henv p (mem_freeParameters_parameter.2 rfl)
    funext handed
    rw [operand, operand, hp]
  | node e he ih =>
    refine (layer_self (N := Eq) (B := Eq) he (fun _ _ _ _ => rfl) fun part hpart =>
      ⟨fun _ _ => rfl, fun v => ih part hpart fun p hp => ?_⟩).operand
    by_cases hbound : p ∈ part.1
    · rw [bindAll_of_mem env hbound, bindAll_of_mem env' hbound]
    · rw [bindAll_of_not_mem env hbound, bindAll_of_not_mem env' hbound]
      exact henv p ((mem_freeParameters_parts he).2 ⟨part, hpart, hp, hbound⟩)

theorem operand_bind {p : Parameter} {v : Value} (hp : p ∉ e.freeParameters) :
    e.operand services (env.bind p v) = e.operand services env :=
  operand_congr fun _ hq => bind_of_ne env (ne_of_mem_of_not_mem hq hp) v

theorem value?_congr (henv : ∀ p ∈ e.freeParameters, env p = env' p) :
    e.value? services env = e.value? services env' := by
  rw [value?, value?, valueOf, valueOf, operand_congr henv]

/-! ## Subexpressions of the same value -/

section Substitute

variable {target replacement : Expr} (hsame : ∀ x, same x target = true → x = target)

include hsame

/-- Where the target and its replacement mean the same, and go on doing so below the binders of an
expression, the one may be put in place of the other. -/
theorem operand_substitute {I : Environment → Prop}
    (hI : ∀ env, I env → replacement.operand services env = target.operand services env)
    (hbind : ∀ q ∈ e.binders, ∀ env w, I env → I (env.bind q w)) (h : I env) :
    (e.substitute target replacement).operand services env = e.operand services env := by
  have hat : ∀ {x : Expr} {env : Environment}, I env → same x target = true →
      replacement.operand services env = x.operand services env := by
    intro x env h hx
    rw [hsame x hx, hI env h]
  have hbindAll {qs : List Parameter} {env : Environment} (w : Value) (h : I env)
      (hqs : ∀ q ∈ qs, ∀ env w, I env → I (env.bind q w)) : I (env.bindAll qs w) := by
    induction qs with
    | nil => rwa [bindAll_nil]
    | cons q qs ih =>
      obtain ⟨hq, hqs⟩ := forall_mem_cons.1 hqs
      rw [bindAll_cons]
      exact hq _ w (ih hqs)
  unfold substitute
  induction e using induct_parts generalizing env with
  | parameter p =>
    rw [substituteIn]
    split
    · exact hat h ‹_›
    · rfl
  | node e he ih =>
    rw [substituteIn_eq]
    split
    · exact hat h ‹_›
    · refine operand_mapParts he fun part hpart v => ih part hpart ?_ (hbindAll v h ?_)
      · exact fun q hq => hbind q (mem_binders.2 ⟨part, hpart, .inr hq⟩)
      · exact fun q hq => hbind q (mem_binders.2 ⟨part, hpart, .inl hq⟩)

theorem ty_substitute (hty : replacement.ty = target.ty) (e : Expr) :
    (e.substitute target replacement).ty = e.ty := by
  have hat : ∀ {x : Expr}, same x target = true → replacement.ty = x.ty := by
    intro x hx
    rw [hsame x hx, hty]
  unfold substitute
  induction e using induct_all with
  | h e ih =>
    rw [substituteIn_eq]
    split
    · exact hat ‹_›
    · exact ty_mapParts ih

end Substitute

end Expr
end QueryProjection
