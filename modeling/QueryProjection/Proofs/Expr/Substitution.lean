import QueryProjection.Proofs.Expr.Rename

/-!
# Substitution and the environment

Putting an expression in place of a parameter is giving the parameter the value of that expression.
The two evaluations are not the same step by step: a lazy sequence carries its environment along,
and one that came out of the substituted expression leaves its notes elsewhere.  They agree in the
sense of `Value.Agrees`, and so they are forced to the same.

* `Expr.SameBut` relates two expressions of the same form that differ in some places, and
  `Expr.SameBut.agrees` is the induction over them: if the expressions agree in these places, below
  any binders that are passed on the way, then they agree as a whole;
* `Expr.agrees_of_freeParameters`: only the values of the free parameters matter;
* `Expr.evaluated` is the result of evaluating and forcing, and `Expr.evaluated_replace` the
  substitution lemma;
* `Expr.replace_trades_parameter`: what a replacement makes of the free parameters and the type.
-/

namespace QueryProjection

open Value (Agrees)

/-- Evaluations are compared by their results. -/
def Run.Relator.loose : Run.Relator where
  Rel := Run.Rel
  pure := Run.rel_pure
  bind h hfg := h.bind hfg
  fail _ := Run.rel_fail _

theorem Run.Relator.respects_loose : Run.Relator.loose.Respects Agrees where
  agrees := id
  null := .refl _
  boolean _ := .refl _
  int _ := .refl _
  string _ := .refl _
  list := Value.agrees_list.2
  object := Value.agrees_object
  elements := Value.Agrees.elements

variable {p : Parameter}

namespace Expr

/-! ## Expressions that differ in some places -/

section SameBut

variable (places : List Parameter → Expr → Expr → Prop) (binds : Parameter → Prop)

/-- Expressions of the same form, apart from the places where `places` relates them below the
binders that are passed on the way to them, each of which satisfies `binds`. -/
inductive SameBut : List Parameter → Expr → Expr → Prop
  | place {bound : List Parameter} {e e' : Expr} (h : places bound e e') : SameBut bound e e'
  | layer {bound : List Parameter} {e e' : Expr}
      {R : List Parameter → List Parameter → Expr → Expr → Prop}
      (h : Layer Eq (fun p p' => p = p' ∧ binds p) R e e')
      (hR : ∀ bs bs' x x', R bs bs' x x' → SameBut (bs ++ bound) x x') : SameBut bound e e'

end SameBut

variable {places : List Parameter → Expr → Expr → Prop} {binds : Parameter → Prop}
  {bound : List Parameter} {e e' : Expr} {services : Provider}

variable {env env' : Environment}

/-- **Expressions that agree in the places where they differ agree.**  `paired` is what is known of
the two environments below the binders passed so far. -/
theorem SameBut.agrees (hservices : services.Insensitive)
    (paired : List Parameter → Environment → Environment → Prop)
    (hbind : ∀ {bound env env' q v v'}, binds q → paired bound env env' → v.Agrees v' →
      paired (q :: bound) (env.bind q v) (env'.bind q v'))
    (hplace : ∀ {bound e e' env env'}, places bound e e' → paired bound env env' →
      Operand.Agrees (e.operand services env) (e'.operand services env'))
    (h : SameBut places binds bound e e') (henv : paired bound env env') :
    Operand.Agrees (e.operand services env) (e'.operand services env') := by
  induction h generalizing env env' with
  | place h => exact hplace h henv
  | @layer _ e _ _ h _ ih =>
    have hhere : e.BuiltHere (fun v => v.Agrees v) (Run.Relator.loose.RespectsLazy Agrees) := by
      cases e with
      | constant => exact .refl _
      | projectEach => exact fun _ _ h => Value.agrees_ofRun h
      | _ => trivial
    refine (h.imp ?_).related Run.Relator.respects_loose hservices hhere
    intro bs bs' x x' hbs hx v v' hv
    refine ih bs bs' x x' hx ?_
    clear hx
    induction hbs with
    | nil => simpa using henv
    | cons hp _ ihbs =>
      obtain ⟨rfl, hp⟩ := hp
      simpa using hbind hp ihbs hv

theorem sameBut_mapParts {f : List Parameter → Expr → Expr} (he : e.asParameter? = none)
    (h : ∀ part ∈ e.parts, (∀ q ∈ part.1, binds q)
      ∧ SameBut places binds (part.1 ++ bound) (f part.1 part.2) part.2) :
    SameBut places binds bound (e.mapParts f) e := by
  have hself := layer_self (N := Eq) (B := fun p p' => p = p' ∧ binds p)
    (R := fun bs _ x x' => SameBut places binds (bs ++ bound) (f bs x) x') he (fun _ _ _ _ => rfl)
    fun part hpart => ⟨fun q hq => ⟨rfl, (h part hpart).1 q hq⟩, (h part hpart).2⟩
  exact .layer hself.mapParts_left fun _ _ _ _ => id

theorem sameBut_of_parts (he : e.asParameter? = none)
    (h : ∀ part ∈ e.parts, (∀ q ∈ part.1, binds q)
      ∧ SameBut places binds (part.1 ++ bound) part.2 part.2) :
    SameBut places binds bound e e := by
  have hself := sameBut_mapParts (f := fun _ part => part) he h
  rwa [mapParts_eq_self fun _ _ => rfl] at hself

theorem agrees_parameter (h : Option.Rel Agrees (env p) (env' p)) :
    Operand.Agrees (operand services env (.parameter p))
      (operand services env' (.parameter p)) := by
  intro _ _ _
  simp only [operand]
  revert h
  generalize env p = v, env' p = v'
  rintro (h | _)
  · exact Run.rel_pure h
  · exact Run.rel_fail _

end Expr

namespace Environment

theorem rel_bind {env env' : Environment} {q : Parameter} {v v' : Value} (hv : v.Agrees v')
    (h : q ≠ p → Option.Rel Agrees (env q) (env' q)) :
    Option.Rel Agrees (env.bind p v q) (env'.bind p v' q) := by
  by_cases hq : q = p
  · rw [hq, bind_self, bind_self]
    exact .some hv
  · rw [bind_of_ne env hq, bind_of_ne env' hq]
    exact h hq

end Environment

namespace Expr

variable {services : Provider} {e t : Expr} {env env' : Environment} {p : Parameter}

/-! ## Free parameters -/

variable {bound : List Parameter} {v v' : Value} {picks : Parameter → Bool}
  {binds : Parameter → Prop}

theorem sameBut_self {places : List Parameter → Expr → Expr → Prop}
    (hplace : ∀ bound q, places bound (.parameter q) (.parameter q)) (e : Expr)
    (hbinds : ∀ q ∈ e.binders, binds q) : SameBut places binds bound e e := by
  induction e using induct_parts generalizing bound with
  | parameter p => exact .place (hplace bound p)
  | node e he ih =>
    exact sameBut_of_parts he fun part hpart =>
      ⟨fun q hq => hbinds q (mem_binders.2 ⟨part, hpart, .inl hq⟩), ih part hpart fun q hq =>
        hbinds q (mem_binders.2 ⟨part, hpart, .inr hq⟩)⟩

/-- **Only the values of the free parameters matter**, up to what is observed. -/
theorem agrees_of_freeParameters (hservices : services.Insensitive)
    (henv : ∀ q ∈ e.freeParameters, Option.Rel Agrees (env q) (env' q)) :
    Operand.Agrees (e.operand services env) (e.operand services env') :=
  related_operand Run.Relator.respects_loose hservices
    (built_of_forall Agrees.refl (fun _ _ h => Value.agrees_ofRun h) e) fun p hp =>
      agrees_parameter (henv p hp)

/-! ## Replaced parameters -/

/-- The places where parameters are replaced, and the other parameters. -/
def ReplacedAt (picks : Parameter → Bool) (t : Expr) (bound : List Parameter) (x y : Expr) : Prop :=
  ∃ q, y = .parameter q ∧ x = if q ∉ bound ∧ picks q = true then t else .parameter q

theorem sameBut_replaceUnder (picks : Parameter → Bool) (t e : Expr) (bound : List Parameter)
    (hbinds : ∀ q ∈ e.binders, binds q) :
    SameBut (ReplacedAt picks t) binds bound (replaceUnder picks t bound e) e := by
  induction e using induct_parts generalizing bound with
  | parameter p => exact .place ⟨p, rfl, rfl⟩
  | node e he ih =>
    rw [replaceUnder_eq_mapParts he]
    exact sameBut_mapParts he fun part hpart =>
      ⟨fun q hq => hbinds q (mem_binders.2 ⟨part, hpart, .inl hq⟩), ih part hpart _ fun q hq =>
        hbinds q (mem_binders.2 ⟨part, hpart, .inr hq⟩)⟩

/-- An expression with a value is no lambda, and so it does not look at what it is handed. -/
theorem operand_eq_valueOf (h : (t.valueOf services env).result = .ok v) (handed : Option Value) :
    t.operand services env handed = t.valueOf services env := by
  cases t with
  | lambda => cases h
  | _ => rfl

theorem agrees_of_ok {t' : Expr} (h : (t.valueOf services env).result = .ok v)
    (h' : (t'.valueOf services env').result = .ok v') (hv : v.Agrees v') :
    Operand.Agrees (t.operand services env) (t'.operand services env') := by
  intro handed handed' _
  rw [operand_eq_valueOf h, operand_eq_valueOf h', Run.Rel, h, h']
  exact .ok hv

/-- What the two environments have to do with each other, below the binders passed so far: the
second gives the picked parameters the value that `t` has in the first. -/
structure Supplies (services : Provider) (picks : Parameter → Bool) (t : Expr)
    (bound : List Parameter) (env env' : Environment) : Prop where
  others : ∀ q, q ∈ bound ∨ picks q = false → Option.Rel Agrees (env q) (env' q)
  picked : ∀ q, q ∉ bound → picks q = true →
    ∃ w v, (t.valueOf services env).result = .ok w ∧ env' q = some v ∧ w.Agrees v

theorem Supplies.bind (h : Supplies services picks t bound env env') (hp : p ∉ t.freeParameters)
    (hv : v.Agrees v') :
    Supplies services picks t (p :: bound) (env.bind p v) (env'.bind p v') where
  others q hq := Environment.rel_bind hv fun hne =>
    h.others q (hq.imp_left fun hmem => (List.mem_cons.1 hmem).resolve_left hne)
  picked q hq hpicks := by
    obtain ⟨hne, hq⟩ := not_or.1 (mt List.mem_cons.2 hq)
    rw [valueOf, operand_bind hp, Environment.bind_of_ne env' hne]
    exact h.picked q hq hpicks

theorem agrees_replaceUnder (hservices : services.Insensitive)
    (hbinders : ∀ q ∈ t.freeParameters, q ∉ e.binders)
    (h : Supplies services picks t bound env env') :
    Operand.Agrees ((replaceUnder picks t bound e).operand services env)
      (e.operand services env') := by
  have hreplaced := @sameBut_replaceUnder (· ∉ t.freeParameters) picks t e bound
    fun q hq hfree => hbinders q hfree hq
  refine hreplaced.agrees hservices (Supplies services picks t) (fun hq hs hv => hs.bind hq hv) ?_ h
  rintro bound _ _ env env' ⟨q, rfl, rfl⟩ hs
  by_cases hq : q ∉ bound ∧ picks q = true
  · obtain ⟨w, v, hw, hv, hwv⟩ := hs.picked q hq.1 hq.2
    have hparameter : ((Expr.parameter q).valueOf services env').result = .ok v := by
      simp only [valueOf, operand, hv, Run.result_pure]
    rw [if_pos hq]
    exact agrees_of_ok hw hparameter hwv
  · rw [if_neg hq]
    refine agrees_parameter (hs.others q ?_)
    by_contra hcon
    rw [not_or, Bool.not_eq_false] at hcon
    exact hq hcon

/-! ## The substitution lemma -/

/-- The result of evaluating an expression and forcing its value. -/
def evaluated (services : Provider) (env : Environment) (e : Expr) : Except EvaluationError Value :=
  (do (← e.valueOf services env).materialize : Run EvaluationError Value).result

theorem evaluated_eq_of_agrees {e' : Expr}
    (h : Operand.Agrees (e.operand services env) (e'.operand services env')) :
    e.evaluated services env = e'.evaluated services env' := by
  have hvalue : Run.Rel Agrees (e.valueOf services env) (e'.valueOf services env') :=
    h none none .none
  unfold Run.Rel at hvalue
  simp only [evaluated, Run.result_bind]
  generalize (e.valueOf services env).result = r, (e'.valueOf services env').result = r' at hvalue
  cases hvalue with
  | ok hv => exact hv.materialize
  | error _ => rfl

theorem evaluated_congr (henv : ∀ q ∈ e.freeParameters, env q = env' q) :
    e.evaluated services env = e.evaluated services env' := by
  rw [evaluated, evaluated, valueOf, valueOf, operand_congr henv]

/-- **Replacing a parameter is binding it.**  Where `t` has a value, evaluating with `t` in place of
the parameter and evaluating with the parameter bound to that value give the same value or the same
error, provided that no binder of the expression captures a parameter of `t`. -/
theorem evaluated_replace (hservices : services.Insensitive)
    (hbinders : ∀ q ∈ t.freeParameters, q ∉ e.binders) {v : Value}
    (hv : (t.valueOf services env).result = .ok v) :
    (e.replace (.identity p) t).evaluated services env = e.evaluated services (env.bind p v) := by
  refine evaluated_eq_of_agrees (agrees_replaceUnder hservices hbinders
    ⟨fun q hq => ?_, fun q _ hq => ?_⟩)
  · have hne : q ≠ p := by
      rintro rfl
      have hpicks := picks_identity.2 (rfl : q = q)
      rw [hpicks] at hq
      exact hq.elim List.not_mem_nil Bool.noConfusion
    rw [Environment.bind_of_ne env hne]
    exact Option.rel_refl Agrees.refl _
  · obtain rfl := picks_identity.1 hq
    exact ⟨v, v, hv, Environment.bind_self env q v, .refl v⟩

end Expr

/-! A person with an age and some scores.  The expression hands a service the scores below a limit,
and the lazy sequence of all scores with the limit beside them; the limit is the age. -/

namespace Scores

def person : Parameter := ⟨0, "person", .object "Person"⟩
def limit : Parameter := ⟨1, "limit", .int⟩
def score : Parameter := ⟨2, "score", .int⟩

/-- A service that returns its arguments. -/
def services : Provider :=
  (Services.register {} "echo" "all" fun arguments => pure (.list arguments)).provider

theorem insensitive : services.Insensitive := by
  refine Services.insensitive_of_methods fun m hm arguments arguments' h => ?_
  obtain rfl := List.mem_singleton.1 hm
  exact Run.rel_pure (Value.agrees_list.2 h)

def env : Environment :=
  Environment.empty.bind person
    (.object [("age", .int 2), ("scores", .list [.int 3, .int 1])])

def scores : Expr :=
  .member (.parameter person) "scores" (.list .int)

def reported : Expr :=
  .serviceCall "echo" "all"
    [.call .filter scores [.lambda score (.binary .lt (.parameter score) (.parameter limit))],
      .projectEach scores score
        (.record [("score", .int), ("limit", .int)] [.parameter score, .parameter limit])]
    (.list .null)

def age : Expr :=
  .member (.parameter person) "age" .int

end Scores

/-- The limit is replaced in the lazy sequence as well, below the binder of the scores. -/
theorem Scores.evaluated_reported :
    services.Insensitive ∧ (∀ q ∈ age.freeParameters, q ∉ reported.binders)
      ∧ (age.valueOf services env).result = .ok (.int 2)
      ∧ (reported.replace (.identity limit) age).evaluated services env
        = reported.evaluated services (env.bind limit (.int 2))
      ∧ reported.evaluated services (env.bind limit (.int 2))
        = .ok (.list [.list [.int 1],
            .list [.object [("score", .int 3), ("limit", .int 2)],
              .object [("score", .int 1), ("limit", .int 2)]]]) :=
  ⟨insensitive, by decide, rfl, Expr.evaluated_replace insensitive (by decide) rfl, rfl⟩

/-! ## What can be told without evaluating -/

namespace Expr

variable {e t : Expr} {q : Parameter} {bound : List Parameter} {picks : Parameter → Bool}

/-- Where a picked parameter is free, what is free in the target is free after a replacement, unless
a binder of the expression captures it. -/
theorem mem_freeParameters_replaceUnder_of_picks (hp : picks p = true)
    (hq : q ∈ t.freeParameters) (e : Expr)
    (hbinders : q ∉ e.binders) (h : p ∈ e.freeOccurrences bound) :
    q ∈ (replaceUnder picks t bound e).freeParameters := by
  induction e using induct_parts generalizing bound with
  | parameter r =>
    rw [freeOccurrences] at h
    split at h
    · cases h
    · obtain rfl := List.mem_singleton.1 h
      rwa [replaceUnder, if_pos ⟨‹_›, hp⟩]
  | node e he ih =>
    rw [freeOccurrences_eq_flatMap he] at h
    obtain ⟨part, hpart, h⟩ := List.mem_flatMap.1 h
    -- `q` is bound neither around the part that mentions `p` nor inside it.
    obtain ⟨hown, hpart'⟩ := not_mem_of_not_mem_binders hbinders hpart
    rw [replaceUnder_eq_mapParts he, mem_freeParameters_mapParts he]
    exact ⟨part, hpart, ih part hpart hpart' h, hown⟩

/-- **Replacing a parameter trades it for the free parameters of what is put in its place**,
provided that no binder of the expression captures one of these.  An expression in which the
parameter is not free stays as it is, and something of the parameter's own type leaves the type of
the whole alone. -/
theorem replace_trades_parameter (hbinders : ∀ q ∈ t.freeParameters, q ∉ e.binders) :
    (∀ q, q ∈ (e.replace (.identity p) t).freeParameters
        ↔ (q ∈ e.freeParameters ∧ q ≠ p) ∨ (p ∈ e.freeParameters ∧ q ∈ t.freeParameters))
      ∧ (p ∉ e.freeParameters → e.replace (.identity p) t = e)
      ∧ (t.ty = p.ty → (e.replace (.identity p) t).ty = e.ty) := by
  have habsent (hp : p ∉ e.freeParameters) : e.replace (.identity p) t = e :=
    replace_of_not_mem hp t
  refine ⟨fun q => ⟨fun hq => ?_, ?_⟩, habsent, fun hty => ty_replaceUnder hty e []⟩
  · by_cases hp : p ∈ e.freeParameters
    · exact (mem_freeParameters_replace hq).imp_right fun hq => ⟨hp, hq⟩
    · rw [habsent hp] at hq
      exact .inl ⟨hq, ne_of_mem_of_not_mem hq hp⟩
  · rintro (⟨hq, hne⟩ | ⟨hp, hq⟩)
    · exact mem_freeParameters_replace_of_ne hq hne t
    · exact mem_freeParameters_replaceUnder_of_picks (picks_identity.2 rfl) hq e (hbinders q hq)
        (mem_freeParameters.1 hp)

end Expr

namespace Scores

def guest : Parameter := ⟨3, "guest", .object "Person"⟩

/-- The friends of a person by age.  The person is bound again in the key. -/
def friends : Expr :=
  .call .orderBy (.member (.parameter person) "friends" (.list (.object "Person")))
    [.lambda person age, .constant 0 (.boolean false) .boolean]

/-- The guest takes the place of the person, but not in the key. -/
theorem replaced_friends :
    (∀ q ∈ (Expr.parameter guest).freeParameters, q ∉ friends.binders)
      ∧ (∀ q, q ∈ (friends.replace (.identity person) (.parameter guest)).freeParameters
        ↔ q = guest)
      ∧ (friends.replace (.identity person) (.parameter guest)).ty = friends.ty
      ∧ (Expr.lambda person age).replace (.identity person)
        (.parameter guest) = .lambda person age := by
  have hbinders : ∀ q ∈ (Expr.parameter guest).freeParameters, q ∉ friends.binders := by decide
  obtain ⟨hfree, -, hty⟩ := Expr.replace_trades_parameter (p := person) hbinders
  have hperson : friends.freeParameters = [person] := by decide
  refine ⟨hbinders, fun q => (hfree q).trans ?_, hty rfl,
    (Expr.replace_trades_parameter (by decide)).2.1 (by decide)⟩
  simp [hperson]

end Scores
end QueryProjection
