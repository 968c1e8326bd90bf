import QueryProjection.Proofs.Expr.Parametric
import QueryProjection.Proofs.Expr.Value

/-!
# What evaluation keeps

Many facts about the values that an expression can have are of one kind: if the constants in it, the
values of its parameters and the results of services have a property, so has its value, and
evaluating it can fail in certain ways only.

* `Run.Ends P E` says that a run ends with something of which `P` holds, or fails with an error of
  which `E` holds;
* `Value.Kept P E` says that looking into a value and making new ones out of old ones keeps `P`;
* `Expr.ends_valueOf` is the result: an evaluation is compared with itself, where values are related
  if `P` holds of them.
-/

namespace QueryProjection

/-! ## Runs -/

namespace Run

variable {ε α β : Type} {P : α → Prop} {Q : β → Prop} {E : ε → Prop} {a : α} {e : ε} {run : Run ε α}

/-- The run ends with something of which `P` holds or fails with an error of which `E` holds. -/
def Ends (P : α → Prop) (E : ε → Prop) (run : Run ε α) : Prop :=
  match run.result with
  | .ok a => P a
  | .error e => E e

theorem ends_pure (h : P a) : (pure a : Run ε α).Ends P E := h

theorem ends_fail (h : E e) : (fail e : Run ε α).Ends P E := h

theorem Ends.bind {next : α → Run ε β} (h : run.Ends P E) (hnext : ∀ a, P a → (next a).Ends Q E) :
    (run >>= next).Ends Q E := by
  simp only [Ends, result_bind] at h ⊢
  cases hr : run.result with
  | error e =>
    rw [hr] at h
    exact h
  | ok a =>
    rw [hr] at h
    exact hnext a h

theorem Ends.imp {Q : α → Prop} (h : run.Ends P E) (hPQ : ∀ a, P a → Q a) : run.Ends Q E := by
  unfold Ends at h ⊢
  split at h
  · exact hPQ _ h
  · exact h

theorem Ends.of_ok (h : run.Ends P E) (hok : run.result = .ok a) : P a := by
  rw [Ends, hok] at h
  exact h

theorem Ends.of_error (h : run.Ends P E) (herror : run.result = .error e) : E e := by
  rw [Ends, herror] at h
  exact h

end Run

/-! ## Values -/

/-- A property of values, with one of errors, that evaluation keeps. -/
structure Value.Kept (P : Value → Prop) (E : EvaluationError → Prop) : Prop where
  null : P .null
  boolean : ∀ b, P (.boolean b)
  int : ∀ i, P (.int i)
  float : ∀ x, P (.float x)
  string : ∀ s, P (.string s)
  list : ∀ items, P (.list items) ↔ ∀ v ∈ items, P v
  object : ∀ members, P (.object members) ↔ ∀ m ∈ members, P m.2
  iterate : ∀ iterate, P (.lazy iterate) → (iterate ()).toRun.Ends (∀ v ∈ ·, P v) E
  error : ∀ e, e.Foreseen → E e

theorem Value.kept_true : Value.Kept (fun _ => True) fun _ => True where
  null := trivial
  boolean _ := trivial
  int _ := trivial
  float _ := trivial
  string _ := trivial
  list _ := by simp
  object _ := by simp
  iterate i _ := by cases i () <;> simp [Iteration.toRun, Run.Ends]
  error _ _ := trivial

/-- Results of services have a property if their arguments have it. -/
def Provider.Keep (services : Provider) (P : Value → Prop) : Prop :=
  ∀ service method arguments v, (∀ a ∈ arguments, P a) →
    (services.call service method arguments).result = .ok v → P v

/-- A provider fails only with errors of which `E` holds. -/
def Provider.FailsWith (services : Provider) (E : EvaluationError → Prop) : Prop :=
  ∀ service method arguments e, (services.call service method arguments).result = .error e → E e

section Services

variable {services : Services} {P : Value → Prop}

theorem Services.failsWith_provider : services.provider.FailsWith EvaluationError.Foreseen := by
  intro service method arguments e he
  simp only [Services.provider, Services.call] at he
  intro name hname
  subst hname
  split at he
  · cases he
  · rename_i run _
    simp only [Run.mapError] at he
    cases hr : (run arguments).result <;> rw [hr] at he <;> cases he

theorem Services.keep_of_methods (h : ∀ m ∈ services.methods, ∀ arguments v,
      (∀ a ∈ arguments, P a) →
    (m.2 arguments).result = .ok v → P v) : services.provider.Keep P := by
  intro service method arguments v harguments hv
  simp only [Services.provider, Services.call] at hv
  split at hv
  · cases hv
  · rename_i run hrun
    refine h _ (Assoc.mem_of_find? hrun) arguments v harguments ?_
    simp only [Run.mapError] at hv
    cases hr : (run arguments).result <;> rw [hr] at hv <;> cases hv
    rfl

end Services

variable {services : Provider} {P : Value → Prop} {E : EvaluationError → Prop} {v : Value}
  {env : Environment}

theorem Provider.Keep.ends_call (h : services.Keep P) (hfails : services.FailsWith E)
    {service method : String} {arguments : List Value} (harguments : ∀ a ∈ arguments, P a) :
    (services.call service method arguments).Ends P E := by
  unfold Run.Ends
  split
  · exact h service method arguments _ harguments ‹_›
  · exact hfails service method arguments _ ‹_›

theorem Value.Kept.ends_elements (kept : Value.Kept P E) (hv : P v) :
    v.elements.Ends (∀ w ∈ ·, P w) E := by
  cases v with
  | list items => exact (kept.list items).1 hv
  | lazy iterate => exact kept.iterate iterate hv
  | _ => exact Run.ends_fail (kept.error _ (by simp [EvaluationError.Foreseen]))

/-! ## Expressions -/

namespace Expr

/-- `C` holds of an expression if it holds of the parts and `H` of the expression itself, which asks
nothing of the kinds that compiling puts expressions together with. -/
structure Nodewise (H C : Expr → Prop) : Prop where
  iff_parts : ∀ {e}, C e ↔ H e ∧ ∀ part ∈ e.parts, C part.2
  mapParts : ∀ {e f}, H e → H (e.mapParts f)
  parameter : ∀ p, H (.parameter p)
  member : ∀ {e name ty}, H (.member e name ty)
  call : ∀ {method e es}, H (.call method e es)
  lambda : ∀ {p e}, H (.lambda p e)

namespace Nodewise

variable {H C : Expr → Prop} (K : Nodewise H C) {e target replacement : Expr}

include K

theorem of_parameter (p : Parameter) : C (.parameter p) :=
  K.iff_parts.2 ⟨K.parameter p, List.forall_mem_nil _⟩

theorem of_member (name : String) (ty : Ty) (h : C e) : C (.member e name ty) :=
  K.iff_parts.2 ⟨K.member, by simpa [parts] using h⟩

theorem of_call (method : Method) {es : List Expr} (h : C e) (hes : ∀ a ∈ es, C a) :
    C (.call method e es) :=
  K.iff_parts.2 ⟨K.call, by simpa [parts] using ⟨h, hes⟩⟩

theorem of_lambda (p : Parameter) (h : C e) : C (.lambda p e) :=
  K.iff_parts.2 ⟨K.lambda, by simpa [parts] using h⟩

theorem replaceUnder (h : C e) (ht : C target) (picks : Parameter → Bool) (bound : List Parameter) :
    C (Expr.replaceUnder picks target bound e) := by
  induction e using induct_parts generalizing bound with
  | parameter q =>
    rw [Expr.replaceUnder]
    split
    · exact ht
    · exact h
  | node e he ih =>
    obtain ⟨hhere, hparts⟩ := K.iff_parts.1 h
    rw [replaceUnder_eq_mapParts he, K.iff_parts, parts_mapParts, List.forall_mem_map]
    exact ⟨K.mapParts hhere, fun part hpart => ih part hpart (hparts part hpart) _⟩

theorem replace (h : C e) (ht : C target) (r : Replacement) : C (e.replace r target) :=
  K.replaceUnder h ht _ _

theorem rebase {moved new : Expr} (h : C e) (hnew : C new) {policy : TypeMatching} {old : Parameter}
    {scope : List Parameter} {path : FieldPath}
    (hmoved : (e.rebase policy old new scope path).result = .ok moved) : C moved := by
  rcases rebase_eq_ok hmoved with rfl | rfl
  · exact K.replace h hnew _
  · exact K.replace (K.replace h hnew _) hnew _

theorem substitute (h : C e) (hr : C replacement) : C (e.substitute target replacement) := by
  unfold Expr.substitute
  induction e using induct_all with
  | h e ih =>
    obtain ⟨hhere, hparts⟩ := K.iff_parts.1 h
    rw [substituteIn_eq]
    split
    · exact hr
    · rw [K.iff_parts, parts_mapParts, List.forall_mem_map]
      exact ⟨K.mapParts hhere, fun part hpart => ih part hpart (hparts part hpart)⟩

end Nodewise

section Built

variable {P : Value → Prop} {L : Prop} {e target : Expr}

theorem nodewise_built (P : Value → Prop) (L : Prop) : Nodewise (BuiltHere P L) (Built P L) where
  iff_parts := built_iff_parts
  mapParts {e _} h := by cases e <;> exact h
  parameter _ := trivial
  member := trivial
  call := trivial
  lambda := trivial

theorem built_true (e : Expr) : e.Built (fun _ => True) True :=
  built_of_forall (fun _ => trivial) trivial e

theorem Built.imp {Q : Value → Prop} {M : Prop} (h : e.Built P L) (hPQ : ∀ v, P v → Q v)
    (hLM : L → M) : e.Built Q M := by
  induction e using induct_all with
  | h e ih =>
    obtain ⟨hhere, hparts⟩ := built_iff_parts.1 h
    refine built_iff_parts.2 ⟨?_, fun part hpart => ih part hpart (hparts part hpart)⟩
    cases e with
    | constant => exact hPQ _ hhere
    | projectEach => exact hLM hhere
    | _ => trivial

end Built

/-- The parameter has a value of which `P` holds, or it is fine that it has none. -/
def Serves (P : Value → Prop) (E : EvaluationError → Prop) (env : Environment) (p : Parameter) :
    Prop :=
  match env p with
  | some v => P v
  | none => E (.unboundParameter p.name)

end Expr

/-! ## Evaluation -/

/-- Runs of the same events that end with related results, or with the same error, of which `E`
holds. -/
def Run.Relator.strict (E : EvaluationError → Prop) (hE : ∀ e, e.Foreseen → E e) :
    Run.Relator where
  Rel R x y := x.events = y.events ∧ Except.Rel R x.result y.result ∧ ∀ e, x.result = .error e → E e
  pure h := ⟨rfl, .ok h, nofun⟩
  bind := by
    rintro _ _ _ _ ⟨events, result⟩ ⟨_, result'⟩ f g ⟨rfl, hresult, herror⟩ hfg
    cases hresult with
    | ok h => exact ⟨congrArg (events ++ ·) (hfg _ _ h).1, (hfg _ _ h).2⟩
    | error e => exact ⟨rfl, .error e, fun _ he => Except.error.inj he ▸ herror e rfl⟩
  fail h := ⟨rfl, .error _, fun _ he => Except.error.inj he ▸ hE _ h⟩

section Strict

variable {α : Type} {E : EvaluationError → Prop} {hE : ∀ e, e.Foreseen → E e}
  {P : α → Prop} {R : α → α → Prop} {x y : Run EvaluationError α}

theorem Run.Ends.strict (h : x.Ends P E) (hR : ∀ a, P a → R a a) :
    (Relator.strict E hE).Rel R x x := by
  obtain ⟨events, result⟩ := x
  cases result with
  | ok a => exact ⟨rfl, .ok (hR a h), nofun⟩
  | error e => exact ⟨rfl, .error e, fun _ he => Except.error.inj he ▸ h⟩

theorem Run.ends_of_strict (h : (Relator.strict E hE).Rel R x y)
    (hR : ∀ a b, R a b → P a) : x.Ends P E := by
  obtain ⟨events, result⟩ := x
  obtain ⟨_, result'⟩ := y
  obtain ⟨-, hresult, herror⟩ := h
  cases hresult with
  | ok h => exact hR _ _ h
  | error e => exact herror e rfl

theorem Run.eq_of_strict (h : (Relator.strict E hE).Rel R x y)
    (hR : ∀ a b, R a b → a = b) : x = y := by
  obtain ⟨events, result⟩ := x
  obtain ⟨_, result'⟩ := y
  obtain ⟨rfl, hresult, -⟩ := h
  cases hresult with
  | ok h => rw [hR _ _ h]
  | error e => rfl

end Strict

section Evaluation

variable {P : Value → Prop} {E : EvaluationError → Prop}

theorem forall₂_and_eq {α : Type} {P : α → Prop} {as bs : List α} :
    List.Forall₂ (fun a b => P a ∧ a = b) as bs ↔ (∀ a ∈ as, P a) ∧ as = bs := by
  rw [List.forall₂_and_left, List.forall₂_eq_eq_eq]

theorem Value.Kept.respects (kept : Value.Kept P E) :
    (Run.Relator.strict E kept.error).Respects fun v w => P v ∧ v = w where
  agrees h := h.2 ▸ .refl _
  null := ⟨kept.null, rfl⟩
  boolean _ := ⟨kept.boolean _, rfl⟩
  int _ := ⟨kept.int _, rfl⟩
  string _ := ⟨kept.string _, rfl⟩
  list h := ⟨(kept.list _).2 (forall₂_and_eq.1 h).1, congrArg _ (forall₂_and_eq.1 h).2⟩
  object := by
    intro members members'
    have hentries :
        (fun x y : String × Value => x.1 = y.1 ∧ P x.2 ∧ x.2 = y.2) = fun x y => P x.2 ∧ x = y := by
      funext x y
      simp only [Prod.ext_iff, and_left_comm]
    rw [kept.object, Assoc.Entries, hentries, forall₂_and_eq, Value.object.injEq]
  elements := by
    rintro v _ ⟨hv, rfl⟩
    exact (kept.ends_elements hv).strict fun items h => forall₂_and_eq.2 ⟨h, rfl⟩

theorem Value.Kept.ends_readMember (kept : Value.Kept P E) (hv : P v) (name : String) :
    (Expr.readMember name v).Ends P E :=
  Run.ends_of_strict (Expr.related_readMember kept.respects name ⟨hv, rfl⟩) fun _ _ h => h.1

/-- **What evaluation keeps.**  If `P` holds of the constants of an expression, of the values of its
free parameters and of the results of services, it holds of the value of the expression; and if the
services fail only with errors of which `E` holds, so does the evaluation. -/
theorem Expr.ends_valueOf (kept : Value.Kept P E) {L : Prop}
    (hlazy : L → ∀ run : Unit → Run EvaluationError (List Value),
      (run ()).Ends (∀ v ∈ ·, P v) E → P (.ofRun run)) (hservices : services.Keep P)
    (hfails : services.FailsWith E) (e : Expr) (hbuilt : e.Built P L)
    (henv : ∀ p ∈ e.freeParameters, Serves P E env p) :
    (e.valueOf services env).Ends P E := by
  have hrelated :
      Operand.Related (.strict E kept.error) (fun v w => P v ∧ v = w) (e.operand services env)
        (e.operand services env) := by
    refine related_operand kept.respects ?_ (hbuilt.imp (fun v hv => ⟨hv, rfl⟩) ?_) ?_
    · intro service method arguments arguments' h
      obtain ⟨harguments, rfl⟩ := forall₂_and_eq.1 h
      exact (hservices.ends_call hfails harguments).strict fun v hv => ⟨hv, rfl⟩
    · intro hL run run' h
      have hrun :
          run = run' := funext fun _ => Run.eq_of_strict h fun _ _ h => (forall₂_and_eq.1 h).2
      exact ⟨hlazy hL run (Run.ends_of_strict h fun _ _ h => (forall₂_and_eq.1 h).1),
        congrArg _ hrun⟩
    · intro p hp _ _ _
      have hserves := henv p hp
      unfold Serves at hserves
      simp only [operand]
      cases hv : env p with
      | none =>
        rw [hv] at hserves
        exact ⟨rfl, .error _, fun _ he => Except.error.inj he ▸ hserves⟩
      | some v =>
        rw [hv] at hserves
        exact Run.Relator.pure _ ⟨hserves, rfl⟩
  exact Run.ends_of_strict hrelated.own fun _ _ h => h.1

end Evaluation

end QueryProjection
