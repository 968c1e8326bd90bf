import QueryProjection.Proofs.Expr.Substitution

/-!
# Moving an expression to another context

`Expr.rebase` replaces twice: first the old context, and then, in what came out, every parameter of
the old context's type that the scope does not bind.  The second pass runs over the expression that
the first one put in place.  Where the scope binds all of its parameters, nothing in it is picked,
and the two passes are one:

* `Expr.movedBy` picks what either pass replaces, and `Expr.rebased` is the expression with all of
  it replaced at once;
* `Expr.result_rebase` says what each policy makes of it;
* `Expr.evaluated_rebased`: moving is giving one value to the old context and to the parameters that
  are taken for it.

With one replacement in place of two, the meaning of a moved expression is the substitution lemma
again, for all parameters that are picked.  It needs the scope to bind the parameters of the new
context: otherwise the second pass would replace them inside the first one's result, and go on
nesting the new context in itself.  And no binder may capture them, as in every substitution.
-/

namespace QueryProjection

open Replacement

open Value (Agrees)

theorem Replacement.picks_typeMatch {ty : Ty} {scope : List Parameter} {q : Parameter} :
    (typeMatch ty scope).picks q = true ↔ q.ty = ty ∧ q ∉ scope := by
  simp [picks]

namespace Expr

variable {services : Provider} {e new : Expr} {old : Parameter} {scope : List Parameter}

/-! ## Two passes with one target -/

/-- A second replacement by the same expression, which leaves that expression alone, goes together
with the first one. -/
theorem replaceUnder_replaceUnder_self {first second : Parameter → Bool} {t : Expr}
    (ht : ∀ q ∈ t.freeParameters, second q = false) (e : Expr) (bound : List Parameter) :
    replaceUnder second t bound (replaceUnder first t bound e)
      = replaceUnder (fun q => first q || second q) t bound e := by
  induction e using induct_parts generalizing bound with
  | parameter p =>
    by_cases hfirst : p ∉ bound ∧ first p = true
    · have hleft :
          replaceUnder first t bound (.parameter p) = t := by rw [replaceUnder, if_pos hfirst]
      have hright : replaceUnder (fun q => first q || second q) t bound (.parameter p) = t := by
        rw [replaceUnder, if_pos ⟨hfirst.1, by rw [hfirst.2, Bool.true_or]⟩]
      rw [hleft, hright]
      exact replaceUnder_of_not_picked t bound fun q hq =>
        ht q (mem_freeParameters.2 ((mem_freeOccurrences t bound).1 hq).1)
    · have hleft : replaceUnder first t bound (.parameter p) = .parameter p := by
        rw [replaceUnder, if_neg hfirst]
      rw [hleft, replaceUnder, replaceUnder]
      refine if_congr (and_congr_right fun hp => ?_) rfl rfl
      have hpicks : first p = false := Bool.eq_false_iff.2 fun h => hfirst ⟨hp, h⟩
      rw [hpicks, Bool.false_or]
  | node e he ih =>
    simp only [replaceUnder_eq_mapParts, he, asParameter?_mapParts, mapParts_mapParts]
    exact mapParts_congr fun part hpart => ih part hpart _

/-- The parameters that are moved with a context: the context itself, and those of its type that the
scope does not bind. -/
def movedBy (old : Parameter) (scope : List Parameter) (q : Parameter) : Bool :=
  (identity old).picks q || (typeMatch old.ty scope).picks q

variable {q : Parameter} {ty : Ty} {env : Environment} {v : Value}

theorem movedBy_iff : movedBy old scope q = true ↔ q = old ∨ q.ty = old.ty ∧ q ∉ scope := by
  rw [movedBy, Bool.or_eq_true, picks_identity, picks_typeMatch]

/-- The expression with everything that is moved replaced at once. -/
def rebased (e : Expr) (old : Parameter) (new : Expr) (scope : List Parameter) : Expr :=
  replaceUnder (movedBy old scope) new [] e

theorem mem_staleParameters :
    q ∈ e.staleParameters ty scope ↔ q ∈ e.freeParameters ∧ q.ty = ty ∧ q ∉ scope := by
  rw [staleParameters, List.mem_filter, picks_typeMatch]

theorem staleParameters_eq_nil_iff :
    e.staleParameters ty scope = [] ↔ ∀ q ∈ e.freeParameters, q.ty = ty → q ∈ scope := by
  simp only [List.eq_nil_iff_forall_not_mem, mem_staleParameters, not_and, Decidable.not_not]

theorem replace_replace_typeMatch (hscope : ∀ q ∈ new.freeParameters, q ∈ scope) :
    (e.replace (.identity old) new).replace (.typeMatch old.ty scope) new
      = e.rebased old new scope := by
  refine replaceUnder_replaceUnder_self (fun q hq => Bool.eq_false_iff.2 fun hpicks => ?_) e []
  exact (picks_typeMatch.1 hpicks).2 (hscope q hq)

theorem replace_typeMatch_of_staleParameters (h : e.staleParameters ty scope = []) (t : Expr) :
    e.replace (.typeMatch ty scope) t = e := by
  refine replaceUnder_of_not_picked e [] fun q hq => Bool.eq_false_iff.2 fun hpicks => ?_
  obtain ⟨hty, hq'⟩ := picks_typeMatch.1 hpicks
  exact hq' (staleParameters_eq_nil_iff.1 h q (mem_freeParameters.2 hq) hty)

/-- What each policy makes of an expression: the same, if it does not refuse it. -/
theorem result_rebase (hscope : ∀ q ∈ new.freeParameters, q ∈ scope) (policy : TypeMatching)
    (path : FieldPath) : (e.rebase policy old new scope path).result
      = if policy = .deny ∧ (e.replace (.identity old) new).staleParameters old.ty scope ≠ [] then
          .error (.typeMatchRejected path old.ty.text)
        else .ok (e.rebased old new scope) := by
  rw [← replace_replace_typeMatch hscope]
  unfold rebase
  dsimp only
  split
  · rename_i hstale
    rw [if_neg fun h => h.2 hstale, replace_typeMatch_of_staleParameters hstale]
    rfl
  · rename_i hstale
    cases policy with
    | warn => rfl
    | allow => rfl
    | deny => exact (if_pos ⟨rfl, hstale⟩).symm

theorem mem_scope_of_mem_rebased (hscope : ∀ q ∈ new.freeParameters, q ∈ scope)
    (hq : q ∈ (e.rebased old new scope).freeParameters) (hty : q.ty = old.ty) : q ∈ scope := by
  rcases mem_freeParameters_replaceUnder e hq with ⟨-, hbound | hpicks⟩ | hnew
  · cases hbound
  · by_contra hq'
    rw [movedBy_iff.2 (.inr ⟨hty, hq'⟩)] at hpicks
    cases hpicks
  · exact hscope q hnew

theorem supplies_movedBy (hv : (new.valueOf services env).result = .ok v) :
    Supplies services (movedBy old scope) new [] env
      fun q => if movedBy old scope q = true then some v else env q where
  others q hq := by
    have hpicks : movedBy old scope q = false := hq.resolve_left List.not_mem_nil
    rw [hpicks, if_neg Bool.false_ne_true]
    exact Option.rel_refl Agrees.refl _
  picked q _ hpicks := ⟨v, v, hv, if_pos hpicks, .refl v⟩

/-- **Moving to a context is binding the old one to its value**, and with it the parameters that are
taken for the old context. -/
theorem evaluated_rebased (hservices : services.Insensitive)
    (hbinders : ∀ q ∈ new.freeParameters, q ∉ e.binders)
    (hv : (new.valueOf services env).result = .ok v) :
    (e.rebased old new scope).evaluated services env
      = e.evaluated services (env.bindAll (old :: e.staleParameters old.ty scope) v) := by
  refine (evaluated_eq_of_agrees (agrees_replaceUnder hservices hbinders
    (supplies_movedBy hv))).trans (evaluated_congr fun q hq => ?_)
  -- The two environments differ only in parameters that are not free.
  have hmem : movedBy old scope q = true ↔ q ∈ old :: e.staleParameters old.ty scope := by
    rw [movedBy_iff, List.mem_cons, mem_staleParameters, and_iff_right hq]
  by_cases hpicks : movedBy old scope q = true
  · rw [if_pos hpicks, Environment.bindAll_of_mem env (hmem.1 hpicks)]
  · rw [if_neg hpicks, Environment.bindAll_of_not_mem env (mt hmem.2 hpicks)]

/-- **Moving an expression moves every reference to the old context, and nothing else.**  The
policies agree on the expression that comes out; the strict one refuses exactly what it could move
by type alone.  Nothing of the old context's type is left over, and the expression means what it
meant with the old context, and the parameters that were taken for it, bound to the value of the new
one. -/
theorem rebase_moves_context (path : FieldPath) (hscope : ∀ q ∈ new.freeParameters, q ∈ scope)
    (hbinders : ∀ q ∈ new.freeParameters, q ∉ e.binders) :
    ∃ r, (e.rebase .warn old new scope path).result = .ok r
      ∧ (e.rebase .allow old new scope path).result = .ok r
      ∧ (∀ r', (e.rebase .deny old new scope path).result = .ok r'
        ↔ r' = r ∧ ∀ q ∈ (e.replace (.identity old) new).freeParameters, q.ty = old.ty → q ∈ scope)
      ∧ (∀ q ∈ r.freeParameters, q.ty = old.ty → q ∈ scope)
      ∧ ∀ services : Provider, services.Insensitive → ∀ (env : Environment) (v : Value),
        (new.valueOf services env).result = .ok v →
          r.evaluated services env
            = e.evaluated services (env.bindAll (old :: e.staleParameters old.ty scope) v) := by
  refine ⟨e.rebased old new scope, ?_, ?_, fun r' => ?_, fun q => mem_scope_of_mem_rebased hscope,
    fun services hservices env v hv => evaluated_rebased hservices hbinders hv⟩
  · simp [result_rebase hscope]
  · simp [result_rebase hscope]
  · rw [result_rebase hscope, ← staleParameters_eq_nil_iff]
    by_cases hstale : (e.replace (.identity old) new).staleParameters old.ty scope = []
    · simp [hstale, eq_comm]
    · simp [hstale]

end Expr

/-! A fragment on people reads the scores of its own person.  A filter inside it compares with the
age of another person that nothing binds, while a third one, of the same type again, is bound where
the fragment is spread. -/

namespace Scores

def own : Parameter := ⟨3, "fragment", .object "Person"⟩
def stale : Parameter := ⟨4, "stale", .object "Person"⟩
def friend : Parameter := ⟨5, "friend", .object "Person"⟩

/-- The scores of the fragment's person below the age of the stale one, and the age of the
friend. -/
def spread : Expr :=
  .record [("below", .list .int), ("age", .int)]
    [.call .filter (.member (.parameter own) "scores" (.list .int))
      [.lambda score (.binary .lt (.parameter score) (.member (.parameter stale) "age" .int))],
      .member (.parameter friend) "age" .int]

def visited : Environment :=
  env.bind friend (.object [("age", .int 9)])

/-- Both references to the fragment's person are moved, and the friend stays; a strict policy
refuses the stale one. -/
theorem rebase_spread :
    (∀ q ∈ (Expr.parameter person).freeParameters, q ∈ [person, friend])
      ∧ (∀ q ∈ (Expr.parameter person).freeParameters, q ∉ spread.binders)
      ∧ ∃ r, (spread.rebase .warn own (.parameter person) [person, friend] .operation).result
        = .ok r
        ∧ (spread.rebase .allow own (.parameter person) [person, friend] .operation).result = .ok r
        ∧ (∀ r', (spread.rebase .deny own (.parameter person) [person, friend] .operation).result
          ≠ .ok r')
        ∧ (∀ q ∈ r.freeParameters, q.ty = own.ty → q ∈ [person, friend])
        ∧ r.evaluated services visited
          = spread.evaluated services
            (visited.bindAll [own, own, stale]
              (.object [("age", .int 2), ("scores", .list [.int 3, .int 1])]))
        ∧ r.evaluated services visited = .ok
          (.object [("below", .list [.int 1]), ("age", .int 9)]) := by
  obtain ⟨r, hwarn, hallow, hdeny, hfree, hvalue⟩ :=
    @Expr.rebase_moves_context spread (.parameter person) own [person, friend] .operation
      (by decide) (by decide)
  have hmoved := hvalue services insensitive visited _ rfl
  exact ⟨by decide, by decide, r, hwarn, hallow, fun r' h => absurd ((hdeny r').1 h).2 (by decide),
    hfree, hmoved, hmoved.trans rfl⟩

end Scores
end QueryProjection
