import QueryProjection.Proofs.Expr.Kept
import QueryProjection.Value.Json

/-!
# Values without lazy sequences

A value is *eager* if there is no lazy sequence in it.  Forcing gives eager values, and leaves eager
values as they are.  Writing a value as JSON does not show whether it was forced
(`Value.forcing_invisible`).  An expression that projects no elements evaluates to an eager value,
if its constants, the values of its parameters and the results of services are eager.

Forcing and writing are compared by the results of their runs and not as runs: iterating a lazy
sequence leaves notes, and what was forced is not iterated again.  Both go through a value in the
same order, so the first sequence that fails is the same one, and with it the error.  Being eager is
what later modules assume of data and of the results of services: a member of an eager value is the
same whether it is forced before or after it is read (`Expr.forced?_member_of_eager`).
-/

namespace QueryProjection

open List

mutual

/-- There is no lazy sequence in the value. -/
def Value.Eager : Value → Prop
  | .list items => Value.EagerItems items
  | .object members => Value.EagerMembers members
  | .lazy _ => False
  | _ => True

/-- The same for the items of a list. -/
def Value.EagerItems : List Value → Prop
  | [] => True
  | item :: rest => item.Eager ∧ Value.EagerItems rest

/-- The same for the members of an object. -/
def Value.EagerMembers : List (String × Value) → Prop
  | [] => True
  | (_, value) :: rest => value.Eager ∧ Value.EagerMembers rest

end

namespace Value

variable {items : List Value} {members : List (String × Value)}

theorem eagerItems_iff : EagerItems items ↔ ∀ v ∈ items, v.Eager := by
  induction items with
  | nil => simp [EagerItems]
  | cons item rest ih => simp [EagerItems, ih]

theorem eagerMembers_iff : EagerMembers members ↔ ∀ m ∈ members, m.2.Eager := by
  induction members with
  | nil => simp [EagerMembers]
  | cons m rest ih =>
    obtain ⟨key, value⟩ := m
    simp [EagerMembers, ih]

theorem kept_eager : Kept Eager fun _ => True where
  null := by simp [Eager]
  boolean := by simp [Eager]
  int := by simp [Eager]
  float := by simp [Eager]
  string := by simp [Eager]
  list items := by rw [Eager, eagerItems_iff]
  object members := by rw [Eager, eagerMembers_iff]
  iterate i h := by simp [Eager] at h
  error _ _ := trivial

theorem eager_list : (Value.list items).Eager ↔ ∀ v ∈ items, v.Eager :=
  kept_eager.list items

theorem eager_object : (Value.object members).Eager ↔ ∀ m ∈ members, m.2.Eager :=
  kept_eager.object members

/-! ## Forcing -/

mutual

theorem force_eq_self (v : Value) (h : v.Eager) : v.force = some v := by
  match v with
  | .list items =>
    rw [Eager] at h
    rw [force_list, mapM_force_eq_self items h]
    rfl
  | .object members =>
    rw [Eager] at h
    rw [force_object, mapEntries_force_eq_self members h]
    rfl
  | .lazy _ =>
    rw [Eager] at h
    exact h.elim
  | .null | .boolean _ | .int _ | .float _ | .string _ => rfl

theorem mapM_force_eq_self (items : List Value) (h : EagerItems items) :
    items.mapM force = some items := by
  match items with
  | [] => rfl
  | item :: rest =>
    rw [EagerItems] at h
    rw [mapM_cons, force_eq_self item h.1, mapM_force_eq_self rest h.2]
    rfl

theorem mapEntries_force_eq_self (members : List (String × Value)) (h : EagerMembers members) :
    mapEntries force members = some members := by
  match members with
  | [] => rfl
  | (key, value) :: rest =>
    rw [EagerMembers] at h
    rw [mapEntries_cons, force_eq_self value h.1, mapEntries_force_eq_self rest h.2]
    rfl

end

section Kept

variable {P : Value → Prop} {E : EvaluationError → Prop}

mutual

/-- Forcing keeps what evaluation keeps, and what it gives is eager. -/
theorem Kept.ends_materialize (kept : Kept P E) (v : Value) (h : P v) :
    v.materialize.Ends (fun w => P w ∧ w.Eager) E := by
  match v with
  | .list items =>
    rw [materialize]
    exact (kept.ends_materializeItems items ((kept.list items).1 h)).bind fun _ hitems =>
      ⟨(kept.list _).2 fun v hv => (hitems v hv).1, eager_list.2 fun v hv => (hitems v hv).2⟩
  | .object members =>
    rw [materialize]
    exact (kept.ends_materializeMembers members ((kept.object members).1 h)).bind fun _ hmembers =>
      ⟨(kept.object _).2 fun m hm => (hmembers m hm).1, eager_object.2 fun m hm =>
        (hmembers m hm).2⟩
  | .lazy iterate =>
    rw [materialize]
    exact kept.ends_materializeIteration (iterate ()) (kept.iterate iterate h)
  | .null | .boolean _ | .int _ | .float _ | .string _ =>
    simp only [materialize]
    exact Run.ends_pure ⟨h, by simp [Eager]⟩

theorem Kept.ends_materializeIteration (kept : Kept P E) (i : Iteration)
    (h : i.toRun.Ends (∀ v ∈ ·, P v) E) :
    (materializeIteration i).Ends (fun w => P w ∧ w.Eager) E := by
  match i with
  | .yields events items =>
    rw [materializeIteration]
    refine Run.Ends.bind (P := fun _ => True) trivial fun _ _ => ?_
    exact (kept.ends_materializeItems items h).bind fun _ hitems =>
      ⟨(kept.list _).2 fun v hv => (hitems v hv).1, eager_list.2 fun v hv => (hitems v hv).2⟩
  | .fails events error =>
    rw [materializeIteration]
    exact h

theorem Kept.ends_materializeItems (kept : Kept P E) (items : List Value) (h : ∀ v ∈ items, P v) :
    (materializeItems items).Ends (∀ w ∈ ·, P w ∧ w.Eager) E := by
  match items with
  | [] =>
    rw [materializeItems]
    exact Run.ends_pure fun v hv => absurd hv not_mem_nil
  | item :: rest =>
    obtain ⟨hitem, hrest⟩ := forall_mem_cons.1 h
    rw [materializeItems]
    exact (kept.ends_materialize item hitem).bind fun _ hitem =>
      (kept.ends_materializeItems rest hrest).bind fun _ hrest => forall_mem_cons.2 ⟨hitem, hrest⟩

theorem Kept.ends_materializeMembers (kept : Kept P E) (members : List (String × Value))
    (h : ∀ m ∈ members, P m.2) :
    (materializeMembers members).Ends (∀ m ∈ ·, P m.2 ∧ m.2.Eager) E := by
  match members with
  | [] =>
    rw [materializeMembers]
    exact Run.ends_pure fun m hm => absurd hm not_mem_nil
  | (key, value) :: rest =>
    obtain ⟨hvalue, hrest⟩ := forall_mem_cons.1 h
    rw [materializeMembers]
    exact (kept.ends_materialize value hvalue).bind fun _ hvalue =>
      (kept.ends_materializeMembers rest hrest).bind fun _ hrest =>
        forall_mem_cons.2 ⟨hvalue, hrest⟩

end

end Kept

theorem eager_of_force {v w : Value} (h : v.force = some w) : w.Eager :=
  ((kept_true.ends_materialize v trivial).of_ok (Run.value?_eq_some_iff.1 h)).2

/-! ## Writing -/

mutual

/-- Forcing a value and writing it fail alike.  What is forced is written like the value. -/
theorem rel_toJson (v : Value) :
    Run.Rel (fun m json => m.toJson.result = .ok json) v.materialize v.toJson := by
  match v with
  | .list items =>
    rw [materialize, toJson]
    exact (rel_toJsonItems items).bind fun _ _ h => Run.rel_pure (by simp [toJson, h, Except.bind])
  | .object members =>
    rw [materialize, toJson]
    exact (rel_toJsonMembers members).bind fun _ _ h =>
      Run.rel_pure (by simp [toJson, h, Except.bind])
  | .lazy iterate =>
    rw [materialize, toJson]
    exact rel_toJsonIteration (iterate ())
  | .null | .boolean _ | .int _ | .float _ | .string _ =>
    simp only [materialize, toJson]
    exact Run.rel_pure (by simp only [toJson]; rfl)

theorem rel_toJsonIteration (i : Iteration) : Run.Rel (fun m json => m.toJson.result = .ok json)
    (materializeIteration i) (toJsonIteration i) := by
  match i with
  | .yields events items =>
    rw [materializeIteration, toJsonIteration]
    refine Run.Rel.bind (R := fun _ _ => True) ?_ fun _ _ _ => ?_
    · exact .ok trivial
    · exact (rel_toJsonItems items).bind fun _ _ h =>
        Run.rel_pure (by simp [toJson, h, Except.bind])
  | .fails events error => exact .error error

theorem rel_toJsonItems (items : List Value) :
    Run.Rel (fun ms json => (toJsonItems ms).result = .ok json) (materializeItems items)
      (toJsonItems items) := by
  match items with
  | [] => exact .ok rfl
  | item :: rest =>
    rw [materializeItems, toJsonItems]
    exact (rel_toJson item).bind fun _ _ h => (rel_toJsonItems rest).bind fun _ _ hrest =>
      Run.rel_pure (by simp [toJsonItems, h, hrest, Except.bind])

theorem rel_toJsonMembers (members : List (String × Value)) :
    Run.Rel (fun ms json => (toJsonMembers ms).result = .ok json) (materializeMembers members)
      (toJsonMembers members) := by
  match members with
  | [] => exact .ok rfl
  | (key, value) :: rest =>
    rw [materializeMembers, toJsonMembers]
    exact (rel_toJson value).bind fun _ _ h => (rel_toJsonMembers rest).bind fun _ _ hrest =>
      Run.rel_pure (by simp [toJsonMembers, h, hrest, Except.bind])

end

/-- **Forcing is complete, idempotent and invisible in JSON.**  It fails if and only if writing the
value fails, with the same error.  What it gives is eager, is forced to itself and is written like
the value. -/
theorem forcing_invisible (v : Value) :
    (∀ e, v.materialize.result = .error e ↔ v.toJson.result = .error e)
      ∧ ∀ m, v.materialize.result = .ok m →
        m.Eager ∧ m.materialize.result = .ok m
          ∧ ∃ json, v.toJson.result = .ok json ∧ m.toJson.result = .ok json := by
  have hrel := rel_toJson v
  have heager := kept_true.ends_materialize v trivial
  unfold Run.Rel at hrel
  unfold Run.Ends at heager
  generalize v.materialize.result = r, v.toJson.result = r' at hrel heager
  cases hrel with
  | error e => exact ⟨fun e' => by simp only [Except.error.injEq], nofun⟩
  | ok h =>
    refine ⟨fun e => ⟨nofun, nofun⟩, ?_⟩
    rintro _ ⟨⟩
    exact ⟨heager.2, Run.value?_eq_some_iff.1 (force_eq_self _ heager.2), _, rfl, h⟩

end Value

/-- The values of the parameters are eager. -/
def Environment.Eager (env : Environment) : Prop :=
  ∀ p w, env p = some w → w.Eager

theorem Environment.Eager.bind {env : Environment} (h : env.Eager) {p : Parameter} {v : Value}
    (hv : v.Eager) : (env.bind p v).Eager := by
  intro q w hw
  unfold Environment.bind at hw
  split at hw
  · exact Option.some.inj hw ▸ hv
  · exact h q w hw

namespace Expr

variable {services : Provider} {env : Environment} {e : Expr} {v : Value}

theorem eager_of_value? (hservices : services.Keep Value.Eager) (hbuilt : e.Built Value.Eager False)
    (henv : ∀ p ∈ e.freeParameters, ∀ w, env p = some w → w.Eager)
    (h : e.value? services env = some v) : v.Eager := by
  refine (ends_valueOf Value.kept_eager (fun hL => hL.elim) hservices
    (fun _ _ _ _ _ => trivial) e hbuilt fun p hp => ?_).of_ok (Run.value?_eq_some_iff.1 h)
  unfold Serves
  cases hp' : env p with
  | none => trivial
  | some w => exact henv p hp w hp'

theorem forced?_of_eager (h : e.value? services env = some v) (hv : v.Eager) :
    e.forced? services env = some v := by
  rw [forced?, h, Option.bind_some, Value.force_eq_self v hv]

theorem forced?_member_of_eager (h : e.value? services env = some v) (hv : v.Eager) (name : String)
    (ty : Ty) : (member e name ty).forced? services env = (readMember name v).value? := by
  rw [forced?, value?_member, h, Option.bind_some]
  cases hread : (readMember name v).value? with
  | none => rfl
  | some w =>
    have hw :
        w.Eager := (Value.kept_eager.ends_readMember hv name).of_ok (Run.value?_eq_some_iff.1 hread)
    rw [Option.bind_some, Value.force_eq_self w hw]

end Expr
end QueryProjection
