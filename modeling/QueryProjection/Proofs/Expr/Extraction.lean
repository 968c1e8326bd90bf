import QueryProjection.Proofs.Expr.Dependency
import QueryProjection.Proofs.Expr.Substitution

/-!
# Dependency extraction is exact

`Expr.dependencies` is to find what an expression reads of a parameter.  What it finds is what the
free occurrences of the parameter read, and here that is compared with what the value of the
expression depends on.

* `Expr.ReadAt` are the places where an expression looks at a parameter through members;
* `Expr.agrees_of_occurrences`: an expression that reads a parameter only through members depends on
  no other members of its value;
* `Expr.dependencies_exact` puts these together.

That the value depends on no other members is said with two objects for the parameter: they agree on
the members that are read, and differ as they like in all others (`Expr.Exposes`).  An occurrence
below a binder of the parameter reads something else, and must not count for either side.  So
extraction and evaluation are compared place by place, and not through the list of names alone.
-/

namespace QueryProjection

open Environment

open Value (Agrees)

namespace Expr

variable {p : Parameter}

/-! ## What the value depends on -/

/-- The places where an expression looks at a parameter: its members, and all other parameters. -/
def ReadAt (p : Parameter) (reads : String → Prop) (bound : List Parameter) (x y : Expr) : Prop :=
  x = y ∧ ((∃ q, x = .parameter q ∧ (q ∈ bound ∨ q ≠ p))
    ∨ p ∉ bound ∧ ∃ name ty, x = .member (.parameter p) name ty ∧ reads name)

theorem occurrences_eq_of_ne {e : Expr} (h : e ≠ .parameter p) (read : Option String) :
    e.occurrences p read = e.occurrences p none := by
  cases e with
  | parameter q =>
    have hq : q ≠ p := fun hq => h (hq ▸ rfl)
    rw [occurrences, occurrences, if_neg hq, if_neg hq]
  | _ => rfl

variable {reads : String → Prop}

/-- An expression of which every occurrence of the parameter reads a member looks at it in these
places only. -/
theorem sameBut_of_occurrences (e : Expr) {bound : List Parameter}
    (h : p ∉ bound → ∀ m ∈ e.occurrences p none, ∃ name, m = some name ∧ reads name) :
    SameBut (ReadAt p reads) (fun _ => True) bound e e := by
  induction e using induct_parts generalizing bound with
  | parameter q =>
    refine .place ⟨rfl, .inl ⟨q, rfl, ?_⟩⟩
    by_contra hcon
    obtain ⟨hq, rfl⟩ := not_or.1 hcon |>.imp_right not_not.1
    obtain ⟨name, hname, _⟩ := h hq none (by simp [occurrences])
    cases hname
  | node e he ih =>
    -- The member that is read on the parameter is a place of its own.
    by_cases hplace : p ∉ bound ∧ ∃ name ty, e = .member (.parameter p) name ty
    · obtain ⟨hp, name, ty, rfl⟩ := hplace
      obtain ⟨_, heq, hread⟩ := h hp (some name) (by simp [occurrences])
      cases heq
      exact .place ⟨rfl, .inr ⟨hp, name, ty, rfl, hread⟩⟩
    · refine sameBut_of_parts he fun part hpart =>
        ⟨fun _ _ => trivial, ih part hpart fun hp m hm => ?_⟩
      obtain ⟨hown, hp⟩ := not_or.1 (mt List.mem_append.2 hp)
      refine h hp m ?_
      rw [occurrences_eq_flatMap he none none]
      refine List.mem_flatMap.2 ⟨part, hpart, ?_⟩
      rw [if_neg hown]
      cases e with
      | member receiver name ty =>
        obtain rfl := List.mem_singleton.1 hpart
        rwa [occurrences_eq_of_ne fun heq => hplace ⟨hp, name, ty, heq ▸ rfl⟩]
      | _ => exact hm

/-- Two environments that agree on all parameters but one, to which they give objects that agree on
the members that are read. -/
structure Exposes (p : Parameter) (reads : String → Prop) (bound : List Parameter)
    (env env' : Environment) : Prop where
  others : ∀ q, q ∈ bound ∨ q ≠ p → Option.Rel Agrees (env q) (env' q)
  members : p ∉ bound → ∃ ms ms', env p = some (.object ms) ∧ env' p = some (.object ms')
    ∧ ∀ name, reads name → ((Assoc.find? name ms).getD .null).Agrees
      ((Assoc.find? name ms').getD .null)

variable {services : Provider} {e : Expr} {env env' : Environment}

theorem agrees_of_occurrences (hservices : services.Insensitive)
    (h : ∀ m ∈ e.occurrences p none, ∃ name, m = some name ∧ reads name)
    (henv : Exposes p reads [] env env') :
    Operand.Agrees (e.operand services env) (e.operand services env') := by
  refine (sameBut_of_occurrences e fun _ => h).agrees hservices (Exposes p reads) ?_ ?_ henv
  · intro bound env env' q v v' _ hexposes hv
    refine ⟨fun r hr => rel_bind hv fun hne => hexposes.others r
      (hr.imp_left fun hmem => (List.mem_cons.1 hmem).resolve_left hne), fun hp => ?_⟩
    obtain ⟨hne, hp⟩ := not_or.1 (mt List.mem_cons.2 hp)
    rw [bind_of_ne env hne, bind_of_ne env' hne]
    exact hexposes.members hp
  · rintro bound x _ env env' ⟨rfl, ⟨q, rfl, hq⟩ | ⟨hp, name, ty, rfl, hread⟩⟩ hexposes
    · exact agrees_parameter (hexposes.others q hq)
    · obtain ⟨ms, ms', hms, hms', hagree⟩ := hexposes.members hp
      intro _ _ _
      simp only [operand, hms, hms']
      exact Run.rel_pure (hagree name hread)

/-- **Dependency extraction is exact.**  It succeeds if and only if every free occurrence of the
parameter is read through a member; what it finds are the members that are read on these
occurrences; and the value of the expression depends on no other members of the parameter's
value. -/
theorem dependencies_exact (e : Expr) (p : Parameter) (path : FieldPath) :
    (e.occurrences p none).length = (e.freeOccurrences []).count p
      ∧ ((∃ found, e.dependencies (.identity p) path = .ok found)
        ↔ ∀ m ∈ e.occurrences p none, m.isSome)
      ∧ ∀ found, e.dependencies (.identity p) path = .ok found →
        (∀ name, name ∈ Assoc.keys found ↔ some name ∈ e.occurrences p none)
          ∧ ∀ services : Provider, services.Insensitive → ∀ (env env' : Environment)
              (ms ms' : List (String × Value)), (∀ q, q ≠ p → env q = env' q) →
              env p = some (.object ms) → env' p = some (.object ms') →
              (∀ name ∈ Assoc.keys found,
                (Assoc.find? name ms).getD .null = (Assoc.find? name ms').getD .null) →
              e.evaluated services env = e.evaluated services env' := by
  have hcollected := collected_dependencies (p := p) path e
  have hsome : (∀ m ∈ e.occurrences p none, m.isSome) ↔ none ∉ e.occurrences p none :=
    ⟨fun h hnone => Bool.noConfusion (h none hnone),
      fun h m hm => Option.isSome_iff_ne_none.2 fun hnone =>
      h (hnone ▸ hm)⟩
  refine ⟨length_occurrences e none List.not_mem_nil, ?_, fun found hfound => ?_⟩
  · rw [hsome]
    cases hresult : e.dependencies (.identity p) path with
    | ok found =>
      rw [hresult] at hcollected
      exact ⟨fun _ => hcollected.1, fun _ => ⟨found, rfl⟩⟩
    | error error =>
      rw [hresult] at hcollected
      exact ⟨nofun, fun h => absurd hcollected h⟩
  · rw [hfound] at hcollected
    have hkeys := mem_keys_of_dependencies hfound
    refine ⟨hkeys, fun services hservices env env' ms ms' hothers hms hms' hmembers => ?_⟩
    have hreads (m : Option String) (hm : m ∈ e.occurrences p none) :
        ∃ name, m = some name ∧ name ∈ Assoc.keys found := by
      obtain ⟨name, rfl⟩ := Option.isSome_iff_exists.1 (hsome.2 hcollected.1 m hm)
      exact ⟨name, rfl, (hkeys name).2 hm⟩
    have hexposes : Exposes p (· ∈ Assoc.keys found) [] env env' := by
      refine ⟨fun q hq => ?_, fun _ => ⟨ms, ms', hms, hms', fun name hname => ?_⟩⟩
      · rw [hothers q (hq.resolve_left List.not_mem_nil)]
        exact Option.rel_refl Agrees.refl _
      · rw [hmembers name hname]
        exact Agrees.refl _
    exact evaluated_eq_of_agrees (agrees_of_occurrences hservices hreads hexposes)

end Expr

/-! The name of a person, and those friends that are of age.  The friends are called like the person
while they are looked at, so the age that is read is not the person's. -/

namespace Visitor

open Scores (person)

def older : Expr :=
  .call .filter (.member (.parameter person) "friends" (.list (.object "Person")))
    [.lambda person (.binary .gt (.member (.parameter person) "age" .int)
      (.constant 3 (.int 17) .int))]

def greeting : Expr :=
  .serviceCall "echo" "all" [older, .member (.parameter person) "name" .string] (.list .null)

def found : Expr.Dependencies :=
  [("friends", ⟨person, .member (.parameter person) "friends" (.list (.object "Person"))⟩),
    ("name", ⟨person, .member (.parameter person) "name" .string⟩)]

/-- A person of this age with two friends. -/
def members (age : Int64) : List (String × Value) :=
  [("name", .string "Ann"), ("age", .int age),
    ("friends", .list [.object [("age", .int 12)], .object [("age", .int 18)]])]

end Visitor

/-- The person's own age does not matter to the greeting, and is not extracted. -/
theorem Visitor.evaluated_greeting :
    greeting.dependencies (.identity Scores.person) .operation = .ok found
      ∧ greeting.evaluated Scores.services (empty.bind Scores.person
        (.object (members 30)))
        = greeting.evaluated Scores.services (empty.bind Scores.person
          (.object (members 5))) := by
  have hfound : greeting.dependencies (.identity Scores.person) .operation = .ok found := rfl
  refine ⟨hfound, ((Expr.dependencies_exact greeting Scores.person .operation).2.2 _ hfound).2 _
    Scores.insensitive _ _ (members 30) (members 5) (fun q hq => ?_) rfl rfl ?_⟩
  · rw [bind_of_ne _ hq, bind_of_ne _ hq]
  · intro name hname
    rcases List.mem_cons.1 hname with rfl | hname
    · rfl
    · obtain rfl := List.mem_singleton.1 hname
      rfl

end QueryProjection
