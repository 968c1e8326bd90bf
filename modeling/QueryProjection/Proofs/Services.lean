import Mathlib.Data.List.Induction
import QueryProjection.Services

/-!
# What the registry of services finds

A method is kept under the name of its service and its own, joined by two colons, so that it is
found by every pair of names that joins to the same text.  Such pairs differ in where the joined
name is split (`Services.Splits`): part of it moves from one name to the other, together with the
colons around it.  Among services without colons in their names there are none
(`Services.eq_of_alike`).

* `Services.ofAll` is the registry after a sequence of registrations;
* `Services.call_last_alike` says which of them a call gets to.

The two ways of moving are all there are: of two places at which a text can be split at two colons
the earlier one is a single colon before the later one, so that the colons overlap, or there is a
text in between, with colons on both sides.  Being alike is therefore said by the names alone, and
the joined text does not occur in what a call does.
-/

namespace QueryProjection
namespace Services

open List

/-! ## Joined names -/

/-- The first pair of names is the second one with the end of the service moved to the method: a
single colon, or everything behind two colons. -/
def Splits (s m s' m' : String) : Prop :=
  (s' = s ++ ":" ∧ m = ":" ++ m') ∨ ∃ t, s' = s ++ "::" ++ t ∧ m = t ++ "::" ++ m'

/-- The pairs of names are the same, or one of them is the other one split elsewhere. -/
def Alike (s m s' m' : String) : Prop :=
  s = s' ∧ m = m' ∨ Splits s m s' m' ∨ Splits s' m' s m

variable {s m s' m' : String}

theorem splits_of_append {t : List Char} (hs : s'.toList = s.toList ++ t)
    (hm : [':', ':'] ++ m.toList = t ++ ([':', ':'] ++ m'.toList)) :
    s = s' ∧ m = m' ∨ Splits s m s' m' := by
  match t with
  | [] =>
    exact .inl ⟨String.toList_inj.1 (by simpa using hs.symm),
      String.toList_inj.1 (by simpa using hm)⟩
  | [c] =>
    obtain ⟨rfl, hm⟩ : ':' = c ∧ m.toList = ':' :: m'.toList := by simpa using hm
    exact .inr (.inl ⟨String.toList_inj.1 (by simpa using hs),
      String.toList_inj.1 (by simpa using hm)⟩)
  | c :: d :: t =>
    obtain ⟨rfl, rfl, hm⟩ :
      ':' = c ∧ ':' = d ∧ m.toList = t ++ ':' :: ':' :: m'.toList := by simpa using hm
    refine .inr (.inr ⟨.ofList t, ?_, ?_⟩) <;> apply String.toList_inj.1
    · simpa using hs
    · simpa using hm

theorem key_eq_iff : key s m = key s' m' ↔ Alike s m s' m' := by
  constructor
  · intro h
    have hlist : s.toList ++ ([':', ':'] ++ m.toList) = s'.toList ++ ([':', ':'] ++ m'.toList) := by
      simpa [key] using congrArg String.toList h
    rcases append_eq_append_iff.1 hlist with ⟨t, hs, hm⟩ | ⟨t, hs, hm⟩
    · exact (splits_of_append hs hm).imp_right .inl
    · exact (splits_of_append hs hm).imp (fun h => ⟨h.1.symm, h.2.symm⟩) .inr
  · rintro (⟨rfl, rfl⟩ | (⟨rfl, rfl⟩ | ⟨t, rfl, rfl⟩) | (⟨rfl, rfl⟩ | ⟨t, rfl, rfl⟩))
    · rfl
    all_goals exact String.toList_inj.1 (by simp [key])

theorem eq_of_alike (hs : ':' ∉ s.toList) (hs' : ':' ∉ s'.toList) (h : Alike s m s' m') :
    s = s' ∧ m = m' := by
  rcases h with h | (⟨rfl, -⟩ | ⟨t, rfl, -⟩) | (⟨rfl, -⟩ | ⟨t, rfl, -⟩)
  · exact h
  all_goals simp at hs hs'

/-! ## Registrations -/

/-- A method, and the names that it is registered under. -/
structure Registration where
  service : String
  method : String
  run : ServiceMethod

/-- The registration is found by these names. -/
def Registration.Answers (r : Registration) (s m : String) : Prop :=
  Alike r.service r.method s m

/-- The services after these registrations, in turn. -/
def ofAll (registered : List Registration) : Services :=
  registered.foldl (fun services r => services.register r.service r.method r.run) {}

theorem find?_ofAll (registered : List Registration) (s m : String) :
    Assoc.find? (key s m) (ofAll registered).methods
      = (registered.reverse.find? fun r => key r.service r.method = key s m).map
        Registration.run := by
  induction registered using reverseRecOn with
  | nil => rfl
  | append_singleton before r ih =>
    rw [ofAll, foldl_append, foldl_cons, foldl_nil, ← ofAll, register, Assoc.find?_insert, ih,
      reverse_concat, find?_cons]
    by_cases h : key r.service r.method = key s m
    · simp [h]
    · simp [h]

/-- **The registry goes by joined names.**  A call runs the last method that was registered under
names alike, and no method is known if and only if there is none; a registration under other names
changes nothing.  Among services without colons in their names, names are alike only if they are the
same. -/
theorem call_last_alike (registered : List Registration) (s m : String) (arguments : List Value) :
    (∀ before r after, registered = before ++ r :: after → r.Answers s m →
      (∀ x ∈ after, ¬ x.Answers s m) →
      (ofAll registered).call s m arguments = (r.run arguments).mapError (.serviceFailed s m))
    ∧ (((ofAll registered).call s m arguments).result = .error (.unknownService s m)
      ↔ ∀ r ∈ registered, ¬ r.Answers s m)
    ∧ (∀ r : Registration, ¬ r.Answers s m →
      ((ofAll registered).register r.service r.method r.run).call s m arguments
        = (ofAll registered).call s m arguments)
    ∧ ((∀ r ∈ registered, ':' ∉ r.service.toList) → ':' ∉ s.toList → ∀ r ∈ registered,
      r.Answers s m ↔ r.service = s ∧ r.method = m) := by
  refine ⟨?_, ?_, fun r hr => ?_, fun hnames hs r hr => ⟨eq_of_alike (hnames r hr) hs, .inl⟩⟩
  · rintro before r after rfl hr hafter
    have hfind : (after.reverse.find? fun r => key r.service r.method = key s m) = none := by
      simpa [find?_eq_none, key_eq_iff, Registration.Answers] using hafter
    rw [call, find?_ofAll, reverse_append, reverse_cons, append_assoc, find?_append, hfind]
    simp [key_eq_iff.2 hr]
  · have hnone : Assoc.find? (key s m) (ofAll registered).methods = none
        ↔ ∀ r ∈ registered, ¬ r.Answers s m := by
      rw [find?_ofAll, Option.map_eq_none_iff, find?_eq_none]
      simp [key_eq_iff, Registration.Answers]
    rw [← hnone, call]
    split
    · rename_i h
      simp [h, Run.fail]
    · rename_i run h
      rw [h, Run.mapError]
      cases (run arguments).result <;> simp [Except.mapError]
  · rw [call, call, register, Assoc.find?_insert, if_neg (mt key_eq_iff.1 hr)]

/-- A method of the service `a` is found as another one of the service `a::b`, and in place of an
earlier one. -/
theorem call_split_elsewhere :
    let first : Registration := ⟨"a::b", "c", fun _ => pure (.int 1)⟩
    let second : Registration := ⟨"a", "b::c", fun _ => pure (.int 2)⟩
    second.Answers "a::b" "c" ∧ ¬ second.Answers "a" "c"
      ∧ (ofAll [first, second]).call "a::b" "c" [] = pure (.int 2)
      ∧ ((ofAll [first, second]).call "a" "c" []).result = .error (.unknownService "a" "c") := by
  intro first second
  have halike : second.Answers "a::b" "c" := key_eq_iff.1 (by decide)
  have hother : ∀ r ∈ [first, second], ¬ r.Answers "a" "c" := by
    refine forall_mem_cons.2 ⟨?_, forall_mem_singleton.2 ?_⟩ <;> exact mt key_eq_iff.2 (by decide)
  exact ⟨halike, hother _ (mem_cons_of_mem _ mem_cons_self),
    (call_last_alike _ "a::b" "c" []).1 [first] second [] rfl halike (forall_mem_nil _),
    (call_last_alike _ "a" "c" []).2.1.2 hother⟩

end Services
end QueryProjection
