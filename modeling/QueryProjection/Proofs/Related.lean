import Mathlib.Data.List.Basic
import Mathlib.Tactic.Common
import QueryProjection.Assoc

/-!
# Related results

Two computations are compared by what they give.  Options are related by `Option.Rel`, results that
may be errors by `Except.Rel`, and associations entry by entry, by `Assoc.Entries`.
-/

namespace QueryProjection

open List Option

/-! ## Options -/

namespace Option

variable {α β γ δ : Type} {R : α → β → Prop} {S : γ → δ → Prop} {o : Option α} {o' : Option β}
  {f : α → Option γ} {g : β → Option δ}

theorem rel_refl {R : α → α → Prop} (h : ∀ a, R a a) : ∀ o, Rel R o o
  | none => .none
  | some a => .some (h a)

theorem rel_bind (h : Rel R o o') (hfg : ∀ a b, R a b → Rel S (f a) (g b)) :
    Rel S (o.bind f) (o'.bind g) := by
  cases h with
  | none => exact .none
  | some hab => exact hfg _ _ hab

theorem rel_bind_of_forall {g : α → Option δ} (hfg : ∀ a, Rel S (f a) (g a)) :
    ∀ o : Option α, Rel S (o.bind f) (o.bind g)
  | none => .none
  | some a => hfg a

theorem rel_map (h : Rel R o o') {f : α → γ} {g : β → δ} (hfg : ∀ a b, R a b → S (f a) (g b)) :
    Rel S (o.map f) (o'.map g) := by
  cases h with
  | none => exact .none
  | some hab => exact .some (hfg _ _ hab)

theorem rel_imp {S : α → β → Prop} (h : Rel R o o') (hRS : ∀ a b, R a b → S a b) : Rel S o o' := by
  cases h with
  | none => exact .none
  | some hab => exact .some (hRS _ _ hab)

theorem exists_right_of_rel (h : Rel R o o') {a : α} (ha : o = some a) :
    ∃ b, o' = some b ∧ R a b := by
  subst ha
  cases h with
  | some hab => exact ⟨_, rfl, hab⟩

theorem exists_left_of_rel (h : Rel R o o') {b : β} (hb : o' = some b) : ∃ a, o = some a := by
  subst hb
  cases h with
  | some hab => exact ⟨_, rfl⟩

theorem rel_getD (h : Rel R o o') {a : α} {b : β} (hab : R a b) : R (o.getD a) (o'.getD b) := by
  cases h with
  | none => exact hab
  | some h => exact h

theorem rel_toOption {ε : Type} {x : Except ε α} {y : Except ε β}
    (h : Rel R x.toOption y.toOption) :
    (∃ a b, x = .ok a ∧ y = .ok b ∧ R a b) ∨ ∃ e e', x = .error e ∧ y = .error e' := by
  cases x with
  | error e =>
    cases y with
    | error e' => exact .inr ⟨e, e', rfl, rfl⟩
    | ok b => cases h
  | ok a =>
    cases y with
    | error e' => cases h
    | ok b =>
      cases h with
      | some hab => exact .inl ⟨a, b, rfl, rfl, hab⟩

theorem rel_mapM {as : List α} {bs : List β} (h : Forall₂ R as bs)
    (hfg : ∀ a b, R a b → Rel S (f a) (g b)) : Rel (Forall₂ S) (as.mapM f) (bs.mapM g) := by
  induction h with
  | nil => exact .some .nil
  | cons hab _ ih =>
    rw [mapM_cons, mapM_cons]
    exact rel_bind (hfg _ _ hab) fun _ _ hcd => rel_bind ih fun _ _ hrest => .some (.cons hcd hrest)

end Option

/-! ## Results -/

/-- Both fail with the same error, or both give results that are related. -/
inductive Except.Rel {ε α β : Type} (R : α → β → Prop) : Except ε α → Except ε β → Prop
  | ok {a : α} {b : β} (h : R a b) : Rel R (.ok a) (.ok b)
  | error (e : ε) : Rel R (.error e) (.error e)

theorem Except.Rel.bind {ε α β γ δ : Type} {R : α → β → Prop} {S : γ → δ → Prop} {x : Except ε α}
    {y : Except ε β} (h : Except.Rel R x y) {f : α → Except ε γ} {g : β → Except ε δ}
    (hfg : ∀ a b, R a b → Except.Rel S (f a) (g b)) : Except.Rel S (x >>= f) (y >>= g) := by
  cases h with
  | ok h => exact hfg _ _ h
  | error e => exact .error e

/-! ## Associations -/

namespace Assoc

variable {κ α β : Type} [DecidableEq κ] {K : κ → κ → Prop} {R : α → β → Prop}

/-- Keys and values that are related, one by one. -/
abbrev Entries (K : κ → κ → Prop) (R : α → β → Prop) : List (κ × α) → List (κ × β) → Prop :=
  Forall₂ fun x y => K x.1 y.1 ∧ R x.2 y.2

variable {entries : List (κ × α)} {entries' : List (κ × β)} {key key' : κ}

section

variable (hK : ∀ {k k' l l'}, K k k' → K l l' → (k' = l' ↔ k = l))
  (h : Entries K R entries entries')

include hK h

theorem Entries.insert (hkey : K key key') {a : α} {b : β} (hab : R a b) :
    Entries K R (Assoc.insert key a entries) (Assoc.insert key' b entries') := by
  induction h with
  | nil => exact .cons ⟨hkey, hab⟩ .nil
  | @cons x y xs ys hxy hrest ih =>
    obtain ⟨k, v⟩ := x
    obtain ⟨k', v'⟩ := y
    obtain ⟨hk, hv⟩ := hxy
    rw [Assoc.insert, Assoc.insert]
    by_cases hkk : k = key
    · rw [if_pos hkk, if_pos ((hK hk hkey).2 hkk)]
      exact .cons ⟨hk, hab⟩ hrest
    · rw [if_neg hkk, if_neg (mt (hK hk hkey).1 hkk)]
      exact .cons ⟨hk, hv⟩ ih

theorem Entries.insertAll {added : List (κ × α)} {added' : List (κ × β)}
    (hadded : Entries K R added added') :
    Entries K R (Assoc.insertAll entries added) (Assoc.insertAll entries' added') := by
  induction hadded generalizing entries entries' with
  | nil => exact h
  | cons hxy _ ih => exact ih (h.insert hK hxy.1 hxy.2)

theorem Entries.find? (hkey : K key key') :
    Rel R (Assoc.find? key entries) (Assoc.find? key' entries') := by
  induction h with
  | nil => exact .none
  | @cons x y xs ys hxy hrest ih =>
    obtain ⟨k, v⟩ := x
    obtain ⟨k', v'⟩ := y
    obtain ⟨hk, hv⟩ := hxy
    rw [Assoc.find?, Assoc.find?]
    by_cases hkk : k = key
    · rw [if_pos hkk, if_pos ((hK hk hkey).2 hkk)]
      exact .some hv
    · rw [if_neg hkk, if_neg (mt (hK hk hkey).1 hkk)]
      exact ih

end

theorem rel_find? (h : Entries Eq R entries entries') (key : κ) :
    Rel R (Assoc.find? key entries) (Assoc.find? key entries') :=
  Entries.find? (K := Eq) (fun hk hl => hk ▸ hl ▸ Iff.rfl) h rfl

end Assoc

end QueryProjection
