import Mathlib.Data.List.Basic
import Mathlib.Tactic.Common
import QueryProjection.Assoc

/-!
# Entries of associations

Where the entries and the keys of an association come from.
-/

namespace QueryProjection

open List

namespace Assoc

variable {κ α : Type} [DecidableEq κ] {key : κ} {entries added : List (κ × α)} {a : α} {e : κ × α}

theorem mem_of_find? (h : find? key entries = some a) : (key, a) ∈ entries := by
  induction entries with
  | nil => simp [find?] at h
  | cons e rest ih =>
    obtain ⟨k, b⟩ := e
    simp only [find?] at h
    split at h
    · rename_i hk
      cases h
      subst hk
      exact mem_cons_self
    · exact mem_cons_of_mem _ (ih h)

theorem find?_of_mem (h : (keys entries).Nodup) (hmem : (key, a) ∈ entries) :
    find? key entries = some a := by
  induction entries with
  | nil => cases hmem
  | cons e rest ih =>
    obtain ⟨k, b⟩ := e
    obtain ⟨hnot, hrest⟩ := nodup_cons.1 h
    rw [find?]
    rcases mem_cons.1 hmem with heq | hmem
    · cases heq
      exact if_pos rfl
    · refine (if_neg fun heq => hnot ?_).trans (ih hrest hmem)
      exact mem_map.2 ⟨(key, a), hmem, heq.symm⟩

theorem mem_insert {value : α} (h : e ∈ insert key value entries) :
    e ∈ entries ∨ e = (key, value) := by
  induction entries with
  | nil => exact .inr (mem_singleton.1 h)
  | cons a rest ih =>
    obtain ⟨k, b⟩ := a
    simp only [insert] at h
    split at h
    · rename_i hk
      subst hk
      exact (mem_cons.1 h).symm.imp_left (mem_cons_of_mem _)
    · rcases mem_cons.1 h with rfl | h
      · exact .inl mem_cons_self
      · exact (ih h).imp_left (mem_cons_of_mem _)

theorem mem_insertAll (h : e ∈ insertAll entries added) : e ∈ entries ∨ e ∈ added := by
  induction added generalizing entries with
  | nil => exact .inl h
  | cons a rest ih =>
    rcases ih h with h | h
    · rcases mem_insert h with h | rfl
      · exact .inl h
      · exact .inr mem_cons_self
    · exact .inr (mem_cons_of_mem _ h)

theorem mem_ofList (h : e ∈ ofList entries) : e ∈ entries :=
  (mem_insertAll h).resolve_left not_mem_nil

theorem mem_keys_insertAll {p : κ} : p ∈ keys (insertAll entries added) ↔ p ∈ keys entries
    ∨ p ∈ keys added := by
  induction added generalizing entries with
  | nil => simp [insertAll, keys]
  | cons e rest ih =>
    show p ∈ keys (insertAll (insert e.1 e.2 entries) rest) ↔ _
    rw [ih, keys_insert]
    have hcons : p ∈ keys (e :: rest) ↔ p = e.1 ∨ p ∈ keys rest := mem_cons
    rw [hcons]
    split
    · rename_i hmem
      constructor
      · exact fun h => h.imp_right .inr
      · rintro (h | rfl | h)
        exacts [.inl h, .inl hmem, .inr h]
    · simp only [mem_append, mem_singleton, or_assoc]

theorem find?_insertAll (h : (keys added).Nodup) (key : κ) :
    find? key (insertAll entries added) = (find? key added).or (find? key entries) := by
  induction added generalizing entries with
  | nil => rfl
  | cons e rest ih =>
    obtain ⟨k, a⟩ := e
    obtain ⟨hnot, hrest⟩ := nodup_cons.1 h
    show find? key (insertAll (insert k a entries) rest) = _
    rw [ih hrest, find?_insert, find?]
    split
    · rename_i hk
      subst hk
      have hnone : find? k rest = none := by
        have hkeys := mt (mem_keys_iff k rest).2 hnot
        simpa using hkeys
      rw [hnone]
      rfl
    · rfl

theorem insert_eq_append (h : e.1 ∉ keys entries) : insert e.1 e.2 entries = entries ++ [e] := by
  induction entries with
  | nil => rfl
  | cons a rest ih =>
    obtain ⟨k, b⟩ := a
    simp only [keys, map_cons, mem_cons, not_or] at h
    simp [insert, Ne.symm h.1, ih h.2]

theorem insertAll_eq_append (h : (keys (entries ++ added)).Nodup) :
    insertAll entries added = entries ++ added := by
  induction added generalizing entries with
  | nil => simp [insertAll]
  | cons e rest ih =>
    have hnot : e.1 ∉ keys entries := fun hmem => by
      rw [keys, map_append, map_cons] at h
      exact (nodup_append.1 h).2.2 _ hmem _ mem_cons_self rfl
    rw [insertAll, foldl_cons, insert_eq_append hnot, ← insertAll, ih (by simpa using h)]
    simp

theorem ofList_eq_self (h : (entries.map Prod.fst).Nodup) : ofList entries = entries :=
  insertAll_eq_append h

end Assoc
end QueryProjection
