import Mathlib.Data.List.Forall2
import Mathlib.Data.List.Induction
import Mathlib.Tactic.Common
import QueryProjection.Compile.Root

/-!
# Merging entries of the same response key

Fields of the same response key, up to case, are merged in two places: the fields of an operation
and the fields of a compiled selection.  Both write one entry after the other, and both keep the
place and the spelling of the first and the value of the last.  Here that is said once, for entries
of any kind.

* `Merge.write` writes one entry and `Merge.merge` a whole list of them;
* `Merge.firstSpellings` are the keys that are left, and `Merge.keys_merge` says so;
* `Merge.last?` is the value that is left of a key, and `Merge.mem_merge` says so.

`SelectionMap.fields_insert` and `mergeRoots_eq` tie the two places to this.
-/

namespace QueryProjection

open List Text

namespace Merge

variable {α β : Type}

/-! ## Keys -/

/-- Of keys that differ only in case the first one, in order. -/
def firstSpellings : List String → List String
  | [] => []
  | key :: rest => key :: (firstSpellings rest).filter fun k => !Text.sameIgnoringCase key k

variable {a b key : String} {keys : List String} {entries rest : List (String × α)}

theorem sameIgnoringCase_trans {c : String} (hab : sameIgnoringCase a b = true)
    (hbc : sameIgnoringCase b c = true) : sameIgnoringCase a c = true := by
  rw [sameIgnoringCase_iff] at *
  exact hab.trans hbc

theorem sameIgnoringCase_congr (h : sameIgnoringCase a b = true) (c : String) :
    sameIgnoringCase a c = sameIgnoringCase b c := by
  rw [sameIgnoringCase_iff] at h
  simp [sameIgnoringCase, h]

theorem firstSpellings_append_singleton (keys : List String) (key : String) :
    firstSpellings (keys ++ [key])
      = if keys.any fun k => sameIgnoringCase k key then firstSpellings keys
        else firstSpellings keys ++ [key] := by
  induction keys with
  | nil => rfl
  | cons k rest ih =>
    simp only [cons_append, firstSpellings, ih, any_cons]
    by_cases hk : sameIgnoringCase k key = true
    · simp only [hk, Bool.true_or, if_true]
      split
      · rfl
      · simp [hk]
    · by_cases hr : (rest.any fun k => sameIgnoringCase k key) = true
      · simp [hr]
      · simp [hk, hr]

theorem mem_of_mem_firstSpellings (h : key ∈ firstSpellings keys) : key ∈ keys := by
  induction keys with
  | nil => exact h
  | cons k rest ih =>
    simp only [firstSpellings, mem_cons, mem_filter] at h ⊢
    exact h.imp id fun h => ih h.1

theorem exists_mem_firstSpellings (h : key ∈ keys) :
    ∃ k ∈ firstSpellings keys, sameIgnoringCase k key = true := by
  induction keys with
  | nil => exact absurd h not_mem_nil
  | cons k rest ih =>
    by_cases hk : sameIgnoringCase k key = true
    · exact ⟨k, mem_cons_self, hk⟩
    · rcases mem_cons.1 h with rfl | h
      · exact absurd (sameIgnoringCase_refl _) hk
      · obtain ⟨l, hl, hlk⟩ := ih h
        refine ⟨l, mem_cons_of_mem _ (mem_filter.2 ⟨hl, ?_⟩), hlk⟩
        rw [Bool.not_eq_true']
        by_contra hkl
        exact hk (sameIgnoringCase_trans (Bool.not_eq_false _ ▸ hkl) hlk)

theorem pairwise_firstSpellings (keys : List String) :
    (firstSpellings keys).Pairwise fun a b => sameIgnoringCase a b = false := by
  induction keys with
  | nil => exact List.Pairwise.nil
  | cons k rest ih =>
    refine pairwise_cons.2 ⟨fun b hb => ?_, ih.filter _⟩
    simpa using (mem_filter.1 hb).2

theorem nodup_firstSpellings (keys : List String) : (firstSpellings keys).Nodup :=
  (pairwise_firstSpellings keys).imp fun h heq => by
    rw [heq, sameIgnoringCase_refl] at h
    cases h

/-! ## Entries -/

/-- Writes an entry: over the first one with the same key, or else at the end. -/
def write (key : String) (a : α) : List (String × α) → List (String × α)
  | [] => [(key, a)]
  | (k, b) :: rest =>
    if Text.sameIgnoringCase k key then (k, a) :: rest else (k, b) :: write key a rest

/-- Writes entries, one after the other. -/
def merge (entries : List (String × α)) : List (String × α) :=
  entries.foldl (fun merged e => write e.1 e.2 merged) []

/-- The value of the first entry with a key. -/
def first? (key : String) (entries : List (String × α)) : Option α :=
  (entries.find? fun e => Text.sameIgnoringCase e.1 key).map Prod.snd

/-- The value of the last entry with a key. -/
def last? (key : String) (entries : List (String × α)) : Option α :=
  first? key entries.reverse

theorem keys_write (key : String) (a : α) (entries : List (String × α)) :
    (write key a entries).map Prod.fst
      = if (entries.map Prod.fst).any fun k => sameIgnoringCase k key then
          entries.map Prod.fst
        else entries.map Prod.fst ++ [key] := by
  induction entries with
  | nil => rfl
  | cons e rest ih =>
    obtain ⟨k, b⟩ := e
    by_cases hk : sameIgnoringCase k key = true
    · simp [write, hk]
    · have hwrite : write key a ((k, b) :: rest) = (k, b) :: write key a rest := by
        simp [write, hk]
      simp only [hwrite, map_cons, any_cons, hk, Bool.false_or, ih]
      split <;> rfl

theorem mem_write {a : α} {e : String × α} (h : e ∈ write key a entries) :
    e ∈ entries ∨ e.2 = a := by
  induction entries with
  | nil => exact .inr (mem_singleton.1 h ▸ rfl)
  | cons f rest ih =>
    obtain ⟨k, b⟩ := f
    rw [write] at h
    split at h
    · rcases mem_cons.1 h with rfl | h
      · exact .inr rfl
      · exact .inl (mem_cons_of_mem _ h)
    · rcases mem_cons.1 h with rfl | h
      · exact .inl mem_cons_self
      · exact (ih h).imp_left (mem_cons_of_mem _)

theorem write_append_of_any {a : α} (h : (entries.map Prod.fst).any fun k =>
      sameIgnoringCase k key) :
    write key a (entries ++ rest) = write key a entries ++ rest := by
  induction entries with
  | nil => cases h
  | cons e entries ih =>
    obtain ⟨k, b⟩ := e
    by_cases hk : sameIgnoringCase k key = true
    · simp [write, hk]
    · have hany : (entries.map Prod.fst).any fun k => sameIgnoringCase k key := by
        simpa [hk] using h
      simp [write, hk, ih hany]

theorem write_append_of_not_any {a : α}
    (h : ¬ (entries.map Prod.fst).any fun k => sameIgnoringCase k key) :
    write key a (entries ++ rest) = entries ++ write key a rest := by
  induction entries with
  | nil => rfl
  | cons e entries ih =>
    obtain ⟨k, b⟩ := e
    rw [map_cons, any_cons, Bool.or_eq_true, not_or] at h
    simp [write, h.1, ih h.2]

theorem forall₂_write {R : α → β → Prop} {entries' : List (String × β)}
    (h : Forall₂ (fun x y => x.1 = y.1 ∧ R x.2 y.2) entries entries') (key : String) {a : α} {b : β}
    (hab : R a b) :
    Forall₂ (fun x y => x.1 = y.1 ∧ R x.2 y.2) (write key a entries) (write key b entries') := by
  induction h with
  | nil => exact .cons ⟨rfl, hab⟩ .nil
  | cons hxy hrest ih =>
    rw [write, write, ← hxy.1]
    split
    · exact .cons ⟨rfl, hab⟩ hrest
    · exact .cons ⟨rfl, hxy.2⟩ ih

theorem first?_write (key : String) (a : α) (entries : List (String × α)) (k : String) :
    first? k (write key a entries)
      = if sameIgnoringCase key k then some a else first? k entries := by
  induction entries with
  | nil => by_cases h : sameIgnoringCase key k = true <;> simp [write, first?, h]
  | cons e rest ih =>
    obtain ⟨l, b⟩ := e
    simp only [first?] at ih ⊢
    by_cases hl : sameIgnoringCase l key = true
    · have hlk := sameIgnoringCase_congr hl k
      by_cases h : sameIgnoringCase key k = true
      · simp [write, hl, hlk, h]
      · simp [write, hl, hlk, h]
    · by_cases h : sameIgnoringCase l k = true
      · have hk : ¬ sameIgnoringCase key k = true := fun hk =>
          hl (sameIgnoringCase_trans h (sameIgnoringCase_comm key k ▸ hk))
        simp [write, hl, h, hk]
      · simpa [write, hl, h] using ih

theorem map_write (f : α → β) (key : String) (a : α) (entries : List (String × α)) :
    (write key a entries).map (Prod.map id f) = write key (f a) (entries.map (Prod.map id f)) := by
  induction entries with
  | nil => rfl
  | cons e rest ih =>
    obtain ⟨k, b⟩ := e
    by_cases h : sameIgnoringCase k key = true <;> simp [write, h, ih]

variable (entries)

theorem merge_append_singleton (e : String × α) :
    merge (entries ++ [e]) = write e.1 e.2 (merge entries) := by
  simp [merge, foldl_append]

theorem map_merge (f : α → β) :
    (merge entries).map (Prod.map id f) = merge (entries.map (Prod.map id f)) := by
  induction entries using reverseRecOn with
  | nil => rfl
  | append_singleton entries e ih =>
    rw [map_append, map_singleton, merge_append_singleton, merge_append_singleton, map_write, ih]
    rfl

theorem any_same_iff_merge (key : String) :
    ((merge entries).map Prod.fst).any (fun k => sameIgnoringCase k key)
      = (entries.map Prod.fst).any fun k => sameIgnoringCase k key := by
  induction entries using reverseRecOn with
  | nil => rfl
  | append_singleton entries e ih =>
    rw [merge_append_singleton, keys_write, map_append, any_append, ← ih]
    split
    · rename_i h
      rw [any_eq_true] at h
      obtain ⟨k, hk, hke⟩ := h
      by_cases he : sameIgnoringCase e.1 key = true
      · have hany : ((merge entries).map Prod.fst).any
            (fun k => sameIgnoringCase k key) = true :=
          any_eq_true.2 ⟨k, hk, sameIgnoringCase_trans hke he⟩
        rw [hany, Bool.true_or]
      · simp [he]
    · simp

theorem keys_merge : (merge entries).map Prod.fst = firstSpellings (entries.map Prod.fst) := by
  induction entries using reverseRecOn with
  | nil => rfl
  | append_singleton entries e ih =>
    rw [merge_append_singleton, keys_write, any_same_iff_merge, map_append,
      map_singleton, firstSpellings_append_singleton, ih]

theorem isEmpty_merge : (merge entries).isEmpty = entries.isEmpty := by
  have hkeys := congrArg isEmpty (keys_merge entries)
  rw [isEmpty_map] at hkeys
  rw [hkeys]
  cases entries <;> rfl

theorem first?_merge (key : String) : first? key (merge entries) = last? key entries := by
  induction entries using reverseRecOn with
  | nil => rfl
  | append_singleton entries e ih =>
    rw [merge_append_singleton, first?_write, ih]
    simp only [last?, reverse_append, reverse_singleton, singleton_append, first?, find?_cons]
    split <;> simp_all

variable {entries}

theorem last?_map (f : α → β) (key : String) (entries : List (String × α)) :
    last? key (entries.map (Prod.map id f)) = (last? key entries).map f := by
  simp only [last?, first?, ← map_reverse, find?_map, Option.map_map]
  rfl

theorem mem_iff_first? (h : (entries.map Prod.fst).Pairwise fun a b => sameIgnoringCase a b = false)
    (key : String)
    (a : α) : (key, a) ∈ entries ↔ key ∈ entries.map Prod.fst ∧ first? key entries = some a := by
  induction entries with
  | nil => simp
  | cons e rest ih =>
    obtain ⟨k, b⟩ := e
    rw [map_cons, pairwise_cons] at h
    by_cases hk : sameIgnoringCase k key = true
    · have hrest : key ∉ rest.map Prod.fst := fun hmem => by
        simpa [hk] using h.1 key hmem
      have hnot : (key, a) ∉ rest := fun hmem => hrest (mem_map_of_mem hmem)
      simp only [mem_cons, Prod.mk.injEq, hnot, or_false, map_cons, hrest, first?,
        find?_cons, hk, Option.map_some, Option.some.injEq]
      exact and_congr_right fun _ => eq_comm
    · have hne : key ≠ k := fun heq => hk (heq ▸ sameIgnoringCase_refl _)
      have hfirst : first? key ((k, b) :: rest) = first? key rest := by
        simp [first?, hk]
      rw [hfirst]
      simpa [hne] using ih h.2

theorem mem_merge {a : α} :
    (key, a) ∈ merge entries
      ↔ key ∈ firstSpellings (entries.map Prod.fst) ∧ last? key entries = some a := by
  rw [mem_iff_first? (keys_merge entries ▸ pairwise_firstSpellings _), keys_merge, first?_merge]

theorem mem_of_last? {a : α} (h : last? key entries = some a) :
    ∃ k, (k, a) ∈ entries ∧ sameIgnoringCase k key = true := by
  simp only [last?, first?, Option.map_eq_some_iff] at h
  obtain ⟨e, he, rfl⟩ := h
  have hmem := mem_of_find?_eq_some he
  exact ⟨e.1, mem_reverse.1 hmem, by simpa using find?_some he⟩

end Merge

/-! ## The two places -/

theorem SelectionMap.insertInto_eq_write (key : String) (e : Expr)
    (fields : List (String × Expr)) :
    SelectionMap.insertInto key e fields = Merge.write key e fields := by
  induction fields with
  | nil => rfl
  | cons f rest ih => simp [SelectionMap.insertInto, Merge.write, ih]

theorem SelectionMap.fields_insert (map : SelectionMap) (key : String) (e : Expr) :
    (map.insert key e).fields = Merge.write key e map.fields :=
  SelectionMap.insertInto_eq_write key e map.fields

/-- A field of an operation as an entry under its response key. -/
def RootField.entry (root : RootField) : String × Expanded :=
  (root.responseKey, root.field)

/-- A field of a selection as an entry under its response key. -/
def Expanded.entry (field : Expanded) : String × Expanded :=
  (field.field.responseKey, field)

namespace Compiler

theorem mergeRoot_eq_write (field : Expanded) (roots : List RootField) :
    (mergeRoot field roots).map RootField.entry
      = Merge.write field.field.responseKey field (roots.map RootField.entry) := by
  induction roots with
  | nil => rfl
  | cons root rest ih =>
    simp only [mergeRoot, map_cons, RootField.entry, Merge.write]
    split
    · rfl
    · rw [map_cons, ih]
      rfl

theorem mergeRoots_eq (fields : List Expanded) :
    (fields.foldl (fun roots field => mergeRoot field roots) []).map RootField.entry
      = Merge.merge (fields.map Expanded.entry) := by
  induction fields using reverseRecOn with
  | nil => rfl
  | append_singleton fields field ih =>
    rw [foldl_append, map_append, map_singleton, Merge.merge_append_singleton, ← ih]
    exact mergeRoot_eq_write field _

variable {expansion : Expansion} {document : Document}

theorem rootFields_eq_ok {roots : List RootField} (h : rootFields expansion document = .ok roots) :
    ∃ fields, expansion.expandAll [] document.selections = .ok fields
      ∧ roots.map RootField.entry = Merge.merge (fields.map Expanded.entry) := by
  unfold rootFields at h
  split at h
  · cases h
  · rename_i fields hfields
    cases h
    exact ⟨fields, hfields, mergeRoots_eq fields⟩

theorem rootFields_of_expandAll {fields : List Expanded}
    (h : expansion.expandAll [] document.selections = .ok fields) :
    ∃ roots, rootFields expansion document = .ok roots
      ∧ roots.map RootField.entry = Merge.merge (fields.map Expanded.entry) := by
  unfold rootFields
  rw [h]
  exact ⟨_, rfl, mergeRoots_eq fields⟩

section Merged

variable {roots : List RootField} {fields : List Expanded}
  (h : roots.map RootField.entry = Merge.merge (fields.map Expanded.entry))

include h

theorem keys_of_merge :
    roots.map RootField.responseKey
      = Merge.firstSpellings (fields.map fun field => field.field.responseKey) := by
  have hkeys := Merge.keys_merge (fields.map Expanded.entry)
  rw [← h, map_map, map_map] at hkeys
  exact hkeys

variable {root : RootField}

theorem last?_of_merge (hroot : root ∈ roots) :
    Merge.last? root.responseKey (fields.map Expanded.entry) = some root.field :=
  (Merge.mem_merge.1 (h ▸ mem_map_of_mem hroot)).2

theorem mem_of_merge (hroot : root ∈ roots) : root.field ∈ fields := by
  obtain ⟨key, hmem, -⟩ := Merge.mem_of_last? (last?_of_merge h hroot)
  obtain ⟨field, hfield, heq⟩ := mem_map.1 hmem
  obtain rfl : field = root.field := (Prod.mk.inj heq).2
  exact hfield

end Merged

end Compiler
end QueryProjection
