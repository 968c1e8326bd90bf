import QueryProjection.Proofs.SelectionMap

/-!
# Sequences of insertions

A selection map starts empty and is changed in three ways: a field is written, a field is written if
no field answers to its key, and a field is fetched for another one.  Whatever the sequence, the map
is an index of its fields by the lower case of their names: no two names differ in case only, and a
field is found by exactly the keys that differ from its name in case only.  The names are the first
spellings of the keys that were used, in the order of their first use.

* `Insertion` is one change, and `Insertion.sequence` a sequence of them with the keys that they
  used;
* `Insertion.names_apply` says what one change does to the names, and `Insertion.names_sequence`
  what all of them do;
* `SelectionMap.Distinct.field?_eq_some_iff` says which keys a field answers to.

The last theorem puts this together with what a fetched field finds in such a map.  A fetched field
chooses its key itself, and only looking at the map tells which; so a sequence keeps the keys that
were used beside the map, and the names can be said in terms of these, without the expressions.
-/

namespace QueryProjection

open SelectionMap Text

/-! ## Names -/

namespace Merge

theorem any_firstSpellings (keys : List String) (key : String) :
    (firstSpellings keys).any (sameIgnoringCase · key) = keys.any (sameIgnoringCase · key) := by
  rw [Bool.eq_iff_iff, List.any_eq_true, List.any_eq_true]
  constructor
  · rintro ⟨k, hk, hsame⟩
    exact ⟨k, mem_of_mem_firstSpellings hk, hsame⟩
  · rintro ⟨k, hk, hsame⟩
    obtain ⟨first, hfirst, hk⟩ := exists_mem_firstSpellings hk
    exact ⟨first, hfirst, sameIgnoringCase_trans hk hsame⟩

end Merge

namespace SelectionMap

variable {map : SelectionMap} {key : String} {e : Expr}

/-- The names of the fields, in order. -/
def names (map : SelectionMap) : List String :=
  map.fields.map Prod.fst

variable {f : String × Expr}

theorem any_names_of_field? (h : map.field? key = some f) :
    map.names.any (sameIgnoringCase · key) = true :=
  List.any_eq_true.2 ⟨f.1, List.mem_map_of_mem (List.mem_of_find?_eq_some h), same_of_field? h⟩

theorem names_insert (map : SelectionMap) (key : String) (e : Expr) :
    (map.insert key e).names
      = if map.names.any (sameIgnoringCase · key) then map.names else map.names ++ [key] := by
  rw [names, fields_insert, Merge.keys_write]
  rfl

theorem Distinct.field?_eq_some_iff (h : map.Distinct) (hf : f ∈ map.fields) (key : String) :
    map.field? key = some f ↔ foldCase key = foldCase f.1 := by
  constructor
  · intro hfind
    exact ((sameIgnoringCase_iff _ _).1 (same_of_field? hfind)).symm
  · intro hkey
    have hsame : sameIgnoringCase f.1 key = true := (sameIgnoringCase_iff _ _).2 hkey.symm
    obtain ⟨before, after, hfields⟩ := List.append_of_mem hf
    rw [Distinct, hfields, List.map_append, List.map_cons, List.pairwise_append] at h
    -- No field before this one answers to the key, since it would differ from this one in case
    -- only.
    have hbefore : before.find? (fun g => sameIgnoringCase g.1 key) = none := by
      refine List.find?_eq_none.2 fun g hg hgkey => ?_
      have hne := h.2.2 g.1 (List.mem_map_of_mem hg) f.1 List.mem_cons_self
      rw [sameIgnoringCase_comm f.1 key] at hsame
      rw [Merge.sameIgnoringCase_trans hgkey hsame] at hne
      cases hne
    rw [field?, hfields, List.find?_append, hbefore, Option.none_or, List.find?_cons, hsame]

end SelectionMap

/-! ## Insertions -/

/-- One way of changing a selection map. -/
inductive Insertion where
  | write (name : String) (expression : Expr)
  /-- Writes a field unless one answers to the name. -/
  | ifAbsent (name : String) (expression : Expr)
  /-- Fetches a field for another one. -/
  | fetch (name : String) (expression : Expr)

namespace Insertion

/-- The key that an insertion ends up under, and the map that it leaves. -/
def apply (map : SelectionMap) : Insertion → String × SelectionMap
  | .write name e => (name, map.insert name e)
  | .ifAbsent name e => (name, (map.insertIfAbsent name e).2)
  | .fetch name e => map.insertFetched name e

/-- The keys that a sequence of insertions ends up under, and the map that it leaves of the empty
one. -/
def sequence (insertions : List Insertion) : List String × SelectionMap :=
  insertions.foldl (fun state i => (state.1 ++ [(i.apply state.2).1], (i.apply state.2).2)) ([], {})

theorem sequence_append_singleton (insertions : List Insertion) (i : Insertion) :
    sequence (insertions ++ [i])
      = ((sequence insertions).1 ++ [(i.apply (sequence insertions).2).1],
        (i.apply (sequence insertions).2).2) := by
  rw [sequence, List.foldl_append]
  rfl

theorem names_apply (map : SelectionMap) (i : Insertion) :
    (i.apply map).2.names
      = if map.names.any (sameIgnoringCase · (i.apply map).1) then map.names
        else map.names ++ [(i.apply map).1] := by
  cases i with
  | write name e => exact names_insert map name e
  | ifAbsent name e =>
    rw [apply, insertIfAbsent, contains]
    cases h : map.field? name with
    | none => exact names_insert map name e
    | some f => exact (if_pos (any_names_of_field? h)).symm
  | fetch name e =>
    rcases (map.probes_insertFetched name e).ends with ⟨i, -, heq⟩ | ⟨i, f, hf, -, heq⟩
    · rw [apply, heq]
      exact names_insert map _ e
    · rw [apply, heq]
      exact (if_pos (any_names_of_field? (field?_spelling hf))).symm

theorem names_sequence (insertions : List Insertion) :
    (sequence insertions).2.names = Merge.firstSpellings (sequence insertions).1 := by
  induction insertions using List.reverseRecOn with
  | nil => rfl
  | append_singleton insertions i ih =>
    rw [sequence_append_singleton]
    dsimp only
    rw [names_apply, Merge.firstSpellings_append_singleton, ih, Merge.any_firstSpellings]

theorem distinct_sequence (insertions : List Insertion) : (sequence insertions).2.Distinct := by
  show (sequence insertions).2.names.Pairwise _
  rw [names_sequence]
  exact Merge.pairwise_firstSpellings _

end Insertion

namespace SelectionMap

/-- **A selection map is an index by the lower case of names, and nothing fetched displaces a
field.**  After any sequence of insertions, the search for a key to fetch a field under ends; it
leaves the fields that are there as they are, adds at most one behind them, and the key that it
gives back leads to an expression that is the same as the one to be fetched. -/
theorem fields_filed_and_kept (insertions : List Insertion) (keys : List String)
    (map : SelectionMap) (h : Insertion.sequence insertions = (keys, map)) :
    map.names.Pairwise (fun a b => Text.sameIgnoringCase a b = false)
      ∧ (∀ f ∈ map.fields, ∀ key, map.field? key = some f ↔ Text.foldCase key = Text.foldCase f.1)
      ∧ map.names = Merge.firstSpellings keys
      ∧ ∀ name e, map.Probes name e 0 (map.insertFetched name e)
        ∧ (∃ added, (map.insertFetched name e).2.fields = map.fields ++ added ∧ added.length ≤ 1)
        ∧ ∃ found, (map.insertFetched name e).2.get? (map.insertFetched name e).1 = some found
          ∧ found.same e = true := by
  have hdistinct := Insertion.distinct_sequence insertions
  have hnames := Insertion.names_sequence insertions
  rw [h] at hdistinct hnames
  refine ⟨hdistinct, fun f hf => hdistinct.field?_eq_some_iff hf, hnames, fun name e => ?_⟩
  have hprobes := map.probes_insertFetched name e
  refine ⟨hprobes, ?_, ?_⟩
  · rcases hprobes.ends with ⟨i, hfree, heq⟩ | ⟨i, f, -, -, heq⟩
    · rw [heq, fields_insert, write_of_field?_eq_none hfree]
      exact ⟨_, rfl, Nat.le_refl 1⟩
    · rw [heq]
      exact ⟨[], (List.append_nil _).symm, Nat.zero_le 1⟩
  · obtain ⟨found, hfound, hsame, -⟩ := map.field?_insertFetched name e
    exact ⟨found, by rw [get?, hfound]; rfl, hsame⟩

end SelectionMap

/-! A person whose identity is selected as `name`, and whose age under the key that a fetched name
would get next. -/

namespace Disguised

def person : Parameter := ⟨0, "person", .object "Person"⟩

def identity : Expr := .member (.parameter person) "id" .id

def age : Expr := .member (.parameter person) "age" .int

def name : Expr := .member (.parameter person) "name" .string

def insertions : List Insertion :=
  [.write "name" age, .write "__dep_name" age, .ifAbsent "__DEP_name" name, .write "Name" identity,
    .fetch "id" identity, .fetch "NAME" identity]

def selected : SelectionMap := (Insertion.sequence insertions).2

end Disguised

open Disguised in
/-- The name is fetched under the third key that is tried, and the fields stay what they were. -/
theorem disguised_filed_and_kept :
    (Insertion.sequence insertions).1 = ["name", "__dep_name", "__DEP_name", "Name", "id", "name"]
      ∧ selected.names = ["name", "__dep_name", "id"]
      ∧ selected.names = Merge.firstSpellings ["name", "__dep_name", "__DEP_name",
        "Name", "id", "name"]
      ∧ selected.names.Pairwise (fun a b => Text.sameIgnoringCase a b = false)
      ∧ ("name", identity) ∈ selected.fields
      ∧ (∀ key, selected.field? key = some ("name", identity)
        ↔ Text.foldCase key = Text.foldCase "name")
      ∧ (selected.insertFetched "name" name).1 = "__dep_name_2"
      ∧ selected.Probes "name" name 0 (selected.insertFetched "name" name)
      ∧ (∃ added, (selected.insertFetched "name" name).2.fields = selected.fields ++ added
        ∧ added.length ≤ 1)
      ∧ ∃ found, (selected.insertFetched "name" name).2.get? "__dep_name_2" = some found
      ∧ found.same name = true := by
  have hkeys :
      (Insertion.sequence insertions).1 = ["name", "__dep_name", "__DEP_name",
        "Name", "id", "name"] := by
    decide +kernel
  have hkey : (selected.insertFetched "name" name).1 = "__dep_name_2" := by decide +kernel
  have hmem : ("name", identity) ∈ selected.fields := List.mem_cons_self
  obtain ⟨hdistinct, hfiled, hnames, hfetch⟩ :=
    SelectionMap.fields_filed_and_kept insertions _ selected (Prod.ext hkeys rfl)
  obtain ⟨hprobes, hadded, hfound⟩ := hfetch "name" name
  rw [hkey] at hfound
  exact ⟨hkeys, by decide +kernel, hnames, hdistinct, hmem, hfiled _ hmem, hkey, hprobes,
    hadded, hfound⟩

end QueryProjection
