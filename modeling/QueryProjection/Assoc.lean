/-!
# Associations that keep their order

A list of keys with their values, in which a key stays where it first appeared and a later value
replaces an earlier one.  Objects, arguments, fields and fragments are all kept this way.

* `Assoc.find?` reads the value of a key;
* `Assoc.insert` writes one, and `Assoc.ofList` writes a whole list of them in turn.

`Assoc.find?_insert` is the law of the two, and `Assoc.keys_insert` says what becomes of the order.
-/

namespace QueryProjection
namespace Assoc

variable {κ α : Type} [DecidableEq κ]

def find? (key : κ) : List (κ × α) → Option α
  | [] => none
  | (k, a) :: rest => if k = key then some a else find? key rest

def keys (entries : List (κ × α)) : List κ :=
  entries.map Prod.fst

def contains (key : κ) (entries : List (κ × α)) : Bool :=
  (find? key entries).isSome

/-- Writes the value of a key: in place if the key is there, else at the end. -/
def insert (key : κ) (value : α) : List (κ × α) → List (κ × α)
  | [] => [(key, value)]
  | (k, a) :: rest => if k = key then (k, value) :: rest else (k, a) :: insert key value rest

def insertAll (entries added : List (κ × α)) : List (κ × α) :=
  added.foldl (fun acc e => insert e.1 e.2 acc) entries

/-- The association that a list of keys and values describes: a key keeps its first place and its
last value. -/
def ofList (entries : List (κ × α)) : List (κ × α) :=
  insertAll [] entries

theorem find?_insert (key : κ) (value : α) (entries : List (κ × α)) (k : κ) :
    find? k (insert key value entries) = if key = k then some value else find? k entries := by
  induction entries with
  | nil => rfl
  | cons e rest ih =>
    obtain ⟨l, a⟩ := e
    by_cases h : l = key
    · subst h
      by_cases h' : l = k <;> simp [insert, find?, h']
    · by_cases h' : l = k
      · subst h'
        simp [insert, find?, h, Ne.symm h]
      · simp [insert, find?, h, h', ih]

theorem mem_keys_iff (key : κ) (entries : List (κ × α)) :
    key ∈ keys entries ↔ (find? key entries).isSome = true := by
  induction entries with
  | nil => simp [keys, find?]
  | cons e rest ih =>
    obtain ⟨l, a⟩ := e
    by_cases h : l = key
    · subst h
      simp [keys, find?]
    · have h' : ¬ key = l := fun e => h e.symm
      simp only [keys, List.map_cons, List.mem_cons, h', false_or, find?, if_neg h]
      exact ih

theorem keys_insert (key : κ) (value : α) (entries : List (κ × α)) :
    keys (insert key value entries)
      = if key ∈ keys entries then keys entries else keys entries ++ [key] := by
  induction entries with
  | nil => simp [insert, keys]
  | cons e rest ih =>
    obtain ⟨l, a⟩ := e
    by_cases h : l = key
    · subst h
      simp [insert, keys]
    · have h' : ¬ key = l := fun e => h e.symm
      simp only [keys] at ih
      by_cases hm : key ∈ List.map Prod.fst rest
      · simp [insert, keys, h, h', ih, hm]
      · simp [insert, keys, h, h', ih, hm]

theorem nodup_keys_insert (key : κ) (value : α) (entries : List (κ × α))
    (h : (keys entries).Nodup) : (keys (insert key value entries)).Nodup := by
  rw [keys_insert]
  split
  · exact h
  · rename_i hm
    rw [List.nodup_append]
    refine ⟨h, by simp, ?_⟩
    intro a ha b hb hab
    rw [List.mem_singleton] at hb
    subst hb hab
    exact hm ha

theorem nodup_keys_insertAll (added entries : List (κ × α)) (h : (keys entries).Nodup) :
    (keys (insertAll entries added)).Nodup := by
  induction added generalizing entries with
  | nil => exact h
  | cons e rest ih => exact ih _ (nodup_keys_insert e.1 e.2 entries h)

theorem nodup_keys_ofList (entries : List (κ × α)) : (keys (ofList entries)).Nodup :=
  nodup_keys_insertAll entries [] (by simp [keys])

end Assoc
end QueryProjection
