import Mathlib.Data.List.Chain
import Mathlib.Data.List.Nodup
import Mathlib.Data.List.Perm.Subperm
import Mathlib.Data.List.TakeWhile
import Mathlib.Logic.Relation
import QueryProjection.Proofs.Selected

/-!
# Expanding ends, and reports only cycles that are there

`Expansion.expandAll` bounds how deep it nests spreads.  This file shows that the bound cuts nothing
off and that what is reported as a cycle of fragments is one.

* `Expansion.Expands` says what a selection set expands to without any bound: a derivation of it is
  a finite expansion, of the selection sets below the fields too;
* `Expansion.expands_iff`: every selection set has such an expansion, and it is the one that
  `Expansion.expandAll` computes;
* `Expansion.Expands.reports`: the fragments that are being expanded around a field are all
  different, and a failure that names a cycle names a cycle of spreads.

The measure is the number of fragments that are not being expanded yet.  Those that are form a chain
in which each spreads the next, so a spread of one of them closes a cycle.
-/

namespace QueryProjection

open List

/-! ## Spreads -/

namespace Selection

mutual

/-- The fragments that a selection spreads, in inline fragments and below its fields too. -/
def spreads : Selection → List String
  | .field _ _ selections => spreadsIn selections
  | .spread name _ => [name]
  | .inline _ _ selections => spreadsIn selections

/-- The same for a selection set. -/
def spreadsIn : List Selection → List String
  | [] => []
  | selection :: rest => spreads selection ++ spreadsIn rest

end

end Selection

namespace Document

/-- The fragment of the one name spreads the fragment of the other, somewhere in its selections. -/
def Spreads (document : Document) (name other : String) : Prop :=
  ∃ fragment, Assoc.find? name document.fragments = some fragment
    ∧ other ∈ Selection.spreadsIn fragment.selections

/-- No fragment spreads itself, directly or through others. -/
def Acyclic (document : Document) : Prop :=
  ∀ name, ¬ Relation.TransGen document.Spreads name name

/-- A walk along spreads from a fragment back to it. -/
structure IsCycle (document : Document) (name : String) (cycle : List String) : Prop where
  starts : cycle.head? = some name
  ends : cycle.getLast? = some name
  two : 2 ≤ cycle.length
  walk : cycle.IsChain document.Spreads

end Document

theorem transGen_of_isChain {α : Type} {r : α → α → Prop} {a b c : α} {l : List α}
    (h : (a :: b :: l).IsChain r) (hlast : (b :: l).getLast? = some c) :
    Relation.TransGen r a c := by
  induction l generalizing a b with
  | nil =>
    obtain rfl : b = c := by simpa using hlast
    exact .single (isChain_cons_cons.1 h).1
  | cons d l ih =>
    obtain ⟨hab, hrest⟩ := isChain_cons_cons.1 h
    exact .head hab (ih hrest (by simpa using hlast))

variable {name : String} {field : SelectedField} {e x : Expanded}

theorem Document.IsCycle.transGen {document : Document} {cycle : List String}
    (h : document.IsCycle name cycle) : Relation.TransGen document.Spreads name name := by
  obtain ⟨hstarts, hends, htwo, hwalk⟩ := h
  match cycle with
  | [] => exact absurd htwo (by decide)
  | [_] => exact absurd htwo (by simp)
  | first :: second :: rest =>
    obtain rfl : first = name := by simpa using hstarts
    exact transGen_of_isChain hwalk (by simpa using hends)

/-! ## Expanding without a bound -/

namespace Expansion

theorem included_of_values {expansion expansion' : Expansion}
    (hvalues : expansion'.values = expansion.values)
    (key : Option String) (directives : List Directive) :
    expansion'.included key directives = expansion.included key directives := by
  induction directives with
  | nil => rfl
  | cons directive rest ih => rw [included, included, ih, hvalues]

/-- Whether the directives on a selection let it in. -/
def admits (expansion : Expansion) : Selection → Except ExpansionError Bool
  | .field field directives _ => expansion.included (some field.responseKey) directives
  | .spread _ directives => expansion.included none directives
  | .inline _ directives _ => expansion.included none directives

/-- The fields of two parts of a selection set, one after the other. -/
def joined (first rest : Except ExpansionError (List Expanded)) :
    Except ExpansionError (List Expanded) := do
  return (← first) ++ (← rest)

theorem joined_nil (rest : Except ExpansionError (List Expanded)) :
    joined (.ok []) rest = rest := by
  cases rest <;> rfl

/-- What a selection set expands to, when spreads may nest as deep as they do. -/
inductive Expands (expansion : Expansion) :
    Origin → List String → List Selection → Except ExpansionError (List Expanded) → Prop
  | nil {origin : Origin} {active : List String} : Expands expansion origin active [] (.ok [])
  | refused {origin : Origin} {active : List String} {selection : Selection}
      {rest : List Selection} {error : ExpansionError}
      (h : expansion.admits selection = .error error) :
      Expands expansion origin active (selection :: rest) (.error error)
  | excluded {origin : Origin} {active : List String} {selection : Selection}
      {rest : List Selection} {others : Except ExpansionError (List Expanded)}
      (h : expansion.admits selection = .ok false)
      (hrest : Expands expansion origin active rest others) :
      Expands expansion origin active (selection :: rest) others
  | field {origin : Origin} {active : List String} {field : SelectedField}
      {directives : List Directive} {selections rest : List Selection}
      {below others : Except ExpansionError (List Expanded)}
      (h : expansion.admits (.field field directives selections) = .ok true)
      (hbelow : Expands expansion .direct active selections below)
      (hrest : Expands expansion origin active rest others) :
      Expands expansion origin active (.field field directives selections :: rest)
        (joined (.ok [.mk field origin active fun _ => .ofExcept below]) others)
  | inline {origin : Origin} {active : List String} {condition : Option String}
      {directives : List Directive} {selections rest : List Selection}
      {inner others : Except ExpansionError (List Expanded)}
      (h : expansion.admits (.inline condition directives selections) = .ok true)
      (hinner : Expands expansion origin active selections inner)
      (hrest : Expands expansion origin active rest others) :
      Expands expansion origin active (.inline condition directives selections :: rest)
        (joined inner others)
  | unknown {origin : Origin} {active : List String} {name : String}
      {directives : List Directive} {rest : List Selection}
      (h : expansion.admits (.spread name directives) = .ok true)
      (hfind : Assoc.find? name expansion.fragments = none) :
      Expands expansion origin active (.spread name directives :: rest)
        (.error ⟨none, .unknownFragment name⟩)
  | circular {origin : Origin} {active : List String} {name : String}
      {directives : List Directive} {rest : List Selection} {fragment : Fragment}
      (h : expansion.admits (.spread name directives) = .ok true)
      (hfind : Assoc.find? name expansion.fragments = some fragment) (hactive : name ∈ active) :
      Expands expansion origin active (.spread name directives :: rest)
        (.error ⟨none, .circularFragment name (cycleOf name active)⟩)
  | spread {origin : Origin} {active : List String} {name : String}
      {directives : List Directive} {rest : List Selection} {fragment : Fragment}
      {inner others : Except ExpansionError (List Expanded)}
      (h : expansion.admits (.spread name directives) = .ok true)
      (hfind : Assoc.find? name expansion.fragments = some fragment) (hactive : name ∉ active)
      (hinner : Expands expansion (spreadOrigin origin fragment name) (active ++ [name])
        fragment.selections inner)
      (hrest : Expands expansion origin active rest others) :
      Expands expansion origin active (.spread name directives :: rest) (joined inner others)

variable {expansion : Expansion} {enter : Enter} {origin : Origin} {active : List String}

/-! ## The bound is large enough -/

variable {name : String} {depth : Nat} {selections : List Selection}
  {result : Except ExpansionError (List Expanded)}

section Equations

variable {selection : Selection} {rest : List Selection}

theorem expandAllWith_nil : expansion.expandAllWith enter origin active [] = .ok [] := by
  rw [expandAllWith]
  rfl

theorem expandAllWith_cons :
    expansion.expandAllWith enter origin active (selection :: rest)
      = joined (expansion.expandOne enter origin active selection)
          (expansion.expandAllWith enter origin active rest) := by
  rw [expandAllWith]
  rfl

theorem expandOne_refused {error : ExpansionError} (h : expansion.admits selection = .error error) :
    expansion.expandOne enter origin active selection = .error error := by
  cases selection <;> rw [admits] at h <;> rw [expandOne, h] <;> rfl

theorem expandOne_excluded (h : expansion.admits selection = .ok false) :
    expansion.expandOne enter origin active selection = .ok [] := by
  cases selection <;> rw [admits] at h <;> rw [expandOne, h] <;> rfl

variable {directives : List Directive} {selections : List Selection}

theorem expandOne_field (h : expansion.admits (.field field directives selections) = .ok true) :
    expansion.expandOne enter origin active (.field field directives selections)
      = .ok [.mk field origin active fun _ =>
          .ofExcept (expansion.expandAllWith enter .direct active selections)] := by
  rw [admits] at h
  rw [expandOne, h]
  rfl

theorem expandOne_inline {condition : Option String}
    (h : expansion.admits (.inline condition directives selections) = .ok true) :
    expansion.expandOne enter origin active (.inline condition directives selections)
      = expansion.expandAllWith enter origin active selections := by
  rw [admits] at h
  rw [expandOne, h]
  rfl

theorem expandOne_spread (h : expansion.admits (.spread name directives) = .ok true) :
    expansion.expandOne enter origin active (.spread name directives)
      = match Assoc.find? name expansion.fragments with
        | none => .error ⟨none, .unknownFragment name⟩
        | some fragment =>
          if name ∈ active then .error ⟨none, .circularFragment name (cycleOf name active)⟩
          else enter fragment (spreadOrigin origin fragment name) (active ++ [name]) := by
  rw [admits] at h
  rw [expandOne, h]
  rfl

end Equations

theorem expands_expandAllWith
    (henter : ∀ name fragment origin, Assoc.find? name expansion.fragments = some fragment →
      name ∉ active → expansion.Expands origin (active ++ [name]) fragment.selections
        (enter fragment origin (active ++ [name]))) :
    ∀ (selections : List Selection) (origin : Origin),
      expansion.Expands origin active selections
        (expansion.expandAllWith enter origin active selections)
  | [], origin => by
    rw [expandAllWith_nil]
    exact .nil
  | selection :: rest, origin => by
    have hrest := expands_expandAllWith henter rest origin
    rw [expandAllWith_cons]
    cases hadmits : expansion.admits selection with
    | error error =>
      rw [expandOne_refused hadmits]
      exact .refused hadmits
    | ok admitted =>
      cases admitted with
      | false =>
        rw [expandOne_excluded hadmits]
        rw [joined_nil]
        exact .excluded hadmits hrest
      | true =>
        match selection with
        | .field field directives selections =>
          rw [expandOne_field hadmits]
          exact .field hadmits (expands_expandAllWith henter selections .direct) hrest
        | .inline condition directives selections =>
          rw [expandOne_inline hadmits]
          exact .inline hadmits (expands_expandAllWith henter selections origin) hrest
        | .spread name directives =>
          rw [expandOne_spread hadmits]
          cases hfind : Assoc.find? name expansion.fragments with
          | none => exact .unknown hadmits hfind
          | some fragment =>
            by_cases hactive : name ∈ active
            · simp only [if_pos hactive]
              exact .circular hadmits hfind hactive
            · simp only [if_neg hactive]
              exact .spread hadmits hfind hactive (henter _ _ _ hfind hactive) hrest

/-- The fragments in `active` are distinct fragments of the document, and `depth` more can be
entered. -/
structure Room (expansion : Expansion) (depth : Nat) (active : List String) : Prop where
  distinct : active.Nodup
  known : active ⊆ expansion.fragments.map Prod.fst
  enough : expansion.fragments.length ≤ depth + active.length

theorem room_nil : expansion.Room expansion.fragments.length [] :=
  ⟨nodup_nil, nil_subset _, Nat.le_refl _⟩

theorem Room.entered (h : expansion.Room depth active) {fragment : Fragment}
    (hfind : Assoc.find? name expansion.fragments = some fragment) (hactive : name ∉ active) :
    ∃ depth', depth = depth' + 1 ∧ expansion.Room depth' (active ++ [name]) := by
  have hname : name ∈ expansion.fragments.map Prod.fst :=
    mem_map_of_mem (Assoc.mem_of_find? hfind)
  have hdistinct : (active ++ [name]).Nodup :=
    List.Nodup.append h.distinct (nodup_singleton name) (by simpa using hactive)
  have hknown : active ++ [name] ⊆ expansion.fragments.map Prod.fst :=
    append_subset.2 ⟨h.known, by simpa using hname⟩
  -- distinct names of fragments are no more than there are fragments
  have hlength := (subperm_of_subset hdistinct hknown).length_le
  have henough := h.enough
  rw [length_append, length_singleton, length_map] at hlength
  refine ⟨depth - 1, by omega, hdistinct, hknown, ?_⟩
  rw [length_append, length_singleton]
  omega

theorem expands_enter (depth : Nat) (active : List String) (h : expansion.Room depth active)
    (selections : List Selection) (origin : Origin) :
    expansion.Expands origin active selections
      (expansion.expandAllWith (expansion.enter depth) origin active selections) := by
  induction depth generalizing active selections origin with
  | zero =>
    refine expands_expandAllWith (fun name fragment origin hfind hactive => ?_) selections origin
    obtain ⟨depth', hdepth, -⟩ := h.entered hfind hactive
    exact absurd hdepth (by omega)
  | succ depth ih =>
    refine expands_expandAllWith (fun name fragment origin hfind hactive => ?_) selections origin
    obtain ⟨depth', hdepth, hroom⟩ := h.entered hfind hactive
    obtain rfl : depth = depth' := by omega
    exact ih _ hroom fragment.selections origin

theorem Expands.eq_expandAllWith (h : expansion.Expands origin active selections result)
    (hroom : expansion.Room depth active) :
    expansion.expandAllWith (expansion.enter depth) origin active selections = result := by
  induction h generalizing depth with
  | nil => exact expandAllWith_nil
  | refused h =>
    rw [expandAllWith_cons, expandOne_refused h]
    rfl
  | excluded h _ ih =>
    rw [expandAllWith_cons, expandOne_excluded h, ih hroom, joined_nil]
  | field h _ _ ihbelow ih =>
    rw [expandAllWith_cons, expandOne_field h, ih hroom, ihbelow hroom]
  | inline h _ _ ihinner ih =>
    rw [expandAllWith_cons, expandOne_inline h, ih hroom, ihinner hroom]
  | unknown h hfind =>
    rw [expandAllWith_cons, expandOne_spread h, hfind]
    rfl
  | circular h hfind hactive =>
    rw [expandAllWith_cons, expandOne_spread h, hfind]
    simp only [if_pos hactive]
    rfl
  | spread h hfind hactive _ _ ihinner ih =>
    obtain ⟨depth', rfl, hroom'⟩ := hroom.entered hfind hactive
    rw [expandAllWith_cons, expandOne_spread h, hfind, ih hroom]
    simp only [if_neg hactive]
    rw [← ihinner hroom', enter]

/-- Every selection set has one expansion without a bound, and it is the one that is computed. -/
theorem expands_iff :
    expansion.Expands .direct [] selections result
      ↔ expansion.expandAll [] selections = result := by
  constructor
  · exact fun h => h.eq_expandAllWith room_nil
  · rintro rfl
    exact expands_enter _ [] room_nil selections .direct

end Expansion

/-! ## What an expansion reports -/

/-- The one expanded field is the other or a field below it. -/
inductive Expanded.Within : Expanded → Expanded → Prop
  | here {e : Expanded} : Within e e
  | under {e f x : Expanded} {fields : List Expanded} (hs : e.selection = .selects fields)
      (hf : f ∈ fields) (h : Within x f) : Within x e

theorem Expanded.Within.selected {f : Expanded} (hx : x.Within e) {fields : List Expanded}
    (hs : x.selection = .selects fields) (hf : f ∈ fields) : f.Within e := by
  induction hx with
  | here => exact .under hs hf .here
  | under hs' hf' _ ih => exact .under hs' hf' (ih hs)

theorem Expanded.Every.within {P : SelectedField → List Selection → Prop} (h : e.Every P)
    (hx : x.Within e) : ∃ selections, P x.field selections := by
  induction hx with
  | here => exact h.holds
  | under hs hf _ ih => exact ih (h.of_selects hs hf)

/-- If the failure names a cycle of fragments, it is one. -/
def ExpansionError.Genuine (document : Document) (error : ExpansionError) : Prop :=
  ∀ name cycle, error.cause = .circularFragment name cycle → document.IsCycle name cycle

/-- The fragments around the field are distinct, and if its selection set cannot be expanded because
of a cycle, then there is that cycle. -/
structure Expanded.Sound (document : Document) (e : Expanded) : Prop where
  distinct : e.fragments.Nodup
  genuine : ∀ error, e.selection = .failed error → error.Genuine document

/-- The fields that an expansion gives are sound, with what is below them, and so is its failure. -/
def Expansion.Reports (document : Document) : Except ExpansionError (List Expanded) → Prop
  | .ok fields => ∀ e ∈ fields, ∀ x : Expanded, x.Within e → x.Sound document
  | .error error => error.Genuine document

namespace Expansion

variable {document : Document} {supplied : Variables} {active : List String}

theorem Reports.joined {first rest : Except ExpansionError (List Expanded)}
    (hfirst : Reports document first) (hrest : Reports document rest) :
    Reports document (Expansion.joined first rest) := by
  cases first with
  | error error => exact hfirst
  | ok fields =>
    cases rest with
    | error error => exact hrest
    | ok others =>
      intro e he
      rcases mem_append.1 he with he | he
      · exact hfirst e he
      · exact hrest e he

variable {expansion : Expansion} {error : ExpansionError} {origin : Origin}

theorem genuine_of_included {key : Option String} {directives : List Directive}
    (h : expansion.included key directives = .error error) : error.Genuine document := by
  induction directives with
  | nil => cases h
  | cons directive rest ih =>
    rw [included] at h
    split at h
    · split at h
      · cases h
        exact fun _ _ hcause => nomatch hcause
      · split at h
        · cases h
          exact fun _ _ hcause => nomatch hcause
        · split at h
          · cases h
          · exact ih h
        · cases h
          exact fun _ _ hcause => nomatch hcause
    · exact ih h

theorem genuine_of_admits {selection : Selection} (h : expansion.admits selection = .error error) :
    error.Genuine document := by
  cases selection with
  | _ => exact genuine_of_included h

theorem reports_field {below : Except ExpansionError (List Expanded)} (hdistinct : active.Nodup)
    (hbelow : Reports document below) :
    Reports document (.ok [.mk field origin active fun _ => .ofExcept below]) := by
  intro e he x hx
  obtain rfl := mem_singleton.1 he
  cases hx with
  | here =>
    refine ⟨hdistinct, fun error herror => ?_⟩
    cases below with
    | ok fields => cases herror
    | error error' =>
      cases herror
      exact hbelow
  | under hs hf h =>
    cases below with
    | error error => cases hs
    | ok fields =>
      cases hs
      exact hbelow _ hf _ h

/-- A spread of a fragment that is being expanded closes a cycle. -/
theorem isCycle_cycleOf (hactive : name ∈ active)
    (hchain : (active ++ [name]).IsChain document.Spreads) :
    document.IsCycle name (cycleOf name active) := by
  have hne : active.dropWhile (· ≠ name) ≠ [] := by
    rw [Ne, dropWhile_eq_nil_iff]
    exact fun h => absurd (h name hactive) (by simp)
  obtain ⟨first, rest, hdrop⟩ := exists_cons_of_ne_nil hne
  have hfirst : first = name := by
    have h := head?_dropWhile_not (fun x => decide (x ≠ name)) active
    rw [hdrop] at h
    simpa using h
  have hsplit : active ++ [name] = active.takeWhile (· ≠ name) ++ cycleOf name active := by
    rw [cycleOf, ← append_assoc, takeWhile_append_dropWhile]
  rw [hsplit] at hchain
  refine ⟨?_, ?_, ?_, hchain.right_of_append⟩
  · rw [cycleOf, hdrop, hfirst]
    rfl
  · rw [cycleOf, getLast?_concat]
  · rw [cycleOf, hdrop]
    simp

theorem Expands.reports {selections : List Selection}
    {result : Except ExpansionError (List Expanded)}
    (h : (ofDocument document supplied).Expands origin active selections result)
    (hdistinct : active.Nodup) (hchain : ∀ name ∈ Selection.spreadsIn selections,
      (active ++ [name]).IsChain document.Spreads) : Reports document result := by
  induction h with
  | nil => exact forall_mem_nil _
  | refused h => exact genuine_of_admits h
  | excluded h _ ih =>
    exact ih hdistinct fun name hname => hchain name (mem_append_right _ hname)
  | field h _ _ ihbelow ih =>
    have hbelow := ihbelow hdistinct fun name hname => hchain name (mem_append_left _ hname)
    have hrest := ih hdistinct fun name hname => hchain name (mem_append_right _ hname)
    exact (reports_field hdistinct hbelow).joined hrest
  | inline h _ _ ihinner ih =>
    have hinner := ihinner hdistinct fun name hname => hchain name (mem_append_left _ hname)
    exact hinner.joined (ih hdistinct fun name hname => hchain name (mem_append_right _ hname))
  | unknown h hfind => exact fun _ _ hcause => nomatch hcause
  | @circular _ _ name _ _ _ h hfind hactive =>
    rintro _ _ ⟨⟩
    exact isCycle_cycleOf hactive (hchain name (mem_append_left _ (mem_singleton.2 rfl)))
  | @spread _ active name _ _ fragment _ _ h hfind hactive _ _ ihinner ih =>
    have hname := hchain name (mem_append_left _ (mem_singleton.2 rfl))
    have hdistinct' : (active ++ [name]).Nodup :=
      List.Nodup.append hdistinct (nodup_singleton name) (by simpa using hactive)
    have hinner := ihinner hdistinct' fun next hnext => by
      rw [append_assoc]
      exact isChain_append_cons_cons.2 ⟨hname, ⟨fragment, hfind, hnext⟩, isChain_singleton next⟩
    exact hinner.joined (ih hdistinct fun name hname => hchain name (mem_append_right _ hname))

/-- The cycle is reported from where it is entered, also through an inline fragment. -/
example :
    (⟨[("a", ⟨"a", "T", [.spread "b" []]⟩), ("b", ⟨"b", "T", [.inline none [] [.spread "a" []]]⟩)],
      ⟨[], []⟩⟩ : Expansion).expandAll [] [.spread "a" []]
      = .error ⟨none, .circularFragment "a" ["a", "b", "a"]⟩ := rfl

end Expansion
end QueryProjection
