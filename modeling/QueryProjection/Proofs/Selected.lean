import QueryProjection.Proofs.Assoc
import QueryProjection.Proofs.Compile.Outcome

/-!
# The selected fields of a document

What a theorem assumes about a document it assumes of the fields selected in it, and it needs it of
the fields that the document's selections expand to.

* `Document.Every P` says that `P` holds of every field of a document, in the operation and in the
  fragments, with the selections below it;
* `Expanded.Every P` says it of an expanded field and of everything below it;
* `Expansion.every_of_expandAll` leads from the one to the other.
-/

namespace QueryProjection

variable {P : SelectedField → List Selection → Prop}

mutual

/-- `P` holds of every field of a selection and the selections below that field. -/
def Selection.Every (P : SelectedField → List Selection → Prop) : Selection → Prop
  | .field selected _ selections => P selected selections ∧ Selection.EveryIn P selections
  | .spread _ _ => True
  | .inline _ _ selections => Selection.EveryIn P selections

/-- The same for a selection set. -/
def Selection.EveryIn (P : SelectedField → List Selection → Prop) : List Selection → Prop
  | [] => True
  | selection :: rest => selection.Every P ∧ Selection.EveryIn P rest

end

/-- `P` holds of every field of a document and the selections below that field. -/
structure Document.Every (P : SelectedField → List Selection → Prop) (document : Document) :
    Prop where
  selections : Selection.EveryIn P document.selections
  fragments : ∀ f ∈ document.fragments, Selection.EveryIn P f.2.selections

variable {Q : SelectedField → List Selection → Prop}

mutual

theorem Selection.Every.imp (hPQ : ∀ field selections, P field selections → Q field selections) :
    ∀ {selection : Selection}, selection.Every P → selection.Every Q
  | .field _ _ _, h => ⟨hPQ _ _ h.1, Selection.EveryIn.imp hPQ h.2⟩
  | .spread _ _, _ => trivial
  | .inline _ _ _, h => Selection.EveryIn.imp hPQ h

theorem Selection.EveryIn.imp (hPQ : ∀ field selections, P field selections → Q field selections) :
    ∀ {selections : List Selection}, Selection.EveryIn P selections → Selection.EveryIn Q selections
  | [], _ => trivial
  | _ :: _, h => ⟨Selection.Every.imp hPQ h.1, Selection.EveryIn.imp hPQ h.2⟩

end

theorem Document.Every.imp (hPQ : ∀ field selections, P field selections → Q field selections)
    {document : Document} (h : document.Every P) : document.Every Q :=
  ⟨h.selections.imp hPQ, fun f hf => (h.fragments f hf).imp hPQ⟩

/-- `P` holds of an expanded field and of every field below it.  A field that has no selections
expands to one that selects nothing. -/
inductive Expanded.Every (P : SelectedField → List Selection → Prop) : Expanded → Prop
  | intro {e : Expanded} (selections : List Selection) (holds : P e.field selections)
      (empty : selections = [] → e.selection = .selects [])
      (below : ∀ fields, e.selection = .selects fields → ∀ f ∈ fields, Expanded.Every P f) :
      Expanded.Every P e

namespace Expanded.Every

variable {e : Expanded}

theorem holds (h : e.Every P) : ∃ selections, P e.field selections :=
  let .intro selections holds _ _ := h
  ⟨selections, holds⟩

theorem of_selects (h : e.Every P) {fields : List Expanded} (hs : e.selection = .selects fields)
    {f : Expanded} (hf : f ∈ fields) : f.Every P :=
  let .intro _ _ _ below := h
  below fields hs f hf

theorem imp (hPQ : ∀ field selections, P field selections → Q field selections) (h : e.Every P) :
    e.Every Q := by
  induction h with
  | intro selections holds empty _ ih => exact .intro selections (hPQ _ _ holds) empty ih

end Expanded.Every

namespace Expansion

/-- Expanding a fragment of the document gives fields of which `P` holds. -/
def EntersEvery (P : SelectedField → List Selection → Prop) (expansion : Expansion)
    (enter : Enter) : Prop :=
  ∀ f ∈ expansion.fragments, ∀ origin active fields,
    enter f.2 origin active = .ok fields → ∀ e ∈ fields, e.Every P

variable {expansion : Expansion} {enter : Enter}

mutual

theorem every_of_expandOne (henter : expansion.EntersEvery P enter) :
    ∀ (selection : Selection), selection.Every P → ∀ origin active fields,
      expansion.expandOne enter origin active selection = .ok fields → ∀ e ∈ fields, e.Every P
  | .field field directives selections, h, origin, active, fields, hok => by
    rw [Selection.Every] at h
    rw [expandOne] at hok
    cases hinc : expansion.included (some field.responseKey) directives with
    | error e => rw [hinc] at hok; cases hok
    | ok included =>
      rw [hinc] at hok
      cases included with
      | false => cases hok; simp
      | true =>
        cases hok
        intro e he
        obtain rfl := List.mem_singleton.1 he
        refine .intro selections h.1 (fun hnil => ?_) fun below hbelow => ?_
        · subst hnil
          simp [Expanded.selection, expandAllWith, ExpandedSelection.ofExcept, pure, Except.pure]
        · have hsel : expansion.expandAllWith enter .direct active selections = .ok below := by
            simp only [Expanded.selection] at hbelow
            cases hx : expansion.expandAllWith enter .direct active selections with
            | error e => simp [hx, ExpandedSelection.ofExcept] at hbelow
            | ok fields => simpa [hx, ExpandedSelection.ofExcept] using hbelow
          exact every_of_expandAllWith henter selections h.2 .direct active below hsel
  | .spread name directives, h, origin, active, fields, hok => by
    rw [expandOne] at hok
    cases hinc : expansion.included none directives with
    | error e => rw [hinc] at hok; cases hok
    | ok included =>
      rw [hinc] at hok
      cases included with
      | false => cases hok; simp
      | true =>
        simp only [bind, Except.bind, ↓reduceIte] at hok
        split at hok
        · cases hok
        · rename_i fragment hfind
          split at hok
          · cases hok
          · exact henter _ (Assoc.mem_of_find? hfind) _ _ _ hok
  | .inline condition directives selections, h, origin, active, fields, hok => by
    rw [Selection.Every] at h
    rw [expandOne] at hok
    cases hinc : expansion.included none directives with
    | error e => rw [hinc] at hok; cases hok
    | ok included =>
      rw [hinc] at hok
      cases included with
      | false => cases hok; simp
      | true => exact every_of_expandAllWith henter selections h origin active fields hok

theorem every_of_expandAllWith (henter : expansion.EntersEvery P enter) :
    ∀ (selections : List Selection), Selection.EveryIn P selections → ∀ origin active fields,
      expansion.expandAllWith enter origin active selections = .ok fields →
        ∀ e ∈ fields, e.Every P
  | [], _, origin, active, fields, hok => by
    rw [expandAllWith] at hok
    cases hok
    simp
  | selection :: rest, h, origin, active, fields, hok => by
    rw [Selection.EveryIn] at h
    rw [expandAllWith] at hok
    cases hone : expansion.expandOne enter origin active selection with
    | error e => rw [hone] at hok; cases hok
    | ok first =>
      cases hrest : expansion.expandAllWith enter origin active rest with
      | error e => rw [hone, hrest] at hok; cases hok
      | ok others =>
        rw [hone, hrest] at hok
        cases hok
        intro e he
        rcases List.mem_append.1 he with he | he
        · exact every_of_expandOne henter selection h.1 origin active first hone e he
        · exact every_of_expandAllWith henter rest h.2 origin active others hrest e he

end

theorem entersEvery (h : ∀ f ∈ expansion.fragments, Selection.EveryIn P f.2.selections)
    (depth : Nat) : expansion.EntersEvery P (expansion.enter depth) := by
  induction depth with
  | zero =>
    intro f hf origin active fields hok
    cases hok
    simp
  | succ depth ih =>
    intro f hf origin active fields hok
    exact every_of_expandAllWith ih _ (h f hf) origin active fields hok

theorem every_of_expandAll {document : Document} {supplied : Variables} (h : document.Every P)
    {fields : List Expanded}
    (hok : (ofDocument document supplied).expandAll [] document.selections = .ok fields) :
    ∀ e ∈ fields, e.Every P :=
  every_of_expandAllWith (entersEvery h.fragments _) _ h.selections _ _ _ hok

end Expansion
end QueryProjection
