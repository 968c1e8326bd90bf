import QueryProjection.Proofs.Rearranged.Tree

/-!
# Documents that differ in keys and order

A document is rearranged by giving other response keys to its fields, or by putting the entries of
its selection sets in another order, in the operation and in every fragment.  What it expands to is
matched with what the original expands to, and fails where the original fails:

* `Selection.Rearranged` and `Document.Rearranged` relate documents, and `Document.rebuilt` gives
  examples;
* `Document.Rearranged.expandAll` relates what they expand to.
-/

namespace QueryProjection

open ExpandedSelection Expansion List Selection

/-- The selection is the other one, perhaps with other response keys and with its selection sets in
another order. -/
inductive Selection.Rearranged (r : Rearrangement) : Selection → Selection → Prop
  | field {field field' : SelectedField} {directives : List Directive}
      {selections ordered selections' : List Selection} (own : field.Matched r field')
      (order : r.Order selections ordered) (below : Forall₂ (Rearranged r) ordered selections') :
      Rearranged r (.field field directives selections) (.field field' directives selections')
  | spread {name : String} {directives : List Directive} :
      Rearranged r (.spread name directives) (.spread name directives)
  | inline {condition : Option String} {directives : List Directive}
      {selections ordered selections' : List Selection} (order : r.Order selections ordered)
      (below : Forall₂ (Rearranged r) ordered selections') :
      Rearranged r (.inline condition directives selections)
        (.inline condition directives selections')

/-- The fragment is the other one with its selections rearranged. -/
structure Fragment.Rearranged (r : Rearrangement) (fragment fragment' : Fragment) : Prop where
  name : fragment'.name = fragment.name
  typeCondition : fragment'.typeCondition = fragment.typeCondition
  selections : r.Arranged (Selection.Rearranged r) fragment.selections fragment'.selections

/-- The document is the other one with the selections of the operation and of the fragments
rearranged. -/
structure Document.Rearranged (r : Rearrangement) (document document' : Document) : Prop where
  name : document'.name = document.name
  declarations : document'.declarations = document.declarations
  selections : r.Arranged (Selection.Rearranged r) document.selections document'.selections
  fragments : Forall₂ (fun f f' => f.1 = f'.1 ∧ f.2.Rearranged r f'.2) document.fragments
    document'.fragments

/-- No two fields of a selection set that the document expands to have the same response key up to
case. -/
def Document.Unambiguous (document : Document) (supplied : Variables) : Prop :=
  ∀ fields, (ofDocument document supplied).expandAll [] document.selections = .ok fields →
    Text.Apart (fields.map Expanded.responseKey) ∧ ∀ f ∈ fields, f.Unambiguous

variable {e : Expanded} {selections : List Selection} {r : Rearrangement}

theorem Expanded.unambiguous_iff_selects :
    e.Unambiguous ↔ ∀ fields, e.selection = .selects fields →
      Text.Apart (fields.map Expanded.responseKey) ∧ ∀ f ∈ fields, f.Unambiguous := by
  refine ⟨fun h fields hsel => ⟨h.apart hsel, fun f hf => h.of_selects hsel hf⟩, fun h x hx => ?_⟩
  cases hx with
  | here => exact fun fields hsel => (h fields hsel).1
  | under hsel hf hx => exact (h _ hsel).2 _ hf x hx

instance : DecidablePred Text.Apart := fun keys =>
  inferInstanceAs (Decidable (keys.Pairwise fun a b => Text.sameIgnoringCase a b = false))

mutual

/-- Whether no two fields of a selection set below the field have the same response key up to
case. -/
def Expanded.unambiguous : Expanded → Bool
  | .mk _ _ _ selection => ExpandedSelection.unambiguous (selection ())

/-- The same for the selection set itself and those below it. -/
def ExpandedSelection.unambiguous : ExpandedSelection → Bool
  | .selects fields =>
    decide (Text.Apart (fields.map Expanded.responseKey)) && Expanded.allUnambiguous fields
  | .failed _ => true

/-- The same for the selection sets below several fields. -/
def Expanded.allUnambiguous : List Expanded → Bool
  | [] => true
  | e :: rest => e.unambiguous && Expanded.allUnambiguous rest

end

theorem Expanded.allUnambiguous_iff {fields : List Expanded} :
    Expanded.allUnambiguous fields = true ↔ ∀ f ∈ fields, f.unambiguous = true := by
  induction fields with
  | nil => simp [Expanded.allUnambiguous]
  | cons e rest ih => simp [Expanded.allUnambiguous, ih]

theorem Expanded.unambiguous_iff : e.unambiguous = true ↔ e.Unambiguous := by
  induction e using Expanded.induct with
  | field e ih =>
    have hunfold : e.unambiguous = e.selection.unambiguous := by
      obtain ⟨field, origin, fragments, selection⟩ := e
      rw [Expanded.unambiguous]
      rfl
    rw [hunfold, Expanded.unambiguous_iff_selects]
    cases hsel : e.selection with
    | failed error => exact iff_of_true (by rw [ExpandedSelection.unambiguous]) nofun
    | selects fields =>
      have hfields : (∀ f ∈ fields, f.unambiguous = true) ↔ ∀ f ∈ fields, f.Unambiguous :=
        forall₂_congr fun f hf => ih fields hsel f hf
      rw [ExpandedSelection.unambiguous, Bool.and_eq_true, decide_eq_true_eq,
        Expanded.allUnambiguous_iff, hfields]
      constructor
      · rintro h _ ⟨⟩
        exact h
      · exact fun h => h fields rfl

instance (document : Document) (supplied : Variables) : Decidable (document.Unambiguous supplied) :=
  match h : (ofDocument document supplied).expandAll [] document.selections with
  | .error _ => isTrue fun fields hfields => by
    rw [h] at hfields
    cases hfields
  | .ok fields =>
    decidable_of_iff ((ExpandedSelection.selects fields).unambiguous = true) (by
      have hfields : (∀ f ∈ fields, f.unambiguous = true) ↔ ∀ f ∈ fields, f.Unambiguous :=
        forall₂_congr fun f _ => Expanded.unambiguous_iff
      rw [ExpandedSelection.unambiguous, Bool.and_eq_true, decide_eq_true_eq,
        Expanded.allUnambiguous_iff, hfields]
      constructor
      · intro hall others hothers
        rw [h] at hothers
        cases hothers
        exact hall
      · exact fun hall => hall fields h)

/-! ## Rebuilding documents -/

/-- The selection set below a selection. -/
def Selection.inner : Selection → List Selection
  | .field _ _ selections => selections
  | .spread _ _ => []
  | .inline _ _ selections => selections

/-- Induction over selections: a selection comes with the hypothesis for those below it. -/
theorem Selection.induct {motive : Selection → Prop}
    (selection : ∀ s : Selection, (∀ t ∈ s.inner, motive t) → motive s)
    (s : Selection) : motive s :=
  @rec motive (fun selections => ∀ t ∈ selections, motive t)
    (fun _ _ _ ih => selection _ ih) (fun _ _ => selection _ (forall_mem_nil _))
    (fun _ _ _ ih => selection _ ih) (forall_mem_nil _)
    (fun _ _ hs hrest _ h => (mem_cons.1 h).elim (· ▸ hs) (hrest _)) s

namespace Selection

section Rebuilt

variable (rename : String → String) (reorder : List Selection → List Selection)

mutual

/-- The selection with other response keys, and with every selection set put in another order. -/
def rebuilt : Selection → Selection
  | .field selected directives selections =>
    .field { selected with responseKey := rename selected.responseKey } directives
      (reorder (rebuiltIn selections))
  | .spread name directives => .spread name directives
  | .inline condition directives selections =>
    .inline condition directives (reorder (rebuiltIn selections))

/-- The selections of a selection set, each of them rebuilt. -/
def rebuiltIn : List Selection → List Selection
  | [] => []
  | selection :: rest => rebuilt selection :: rebuiltIn rest

end

theorem rebuiltIn_eq (selections : List Selection) :
    rebuiltIn rename reorder selections = selections.map (rebuilt rename reorder) := by
  induction selections with
  | nil => rfl
  | cons s rest ih => rw [rebuiltIn, ih, map_cons]

end Rebuilt

variable {r : Rearrangement} {rename : String → String} {reorder : List Selection → List Selection}

theorem arranged_rebuiltIn (hreorder : ∀ l, r.Order l (reorder l))
    (h : ∀ s ∈ selections, s.Rearranged r (s.rebuilt rename reorder)) :
    r.Arranged (Rearranged r) selections (reorder (rebuiltIn rename reorder selections)) := by
  have hbelow : Forall₂ (Rearranged r) selections (rebuiltIn rename reorder selections) := by
    rw [rebuiltIn_eq, List.forall₂_map_right_iff, List.forall₂_same]
    exact h
  obtain ⟨ordered, order, related⟩ := (hreorder _).forall₂ hbelow.flip
  exact ⟨order, related.flip⟩

theorem rearranged_rebuilt (hrename : ∀ key, r.Key key (rename key))
    (hreorder : ∀ l, r.Order l (reorder l))
    (s : Selection) : s.Rearranged r (s.rebuilt rename reorder) := by
  induction s using induct with
  | selection s ih =>
    obtain ⟨order, related⟩ := arranged_rebuiltIn hreorder ih
    cases s with
    | field selected directives selections =>
      rw [rebuilt]
      exact .field ⟨hrename _, rfl, rfl⟩ order related
    | spread name directives =>
      rw [rebuilt]
      exact .spread
    | inline condition directives selections =>
      rw [rebuilt]
      exact .inline order related

end Selection

/-- The document with other response keys, and with every selection set put in another order. -/
def Document.rebuilt (document : Document) (rename : String → String)
    (reorder : List Selection → List Selection) : Document :=
  { document with
    selections := reorder (Selection.rebuiltIn rename reorder document.selections)
    fragments := document.fragments.map (Prod.map id fun fragment =>
      { fragment with selections := reorder (Selection.rebuiltIn rename reorder
        fragment.selections) }) }

theorem Document.rearranged_rebuilt {rename : String → String}
    {reorder : List Selection → List Selection} (hrename : ∀ key, r.Key key (rename key))
    (hreorder : ∀ l : List Selection, r.Order l (reorder l)) (document : Document) :
    document.Rearranged r (document.rebuilt rename reorder) := by
  have hall : ∀ selections, r.Arranged (Selection.Rearranged r) selections
      (reorder (Selection.rebuiltIn rename reorder selections)) :=
    fun selections => Selection.arranged_rebuiltIn hreorder
      fun s _ => s.rearranged_rebuilt hrename hreorder
  refine ⟨rfl, rfl, hall document.selections, ?_⟩
  rw [rebuilt, List.forall₂_map_right_iff, List.forall₂_same]
  exact fun f _ => ⟨rfl, rfl, rfl, hall f.2.selections⟩

/-! ## Expanding rearranged selections -/

namespace Expansion

variable {r : Rearrangement} {expansion expansion' : Expansion}

/-- Both expansions fail, or they give matched fields. -/
def Alike (r : Rearrangement) (result result' : Except ExpansionError (List Expanded)) : Prop :=
  Option.Rel (r.Arranged (Expanded.Matched r)) result.toOption result'.toOption

theorem toOption_expandAllWith (enter : Enter) (origin : Origin) (active : List String)
    (selections : List Selection) :
    (expansion.expandAllWith enter origin active selections).toOption
      = (selections.mapM fun s => (expansion.expandOne enter origin active s).toOption).map
          List.flatten := by
  induction selections with
  | nil =>
    rw [expandAllWith_nil]
    rfl
  | cons s rest ih =>
    rw [expandAllWith_cons, mapM_cons]
    cases hs : expansion.expandOne enter origin active s with
    | error error => rfl
    | ok fields =>
      cases hrest : expansion.expandAllWith enter origin active rest with
      | error error =>
        rw [hrest] at ih
        rw [Option.map_eq_none_iff.1 ih.symm]
        rfl
      | ok others =>
        rw [hrest] at ih
        obtain ⟨parts, hparts, rfl⟩ := Option.map_eq_some_iff.1 ih.symm
        rw [hparts]
        rfl

/-- Whether a directive lets a selection in does not depend on the key of the selection. -/
theorem toOption_included (hvalues : expansion'.values = expansion.values)
    (key key' : Option String) (directives : List Directive) :
    (expansion'.included key' directives).toOption
      = (expansion.included key directives).toOption := by
  induction directives with
  | nil => rfl
  | cons d rest ih =>
    rw [included, included, hvalues]
    split
    · split
      · rfl
      · split
        · rfl
        · split
          · rfl
          · exact ih
        · rfl
    · exact ih

theorem toOption_admits (hvalues : expansion'.values = expansion.values) {s s' : Selection}
    (h : s.Rearranged r s') : (expansion'.admits s').toOption = (expansion.admits s).toOption := by
  cases h with
  | _ => exact toOption_included hvalues _ _ _

section Enter

variable (hvalues : expansion'.values = expansion.values)
  (hfragments : Forall₂ (fun f f' => f.1 = f'.1 ∧ f.2.Rearranged r f'.2) expansion.fragments
    expansion'.fragments)
  {enter enter' : Enter}
  (henter : ∀ {fragment fragment'}, fragment.Rearranged r fragment' → ∀ origin active,
    Alike r (enter fragment origin active) (enter' fragment' origin active))
  {selections selections' : List Selection}

theorem alike_expandAllWith_of (h : r.Arranged (Rearranged r) selections selections')
    {origin : Origin} {active : List String} (heach : ∀ s ∈ selections, ∀ s', s.Rearranged r s' →
      Alike r (expansion.expandOne enter origin active s)
        (expansion'.expandOne enter' origin active s')) :
    Alike r (expansion.expandAllWith enter origin active selections)
      (expansion'.expandAllWith enter' origin active selections') := by
  rw [Alike, toOption_expandAllWith, toOption_expandAllWith]
  have heach' := h.imp_of_mem fun s hs s' _ => heach s hs s'
  exact Option.rel_map (heach'.mapM fun _ _ hfields => hfields) fun _ _ hfields => hfields.flatten

include hvalues hfragments henter

theorem alike_expandOne (s : Selection) : ∀ {s'}, s.Rearranged r s' → ∀ origin active,
    Alike r (expansion.expandOne enter origin active s)
      (expansion'.expandOne enter' origin active s') := by
  induction s using induct with
  | selection s ih =>
    intro s' h origin active
    have hadmits := toOption_admits hvalues h
    cases hs : expansion.admits s with
    | error error =>
      rw [hs] at hadmits
      cases hs' : expansion'.admits s' with
      | error error' =>
        rw [expandOne_refused hs, expandOne_refused hs']
        exact .none
      | ok admitted =>
        rw [hs'] at hadmits
        cases hadmits
    | ok admitted =>
      have hs' : expansion'.admits s' = .ok admitted := by
        cases hs' : expansion'.admits s' with
        | error error' =>
          rw [hs, hs'] at hadmits
          cases hadmits
        | ok admitted' =>
          rw [hs, hs'] at hadmits
          exact congrArg Except.ok (Option.some.inj hadmits)
      cases admitted with
      | false =>
        rw [expandOne_excluded hs, expandOne_excluded hs']
        exact .some .nil
      | true =>
        cases h with
        | @field field field' directives selections ordered selections' own order below =>
          rw [expandOne_field hs, expandOne_field hs']
          have hbelow : Alike r (expansion.expandAllWith enter .direct active selections)
              (expansion'.expandAllWith enter' .direct active selections') :=
            alike_expandAllWith_of ⟨order, below⟩ fun t ht t' htt => ih t ht htt .direct active
          refine .some ⟨.refl _, .cons ?_ .nil⟩
          obtain ⟨fields, fields', hfields, hfields', order, below⟩ | ⟨error, error',
              herror, herror'⟩ :=
            Option.rel_toOption hbelow
          · exact .selects own (congrArg ofExcept hfields) (congrArg ofExcept hfields') order below
          · exact .failed own (congrArg ofExcept herror) (congrArg ofExcept herror')
        | inline order below =>
          rw [expandOne_inline hs, expandOne_inline hs']
          exact alike_expandAllWith_of ⟨order, below⟩ fun t ht t' htt => ih t ht htt origin active
        | @spread name directives =>
          rw [expandOne_spread hs, expandOne_spread hs']
          have hfind := Assoc.rel_find? hfragments name
          generalize Assoc.find? name expansion.fragments = found,
            Assoc.find? name expansion'.fragments = found' at hfind
          cases hfind with
          | none => exact .none
          | @some fragment fragment' hfragment =>
            dsimp only
            split
            · exact .none
            · have horigin :
                  spreadOrigin origin fragment' name = spreadOrigin origin fragment name := by
                unfold spreadOrigin
                rw [hfragment.typeCondition]
              rw [horigin]
              exact henter hfragment _ _

theorem alike_expandAllWith (h : r.Arranged (Rearranged r) selections selections')
    (origin : Origin) (active : List String) :
    Alike r (expansion.expandAllWith enter origin active selections)
      (expansion'.expandAllWith enter' origin active selections') :=
  alike_expandAllWith_of h fun s _ _ hs => alike_expandOne hvalues hfragments henter s
    hs origin active

end Enter

variable (hvalues : expansion'.values = expansion.values)
  (hfragments : Forall₂ (fun f f' => f.1 = f'.1 ∧ f.2.Rearranged r f'.2) expansion.fragments
    expansion'.fragments)

include hvalues hfragments

theorem alike_enter (depth : Nat) : ∀ {fragment fragment'}, fragment.Rearranged r fragment' →
    ∀ origin active, Alike r (expansion.enter depth fragment origin active)
      (expansion'.enter depth fragment' origin active) := by
  induction depth with
  | zero => exact fun _ _ _ => .some .nil
  | succ depth ih =>
    intro fragment fragment' h origin active
    exact alike_expandAllWith hvalues hfragments ih h.selections origin active

theorem alike_expandAll {selections' : List Selection}
    (h : r.Arranged (Rearranged r) selections selections') (active : List String) :
    Alike r (expansion.expandAll active selections) (expansion'.expandAll active selections') := by
  rw [expandAll, expandAll, hfragments.length_eq]
  exact alike_expandAllWith hvalues hfragments (alike_enter hvalues hfragments _) h .direct active

end Expansion

/-- **Rearranged documents expand to matched trees**, or both fail to expand. -/
theorem Document.Rearranged.expandAll {document document' : Document}
    (h : document.Rearranged r document') (supplied : Variables) :
    Alike r ((ofDocument document supplied).expandAll [] document.selections)
      ((ofDocument document' supplied).expandAll [] document'.selections) := by
  have hvalues : (ofDocument document' supplied).values
      = (ofDocument document supplied).values := by
    rw [ofDocument, ofDocument, h.declarations]
  exact alike_expandAll hvalues h.fragments h.selections []

end QueryProjection
