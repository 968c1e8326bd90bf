import QueryProjection.Proofs.Passes.Root

/-!
# Trees that differ in keys and order

Two expanded trees are matched if they have the same fields, under other response keys or in another
order. For a schema without extensions such trees answer alike:

* `Rearrangement` says in what trees and documents may differ, and `Rearrangement.Arranged` what
  that means for lists;
* `Expanded.Matched` relates trees, and `Expanded.Matched.answers` what the fields at their roots
  answer.

How the answers of matched trees are related depends on the keys that are written into them.
`Rearrangement.Relates` is what a relation between answers has to satisfy.

Renaming and reordering are done together, since nothing in the induction depends on which of them
it is: keys are only written, and a list and its permutation are gone through alike.
-/

namespace QueryProjection

open Expanded List

open Interpretation

/-- In what one document may differ from another. -/
structure Rearrangement where
  /-- Response keys may be others. -/
  renames : Bool
  /-- The entries of a selection set may stand in another order. -/
  reorders : Bool

namespace Rearrangement

variable {α β γ δ : Type} {r : Rearrangement} {l l' l₁ l₂ : List α}

/-- Fields may have other response keys. -/
def keysOnly : Rearrangement := ⟨true, false⟩

/-- Selection sets may be put in another order. -/
def orderOnly : Rearrangement := ⟨false, true⟩

/-- The key may take the place of the other one. -/
def Key (r : Rearrangement) (key key' : String) : Prop :=
  r.renames = false → key = key'

/-- The list may be put in the order of the other one. -/
def Order (r : Rearrangement) (l l' : List α) : Prop :=
  if r.reorders then l.Perm l' else l = l'

theorem Order.perm (h : r.Order l l') : l.Perm l' := by
  unfold Order at h
  split at h
  · exact h
  · exact h ▸ .refl l

theorem Order.of_perm (hr : r.reorders = true) (h : l.Perm l') : r.Order l l' := by
  rw [Order, if_pos hr]
  exact h

theorem Order.refl (l : List α) : r.Order l l := by
  unfold Order
  split
  · exact .refl l
  · rfl

theorem Order.symm (h : r.Order l l') : r.Order l' l := by
  unfold Order at h ⊢
  split at h
  · rename_i hr
    rw [if_pos hr]
    exact h.symm
  · rename_i hr
    rw [if_neg hr]
    exact Eq.symm h

theorem Order.trans {l₃ : List α} (h : r.Order l₁ l₂) (h' : r.Order l₂ l₃) : r.Order l₁ l₃ := by
  unfold Order at h h' ⊢
  split at h
  · rename_i hr
    rw [if_pos hr] at h' ⊢
    exact List.Perm.trans h h'
  · rename_i hr
    rw [if_neg hr] at h' ⊢
    exact Eq.trans h h'

theorem Order.append {l₁' l₂' : List α} (h₁ : r.Order l₁ l₁') (h₂ : r.Order l₂ l₂') :
    r.Order (l₁ ++ l₂) (l₁' ++ l₂') := by
  unfold Order at h₁ h₂ ⊢
  split at h₁
  · rename_i hr
    rw [if_pos hr] at h₂ ⊢
    exact List.Perm.append h₁ h₂
  · rename_i hr
    rw [if_neg hr] at h₂ ⊢
    rw [h₁, h₂]

theorem Order.map (h : r.Order l l') (f : α → β) : r.Order (l.map f) (l'.map f) := by
  unfold Order at h ⊢
  split at h
  · rename_i hr
    rw [if_pos hr]
    exact List.Perm.map f h
  · rename_i hr
    rw [if_neg hr, h]

theorem Order.flatten {l l' : List (List α)} (h : r.Order l l') : r.Order l.flatten l'.flatten := by
  unfold Order at h ⊢
  split at h
  · rename_i hr
    rw [if_pos hr]
    exact List.Perm.flatten h
  · rename_i hr
    rw [if_neg hr, h]

/-- What is related to the entries of a list can be put in the order of the list. -/
theorem Order.forall₂ {R : α → β → Prop} (h : r.Order l l') {bs : List β} (hbs : Forall₂ R l bs) :
    ∃ bs', r.Order bs bs' ∧ Forall₂ R l' bs' := by
  unfold Order at h ⊢
  split at h
  · rename_i hr
    obtain ⟨bs', hbs', hperm⟩ := perm_comp_forall₂ h.symm hbs
    exact ⟨bs', by rw [if_pos hr]; exact hperm.symm, hbs'⟩
  · rename_i hr
    exact ⟨bs, by rw [if_neg hr], h ▸ hbs⟩

/-- The entries of a list, put in another order, are related to those of another list. -/
inductive Arranged (r : Rearrangement) (R : α → β → Prop) (as : List α) (bs : List β) : Prop
  | intro {ordered : List α} (order : r.Order as ordered) (related : Forall₂ R ordered bs)

namespace Arranged

variable {R : α → β → Prop} {S : γ → δ → Prop} {as : List α} {bs : List β}

theorem nil : r.Arranged R [] [] :=
  ⟨.refl [], .nil⟩

section Members

variable (h : r.Arranged R as bs)

include h

theorem exists_left {b : β} (hb : b ∈ bs) : ∃ a ∈ as, R a b := by
  obtain ⟨order, related⟩ := h
  obtain ⟨a, ha, hab⟩ := exists_mem_of_forall₂ related hb
  exact ⟨a, order.perm.mem_iff.2 ha, hab⟩

theorem exists_right {a : α} (ha : a ∈ as) : ∃ b ∈ bs, R a b := by
  obtain ⟨order, related⟩ := h
  exact exists_mem_of_forall₂ related.flip (order.perm.mem_iff.1 ha)

theorem imp_of_mem {S : α → β → Prop} (hRS : ∀ a ∈ as, ∀ b ∈ bs, R a b → S a b) :
    r.Arranged S as bs := by
  obtain ⟨order, related⟩ := h
  exact ⟨order, forall₂_imp_of_mem related fun a ha => hRS a (order.perm.mem_iff.2 ha)⟩

theorem forall₂ (hr : r.reorders = false) : Forall₂ R as bs := by
  obtain ⟨order, related⟩ := h
  rw [Order, hr, if_neg Bool.false_ne_true] at order
  exact order ▸ related

theorem eq_nil_iff : as = [] ↔ bs = [] := by
  obtain ⟨order, related⟩ := h
  rw [← length_eq_zero_iff, ← length_eq_zero_iff, order.perm.length_eq, related.length_eq]

theorem forall_iff {P : α → Prop} {Q : β → Prop}
    (hPQ : ∀ a ∈ as, ∀ b, R a b → (P a ↔ Q b)) : (∀ a ∈ as, P a) ↔ ∀ b ∈ bs, Q b := by
  constructor
  · intro hP b hb
    obtain ⟨a, ha, hab⟩ := h.exists_left hb
    exact (hPQ a ha b hab).1 (hP a ha)
  · intro hQ a ha
    obtain ⟨b, hb, hab⟩ := h.exists_right ha
    exact (hPQ a ha b hab).2 (hQ b hb)

theorem append {as' : List α} {bs' : List β} (h' : r.Arranged R as' bs') :
    r.Arranged R (as ++ as') (bs ++ bs') := by
  obtain ⟨order, related⟩ := h
  obtain ⟨order', related'⟩ := h'
  exact ⟨order.append order', rel_append related related'⟩

theorem map {f : α → γ} {g : β → δ} (hfg : ∀ a b, R a b → S (f a) (g b)) :
    r.Arranged S (as.map f) (bs.map g) := by
  obtain ⟨order, related⟩ := h
  refine ⟨order.map f, ?_⟩
  rw [forall₂_map_left_iff, forall₂_map_right_iff]
  exact related.imp hfg

end Members

theorem flatten {as : List (List α)} {bs : List (List β)} (h : r.Arranged (r.Arranged R) as bs) :
    r.Arranged R as.flatten bs.flatten := by
  obtain ⟨order, related⟩ := h
  have hall : ∀ {as : List (List α)} {bs : List (List β)}, Forall₂ (r.Arranged R) as bs →
      r.Arranged R as.flatten bs.flatten := by
    intro as bs h
    induction h with
    | nil => exact nil
    | cons hab _ ih => exact hab.append ih
  obtain ⟨order', related'⟩ := hall related
  exact ⟨order.flatten.trans order', related'⟩

theorem mapM (h : r.Arranged R as bs) {f : α → Option γ} {g : β → Option δ}
    (hfg : ∀ a b, R a b → Option.Rel S (f a) (g b)) :
    Option.Rel (r.Arranged S) (as.mapM f) (bs.mapM g) := by
  obtain @⟨ordered, order, related⟩ := h
  have hordered := Option.rel_mapM related hfg
  have hback : ∀ cs, ordered.mapM f = some cs → ∃ cs', as.mapM f = some cs' ∧ r.Order cs' cs := by
    intro cs hcs
    obtain ⟨cs', hcs', hrelated⟩ := order.symm.forall₂ (mapM_eq_some_iff.1 hcs)
    exact ⟨cs', mapM_eq_some_iff.2 hrelated, hcs'.symm⟩
  cases hmapM : as.mapM f with
  | some cs =>
    obtain ⟨cs', -, hrelated⟩ := order.forall₂ (mapM_eq_some_iff.1 hmapM)
    rw [mapM_eq_some_iff.2 hrelated] at hordered
    obtain ⟨cs'', hcs'', hcs'⟩ := hback cs' (mapM_eq_some_iff.2 hrelated)
    obtain rfl := Option.some.inj (hmapM.symm.trans hcs'')
    generalize bs.mapM g = o at hordered ⊢
    cases hordered with
    | some hcd => exact .some ⟨hcs', hcd⟩
  | none =>
    cases hother : ordered.mapM f with
    | some cs =>
      obtain ⟨_, hcs, -⟩ := hback cs hother
      rw [hmapM] at hcs
      cases hcs
    | none =>
      rw [hother] at hordered
      generalize bs.mapM g = o at hordered ⊢
      cases hordered
      exact .none

end Arranged

end Rearrangement

/-! ## Matched trees -/

/-- The field is the other one, perhaps under another response key. -/
structure SelectedField.Matched (r : Rearrangement) (field field' : SelectedField) : Prop where
  key : r.Key field.responseKey field'.responseKey
  definition : field'.definition = field.definition
  arguments : field'.arguments = field.arguments

/-- The trees have the same fields, perhaps under other response keys and in another order, and
selection sets fail in the same places. -/
inductive Expanded.Matched (r : Rearrangement) : Expanded → Expanded → Prop
  | selects {e e' : Expanded} {fields ordered fields' : List Expanded}
      (own : e.field.Matched r e'.field)
      (selection : e.selection = .selects fields) (selection' : e'.selection = .selects fields')
      (order : r.Order fields ordered) (below : Forall₂ (Matched r) ordered fields') :
        Matched r e e'
  | failed {e e' : Expanded} {error error' : ExpansionError} (own : e.field.Matched r e'.field)
      (selection : e.selection = .failed error) (selection' : e'.selection = .failed error') :
        Matched r e e'

variable {compiler : Compiler} {I : Interpretation}

namespace SelectedField.Matched

variable {r : Rearrangement} {field field' : SelectedField} (h : field.Matched r field')

include h

theorem record? (values : VariableValues) : field'.record? values = field.record? values := by
  have hvalues : ∀ declared, Resolve.argumentValues field' values .operation declared
      = Resolve.argumentValues field values .operation declared := by
    intro declared
    induction declared with
    | nil => rfl
    | cons d rest ih =>
      simp only [Resolve.argumentValues, ih, Resolve.argumentValue, h.arguments]
  rw [SelectedField.record?, SelectedField.record?, h.definition, hvalues]

theorem source? (I : Interpretation) (x : Value) : I.source? field' x = I.source? field x := by
  rw [Interpretation.source?, Interpretation.source?, h.record?, h.definition]

theorem sourceAt? (I : Interpretation) (root : Parameter) :
    I.sourceAt? root field' = I.sourceAt? root field := by
  rw [Interpretation.sourceAt?, Interpretation.sourceAt?, h.record?, h.definition]

theorem checked_iff {root : Parameter} (depth : Nat) :
    field.Checked compiler I root depth ↔ field'.Checked compiler I root depth := by
  have hwindow : I.window? field' = I.window? field := by
    rw [window?, window?, h.record?, h.definition]
  have hknown : field'.Known ↔ field.Known := by
    rw [SelectedField.Known, SelectedField.Known, h.definition, h.arguments]
  constructor
  · rintro ⟨hdepth, hown, hrecord, hfree, hwin⟩
    exact ⟨hdepth, hknown.2 hown, (h.record? _).symm ▸ hrecord, h.definition.symm ▸ hfree,
      by rw [hwindow, h.definition]; exact hwin⟩
  · rintro ⟨hdepth, hown, hrecord, hfree, hwin⟩
    exact ⟨hdepth, hknown.1 hown, h.record? _ ▸ hrecord, h.definition ▸ hfree,
      by rw [← hwindow, ← h.definition]; exact hwin⟩

end SelectedField.Matched

namespace Expanded.Matched

variable {r : Rearrangement} {e e' : Expanded} {P : FieldDefinition → Prop}

theorem deferring_of_failed {error : ExpansionError} (hsel : e.selection = .failed error) :
    e.Deferring P := by
  refine .field (fun _ fields h => ?_) fun _ fields h => ?_
  · rw [hsel] at h
    cases h
  · rw [hsel] at h
    cases h

variable (h : e.Matched r e')

include h

theorem own : e.field.Matched r e'.field := by
  cases h with
  | selects own => exact own
  | failed own => exact own

theorem selection :
    (∃ fields fields', e.selection = .selects fields ∧ e'.selection = .selects fields'
        ∧ r.Arranged (Matched r) fields fields')
      ∨ ∃ error error', e.selection = .failed error ∧ e'.selection = .failed error' := by
  cases h with
  | selects _ hsel hsel' order below => exact .inl ⟨_, _, hsel, hsel', order, below⟩
  | failed _ hsel hsel' => exact .inr ⟨_, _, hsel, hsel'⟩

theorem definition : e'.field.definition = e.field.definition :=
  h.own.definition

theorem idle : e'.selection.idle = e.selection.idle := by
  obtain ⟨fields, fields', hsel, hsel', below⟩ | ⟨_, _, hsel, hsel'⟩ := h.selection
  · rw [hsel, hsel', ExpandedSelection.idle, ExpandedSelection.idle, Bool.eq_iff_iff, all_eq_true,
      all_eq_true]
    exact (below.forall_iff fun f _ f' hf => by rw [hf.definition]).symm
  · rw [hsel, hsel', ExpandedSelection.idle, ExpandedSelection.idle]

/-- What holds of the fields of a tree, whatever their keys are, holds of those of a matched
tree. -/
theorem every {P : SelectedField → List Selection → Prop}
    (hP : ∀ {field field' selections}, field.Matched r field' → P field selections →
      P field' selections)
    (hevery : e.Every P) : e'.Every P := by
  induction hevery generalizing e' with
  | intro selections holds empty _ ih =>
    refine .intro selections (hP h.own holds) (fun hnil => ?_) fun fields' hsel' f' hf' => ?_
    · obtain ⟨fields, fields', hsel, hsel', below⟩ | ⟨_, _, hsel, -⟩ := h.selection
      · obtain rfl := ExpandedSelection.selects.inj ((empty hnil).symm.trans hsel)
        rw [hsel', below.eq_nil_iff.1 rfl]
      · rw [empty hnil] at hsel
        cases hsel
    · obtain ⟨fields, _, hsel, hselects, below⟩ | ⟨_, _, -, hfailed⟩ := h.selection
      · obtain rfl := ExpandedSelection.selects.inj (hselects.symm.trans hsel')
        obtain ⟨f, hf, hff⟩ := below.exists_left hf'
        exact ih _ hsel f hf hff
      · rw [hfailed] at hsel'
        cases hsel'

theorem compiles_iff {checked : Nat → SelectedField → Prop} {mode : Mode}
    (hchecked : ∀ depth field field', field.Matched r field' →
      (checked depth field ↔ checked depth field')) {depth : Nat} :
    e.Compiles checked mode depth ↔ e'.Compiles checked mode depth := by
  induction e using induct generalizing e' depth with
  | field e ih =>
    by_cases hshape : e.field.definition.shape = .leaf
    · have hshape' : e'.field.definition.shape = .leaf := h.definition.symm ▸ hshape
      exact ⟨fun ⟨own, _, _⟩ => compiles_of_leaf hshape' ((hchecked _ _ _ h.own).1 own),
        fun ⟨own, _, _⟩ => compiles_of_leaf hshape ((hchecked _ _ _ h.own).2 own)⟩
    · have hshape' : e'.field.definition.shape ≠ .leaf := h.definition.symm ▸ hshape
      obtain ⟨fields, fields', hsel, hsel', below⟩ | ⟨_, _, hsel, hsel'⟩ := h.selection
      · rw [compiles_iff hshape hsel, compiles_iff hshape' hsel', hchecked _ _ _ h.own]
        refine and_congr_right fun _ => below.forall_iff fun f hf f' hff => ?_
        rw [Compiler.defers, Compiler.defers, hff.definition, ih _ hsel f hf hff]
      · refine iff_of_false (fun ⟨_, hselects, _⟩ => ?_) fun ⟨_, hselects, _⟩ => ?_
        · obtain ⟨_, h⟩ := hselects hshape
          rw [hsel] at h
          cases h
        · obtain ⟨_, h⟩ := hselects hshape'
          rw [hsel'] at h
          cases h

theorem deferring_iff : e.Deferring P ↔ e'.Deferring P := by
  induction e using induct generalizing e' with
  | field e ih =>
    by_cases hshape : e.field.definition.shape = .leaf
    · exact iff_of_true (deferring_of_leaf hshape) (deferring_of_leaf (h.definition.symm ▸ hshape))
    · have hshape' : e'.field.definition.shape ≠ .leaf := h.definition.symm ▸ hshape
      obtain ⟨fields, fields', hsel, hsel', below⟩ | ⟨_, _, hsel, hsel'⟩ := h.selection
      · rw [deferring_iff hshape hsel, deferring_iff hshape' hsel']
        refine below.forall_iff fun f hf f' hff => ?_
        rw [hff.definition, ih _ hsel f hf hff]
      · exact iff_of_true (deferring_of_failed hsel) (deferring_of_failed hsel')

end Expanded.Matched

/-! ## Answers of matched trees -/

/-- The objects that two values of this shape consist of are related, place by place. -/
def Value.Alike (shape : FieldShape) (R : Value → Value → Prop) (v v' : Value) : Prop :=
  match shape with
  | .leaf => v = v'
  | .object => (v = .null ∧ v' = .null) ∨ R v v'
  | .list => (v = .null ∧ v' = .null)
      ∨ (∃ members members', v = .object members ∧ v' = .object members'
          ∧ Forall₂ (fun m m' => m.1 = m'.1 ∧ R m.2 m'.2) members members')
      ∨ ∃ items items', v = .list items ∧ v' = .list items' ∧ Forall₂ R items items'

theorem Value.alike_each {R : Value → Value → Prop} {f f' : Value → Option Value}
    (h : ∀ x, Option.Rel R (f x) (f' x)) (v : Value) (shape : FieldShape) :
    Option.Rel (Value.Alike shape R) (v.each shape f) (v.each shape f') := by
  have helements : Option.Rel (Value.Alike .list R)
      (v.elements.value?.bind fun items => (items.mapM f).map Value.list)
      (v.elements.value?.bind fun items => (items.mapM f').map Value.list) := by
    refine Option.rel_bind_of_forall (fun items => ?_) _
    have hitems : Forall₂ Eq items items := List.forall₂_refl items
    have hresults : Option.Rel (Forall₂ R) (items.mapM f) (items.mapM f') := by
      refine Option.rel_mapM hitems ?_
      rintro x _ rfl
      exact h x
    exact Option.rel_map hresults fun xs xs' hxs => .inr (.inr ⟨xs, xs', rfl, rfl, hxs⟩)
  cases shape with
  | leaf => exact .some rfl
  | object =>
    rw [each, each]
    split
    · exact .some (.inl ⟨rfl, rfl⟩)
    · generalize f v = o, f' v = o', h v = ho
      cases ho with
      | none => exact .none
      | some hr => exact .some (.inr hr)
  | list =>
    rw [each, each]
    cases v with
    | null => exact .some (.inl ⟨rfl, rfl⟩)
    | object members =>
      have hmembers : Forall₂ Eq members members := List.forall₂_refl members
      have hresults : Option.Rel (Forall₂ fun m m' => m.1 = m'.1 ∧ R m.2 m'.2)
          (mapEntries f members) (mapEntries f' members) := by
        refine Option.rel_mapM hmembers ?_
        rintro m _ rfl
        exact Option.rel_map (h m.2) fun x x' hx => ⟨rfl, hx⟩
      exact Option.rel_map hresults fun ms ms' hms => .inr (.inl ⟨ms, ms', rfl, rfl, hms⟩)
    | _ => exact helements

/-- What a relation between the answers of matched trees has to satisfy: it holds of a value and
itself where no keys are written, and of values that consist of related records where they are. -/
structure Rearrangement.Relates (r : Rearrangement)
    (V : Expanded → Expanded → Value → Value → Prop) : Prop where
  whole : ∀ {e e'}, e.Matched r e' →
    e.field.definition.shape = .leaf ∨ e.selection = .selects [] → ∀ v, V e e' v v
  records : ∀ {e e' fields fields'}, e.Matched r e' → e.field.definition.shape ≠ .leaf →
    e.selection = .selects fields → e'.selection = .selects fields' → fields ≠ [] →
    ∀ {g : Expanded → Value → Option Value},
      r.Arranged (fun f f' => f.Matched r f' ∧ ∀ x, Option.Rel (V f f') (g f x) (g f' x))
        fields fields' →
    ∀ s : Value, Option.Rel (V e e')
      (s.each e.field.definition.shape
        (Interpretation.recordOf (fields.map fun f => (f.field.responseKey, g f))))
      (s.each e.field.definition.shape
        (Interpretation.recordOf (fields'.map fun f => (f.field.responseKey, g f))))

namespace Expanded.Matched

variable {r : Rearrangement} {e e' : Expanded} {V : Expanded → Expanded → Value → Value → Prop}
  (hV : r.Relates V) (h : e.Matched r e')

include hV h

theorem shaped {idle : Bool} {g : Expanded → Value → Option Value}
    (hbelow : ∀ fields, e.selection = .selects fields → ∀ f ∈ fields, ∀ f', f.Matched r f' →
      ∀ x, Option.Rel (V f f') (g f x) (g f' x))
    {members members' : Option (List (String × (Value → Option Value)))}
    (hmembers : ∀ fields, e.selection = .selects fields →
      members = some (fields.map fun f => (f.field.responseKey, g f)))
    (hmembers' : ∀ fields, e'.selection = .selects fields →
      members' = some (fields.map fun f => (f.field.responseKey, g f)))
    (hfailed : ∀ error, e.selection = .failed error → members = none)
    (hfailed' : ∀ error, e'.selection = .failed error → members' = none) (s : Value) :
    Option.Rel (V e e') (Interpretation.shaped e.field idle members s)
      (Interpretation.shaped e'.field idle members' s) := by
  by_cases hshape : e.field.definition.shape = .leaf
  · rw [Interpretation.shaped, Interpretation.shaped, h.definition, if_pos hshape, if_pos hshape]
    exact Option.rel_refl (hV.whole h (.inl hshape)) _
  have hshape' : e'.field.definition.shape ≠ .leaf := h.definition.symm ▸ hshape
  obtain ⟨fields, fields', hsel, hsel', below⟩ | ⟨_, _, hsel, hsel'⟩ := h.selection
  · rw [hmembers _ hsel, hmembers' _ hsel']
    by_cases hnil : fields = []
    · have hnil' := below.eq_nil_iff.1 hnil
      subst hnil hnil'
      rw [map_nil, Interpretation.shaped_nil hshape, Interpretation.shaped_nil hshape']
      exact Option.rel_refl (hV.whole h (.inr hsel)) _
    · have hne : (fields.map fun f => (f.field.responseKey, g f)) ≠ [] :=
        fun h => hnil (map_eq_nil_iff.1 h)
      have hne' : (fields'.map fun f => (f.field.responseKey, g f)) ≠ [] :=
        fun h => hnil (below.eq_nil_iff.2 (map_eq_nil_iff.1 h))
      have hrecords := hV.records h hshape hsel hsel' hnil
        (below.imp_of_mem fun f hf f' _ hff => ⟨hff, hbelow _ hsel f hf f' hff⟩)
      cases idle with
      | false =>
        rw [Interpretation.shaped_members hshape hne, Interpretation.shaped_members hshape' hne',
          h.definition]
        exact hrecords s
      | true =>
        rw [Interpretation.shaped_idle hshape hne,
          Interpretation.shaped_idle hshape' hne', h.definition]
        exact Option.rel_bind_of_forall hrecords _
  · rw [hfailed _ hsel, hfailed' _ hsel', Interpretation.shaped,
      Interpretation.shaped, h.definition, if_neg hshape]
    exact .none

theorem onceBelow (I : Interpretation) (s : Value) :
    Option.Rel (V e e') (I.onceBelow e s) (I.onceBelow e' s) := by
  induction e using induct generalizing e' s with
  | field e ih =>
    refine shaped hV h (g := I.once) (fun fields hsel f hf f' hff x => ?_)
      (fun fields hsel => ?_) (fun fields hsel => ?_) (fun error hsel => ?_)
        (fun error hsel => ?_) s
    · rw [I.once_eq, I.once_eq, hff.own.source?]
      exact Option.rel_bind_of_forall (ih fields hsel f hf hff) _
    · rw [hsel, onceOf, I.onceAll_eq]
    · rw [hsel, onceOf, I.onceAll_eq]
    · rw [hsel, onceOf]
    · rw [hsel, onceOf]

theorem once (I : Interpretation) (x : Value) :
    Option.Rel (V e e') (I.once e x) (I.once e' x) := by
  rw [I.once_eq, I.once_eq, h.own.source?]
  exact Option.rel_bind_of_forall (h.onceBelow hV I) _

theorem served (I : Interpretation) (x : Value) :
    Option.Rel (V e e') (I.served e x) (I.served e' x) := by
  rw [Interpretation.served, Interpretation.served, h.definition]
  exact Option.rel_bind_of_forall (h.once hV I.alone) _

theorem twiceBelow (I : Interpretation) (s : Value) :
    Option.Rel (V e e') (I.twiceBelow e s) (I.twiceBelow e' s) := by
  induction e using induct generalizing e' s with
  | field e ih =>
    rw [twiceBelow, twiceBelow, h.idle]
    refine shaped hV h (g := I.twiceMember) (fun fields hsel f hf f' hff x => ?_)
      (fun fields hsel => ?_) (fun fields hsel => ?_) (fun error hsel => ?_)
        (fun error hsel => ?_) s
    · rw [twiceMember, twiceMember, hff.definition]
      split
      · exact hff.served hV I x
      · rw [I.twice_eq, I.twice_eq, hff.own.source?]
        exact Option.rel_bind_of_forall (ih fields hsel f hf hff) _
    · rw [hsel, twiceOf, I.twiceAll_eq]
    · rw [hsel, twiceOf, I.twiceAll_eq]
    · rw [hsel, twiceOf]
    · rw [hsel, twiceOf]

/-- **Matched fields of an operation answer alike.** -/
theorem answers {context : Parameter} {o o' : Option Value}
    (ho : ∀ v, o = some v ↔ e.Answers compiler I context v)
    (ho' : ∀ v, o' = some v ↔ e'.Answers compiler I context v) : Option.Rel (V e e') o o' := by
  have hcompiles : e.Compiles (SelectedField.Checked compiler I context) .full 1
      ↔ e'.Compiles (SelectedField.Checked compiler I context) .full 1 :=
    h.compiles_iff fun depth _ _ hm => hm.checked_iff depth
  have honce : Option.Rel (V e e') ((I.sourceAt? context e.field).bind (I.onceBelow e))
      ((I.sourceAt? context e'.field).bind (I.onceBelow e')) := by
    rw [h.own.sourceAt?]
    exact Option.rel_bind_of_forall (h.onceBelow hV I) _
  have htwice : Option.Rel (V e e') ((I.sourceAt? context e.field).bind (I.twiceBelow e))
      ((I.sourceAt? context e'.field).bind (I.twiceBelow e')) := by
    rw [h.own.sourceAt?]
    exact Option.rel_bind_of_forall (h.twiceBelow hV I) _
  have hforward : ∀ v, e.Answers compiler I context v →
      ∃ v', e'.Answers compiler I context v' ∧ V e e' v v' := by
    rintro v (⟨hchecked, hdirect, hv⟩ | ⟨hchecked, hplain, hdefers, hseparable, hv⟩)
    · obtain ⟨v', hother, hvv⟩ := Option.exists_right_of_rel honce hv
      exact ⟨v', .once (hcompiles.1 hchecked)
        (fun hs => h.deferring_iff.1 (hdirect (h.definition ▸ hs))) hother, hvv⟩
    · obtain ⟨v', hother, hvv⟩ := Option.exists_right_of_rel htwice hv
      exact ⟨v', .twice (hcompiles.1 hchecked) (h.definition.symm ▸ hplain)
        (fun hd => hdefers (h.deferring_iff.2 hd)) (h.deferring_iff.1 hseparable) hother, hvv⟩
  have hbackward :
      ∀ v', e'.Answers compiler I context v' → ∃ v, e.Answers compiler I context v := by
    rintro v' (⟨hchecked, hdirect, hv⟩ | ⟨hchecked, hplain, hdefers, hseparable, hv⟩)
    · obtain ⟨v, hother⟩ := Option.exists_left_of_rel honce hv
      exact ⟨v, .once (hcompiles.2 hchecked)
        (fun hs => h.deferring_iff.2 (hdirect (h.definition.symm ▸ hs))) hother⟩
    · obtain ⟨v, hother⟩ := Option.exists_left_of_rel htwice hv
      exact ⟨v, .twice (hcompiles.2 hchecked) (h.definition ▸ hplain)
        (fun hd => hdefers (h.deferring_iff.1 hd)) (h.deferring_iff.2 hseparable) hother⟩
  cases o with
  | some v =>
    obtain ⟨v', hv', hvv⟩ := hforward v ((ho v).1 rfl)
    rw [(ho' v').2 hv']
    exact .some hvv
  | none =>
    cases o' with
    | none => exact .none
    | some v' =>
      obtain ⟨v, hv⟩ := hbackward v' ((ho' v').1 rfl)
      cases (ho v).2 hv

end Expanded.Matched
end QueryProjection
