import QueryProjection.Proofs.Compile.Outcome
import QueryProjection.Proofs.SelectionMap

/-!
# The fields of a selection

The fields of a selection are compiled one after the other, and what they contribute is put together
afterwards.

* `Compiler.compileFields_append_gives` takes a selection apart at a place;
* `Compiler.fields_of_contributions` says what record the contributions make: that of the last field
  with each response key;
* `Compiler.compileFields_full` and `Compiler.compileSelection_full` are about the full pass, where
  every field is compiled.
-/

namespace QueryProjection

open List

namespace Compiler

variable {compiler : Compiler} {context : Expr} {scope : Scope} {m m' : Memory}
  {fields : List Expanded} {selection : CompiledSelection} {Q : Expr → Prop}

/-- The selection of an expanded field, as the functions that compile one field are handed it. -/
def selectOf (compiler : Compiler) (e : Expanded) : Select :=
  fun context scope => compiler.compileSelection context scope e.selection

theorem selectOf_gives {e : Expanded} (h : e.selection = .selects fields) :
    Gives (compiler.selectOf e context scope) m selection m'
      ↔ Gives (compiler.compileSelection context scope (.selects fields)) m selection m' := by
  rw [selectOf, h]

variable {contributions : List Contribution}

theorem compileFields_nil_gives :
    Gives (compiler.compileFields context scope []) m contributions m'
      ↔ contributions = [] ∧ m' = m := by
  rw [compileFields]
  exact gives_pure

theorem compileFields_cons_gives {f : Expanded} {rest : List Expanded} :
    Gives (compiler.compileFields context scope (f :: rest)) m contributions m'
      ↔ ∃ c m₁ others, Gives (compiler.contribute context scope f) m c m₁
          ∧ Gives (compiler.compileFields context scope rest) m₁ others m'
          ∧ contributions = c :: others := by
  rw [compileFields_cons]
  simp only [gives_bind, gives_pure, existsAndEq, and_true, exists_and_left]

theorem compileFields_append_gives {before after : List Expanded} :
    Gives (compiler.compileFields context scope (before ++ after)) m contributions m'
      ↔ ∃ first m₁ second, Gives (compiler.compileFields context scope before) m first m₁
          ∧ Gives (compiler.compileFields context scope after) m₁ second m'
          ∧ contributions = first ++ second := by
  induction before generalizing m contributions with
  | nil =>
    simp only [nil_append, compileFields_nil_gives, existsAndEq, true_and, and_true]
  | cons f rest ih =>
    simp only [cons_append, compileFields_cons_gives, ih]
    constructor
    · rintro ⟨c, m₁, _, hc, ⟨first, m₂, second, hfirst, hsecond, rfl⟩, rfl⟩
      exact ⟨c :: first, m₂, second, ⟨c, m₁, first, hc, hfirst, rfl⟩, hsecond, rfl⟩
    · rintro ⟨_, m₂, second, ⟨c, m₁, first, hc, hfirst, rfl⟩, hsecond, rfl⟩
      exact ⟨c, m₁, first ++ second, hc, ⟨first, m₂, second, hfirst, hsecond, rfl⟩, rfl⟩

theorem exists_contribute (h : Gives (compiler.compileFields context scope fields) m
      contributions m')
    {c : Contribution} (hc : c ∈ contributions) :
    ∃ f ∈ fields, ∃ m m', Gives (compiler.contribute context scope f) m c m' := by
  induction fields generalizing m contributions with
  | nil =>
    obtain ⟨rfl, -⟩ := compileFields_nil_gives.1 h
    cases hc
  | cons f rest ih =>
    obtain ⟨first, m₁, others, hfirst, hrest, rfl⟩ := compileFields_cons_gives.1 h
    rcases mem_cons.1 hc with rfl | hc
    · exact ⟨f, mem_cons_self, m, m₁, hfirst⟩
    · obtain ⟨g, hg, hgives⟩ := ih hrest hc
      exact ⟨g, mem_cons_of_mem _ hg, hgives⟩

/-- The entry that a contribution adds to the record of a selection. -/
def Contribution.entry? : Contribution → Option (String × Expr)
  | .selected key compiled => some (key, compiled.expression)
  | .deferred _ _ => none

/-- Contributions make the record of the last field with each key. -/
theorem fields_of_contributions (contributions : List Contribution) :
    (contributions.foldl CompiledSelection.add {}).fields.fields
      = Merge.merge (contributions.filterMap Contribution.entry?) := by
  induction contributions using reverseRecOn with
  | nil => rfl
  | append_singleton contributions c ih =>
    rw [foldl_append, filterMap_append]
    cases c with
    | selected key compiled =>
      show (SelectionMap.insert _ _ _).fields = Merge.merge (_ ++ [(key, compiled.expression)])
      rw [Merge.merge_append_singleton, ← ih, SelectionMap.fields_insert]
    | deferred path dependencies =>
      show (contributions.foldl CompiledSelection.add {}).fields.fields = Merge.merge (_ ++ [])
      rw [append_nil, ih]

theorem adds_fetchAll {dependencies : List (FieldPath × String × Expr)}
    {fields fields' : SelectionMap}
    (hQ : ∀ d ∈ dependencies, Q d.2.2) (h : Gives (fetchAll dependencies fields) m fields' m') :
    fields.Adds Q fields' := by
  induction dependencies generalizing fields m with
  | nil =>
    obtain ⟨rfl, -⟩ := fetchAll_nil_gives.1 h
    exact .refl Q _
  | cons d rest ih =>
    obtain ⟨hd, hrest⟩ := forall_mem_cons.1 hQ
    exact (SelectionMap.adds_insertFetched fields d.2.1 hd).trans
      (ih hrest (fetchAll_cons_gives.1 h))

theorem mem_of_assemble (h : Gives (assemble contributions) m selection m') {entry : String × Expr}
    (hentry : entry ∈ selection.fields.fields) :
    (∃ key compiled, .selected key compiled ∈ contributions ∧ entry.2 = compiled.expression)
      ∨ ∃ path read, .deferred path read ∈ contributions ∧ ∃ d ∈ read, entry.2 = d.2 := by
  obtain ⟨merged, hfetch, rfl⟩ := assemble_gives.1 h
  have hadds := adds_fetchAll (Q := fun e => ∃ path read, .deferred path read ∈ contributions
    ∧ ∃ d ∈ read, e = d.2) (fun d hd => ?_) hfetch
  refine (hadds.mem hentry).imp_left fun hentry => ?_
  rotate_left
  · obtain ⟨c, hc, hd⟩ := mem_flatMap.1 hd
    cases c with
    | selected => cases hd
    | deferred path read =>
      obtain ⟨d, hread, rfl⟩ := mem_map.1 hd
      exact ⟨path, read, hc, d, hread, rfl⟩
  · rw [fields_of_contributions] at hentry
    obtain ⟨k, hk, -⟩ := Merge.mem_of_last? (Merge.mem_merge.1 hentry).2
    obtain ⟨c, hc, hk⟩ := mem_filterMap.1 hk
    cases c with
    | selected key compiled =>
      exact ⟨key, compiled, hc, (congrArg Prod.snd (Option.some.inj hk)).symm⟩
    | deferred => cases hk

/-- Whether the contribution leaves a service field to the full pass. -/
def Contribution.defersServices : Contribution → Bool
  | .selected _ compiled => compiled.deferredServices
  | .deferred _ _ => true

theorem deferredServices_foldl (contributions : List Contribution) :
    (contributions.foldl CompiledSelection.add {}).deferredServices
      = contributions.any Contribution.defersServices := by
  induction contributions using reverseRecOn with
  | nil => rfl
  | append_singleton contributions c ih =>
    rw [foldl_append, any_append, ← ih]
    cases c <;> simp [CompiledSelection.add, Contribution.defersServices]

theorem isEmpty_of_selects_nil (h : Gives (compiler.compileSelection context scope (.selects [])) m
      selection m') :
    selection.fields.isEmpty = true := by
  obtain ⟨_, contributions, m₁, heq, hfields, hassemble⟩ := compileSelection_gives.1 h
  cases heq
  obtain ⟨rfl, -⟩ := compileFields_nil_gives.1 hfields
  obtain ⟨merged, hfetch, rfl⟩ := assemble_gives.1 hassemble
  rw [(fetchAll_nil_gives.1 hfetch).1]
  rfl

theorem adds_addElementDependencies {read : Expr.Dependencies}
    (hread : ∀ d ∈ read, Q (d.2.chain.replace (.identity d.2.root) context))
    (fields : SelectionMap) : fields.Adds Q (addElementDependencies context read fields) := by
  induction read generalizing fields with
  | nil => exact .refl _ _
  | cons d rest ih =>
    obtain ⟨hd, hrest⟩ := forall_mem_cons.1 hread
    exact .trans (SelectionMap.adds_insertIfAbsent fields d.1 hd) (ih hrest _)

section ElementFields

variable {field : SelectedField} {ty : Ty} {pre : PreSelection} {fields : SelectionMap}

theorem elementFields_full (hmode : scope.mode = .full) :
    elementFields field scope ty pre fields = .ok fields := by
  unfold elementFields
  rw [hmode]
  rfl

theorem elementFields_empty (hempty : fields.isEmpty = true) :
    elementFields field scope ty pre fields = .ok fields := by
  unfold elementFields
  rw [hempty, Bool.not_true, Bool.and_false]
  rfl

end ElementFields

/-! ## The full pass -/

section Full

variable {I : Memory → Prop} {fields : List Expanded} {selection : CompiledSelection}

section

variable (hmode : scope.mode = .full)
  (hI : ∀ f ∈ fields, ∀ {m compiled m'}, Gives (compiler.compileExpanded context
    (scope.field f.field.responseKey) f) m compiled m' → I m → I m') (hm : I m)

include hmode hI hm

/-- In the full pass every field of a selection is compiled.  `I` is what compiling a field keeps of
the memory. -/
theorem compileFields_full
    (h : Gives (compiler.compileFields context scope fields) m contributions m') :
    ∃ made : List (Expanded × Compiled), made.map Prod.fst = fields
      ∧ contributions = made.map (fun e => .selected e.1.field.responseKey e.2)
      ∧ ∀ e ∈ made, ∃ m m', I m ∧ Gives (compiler.compileExpanded context
          (scope.field e.1.field.responseKey) e.1) m e.2 m' := by
  induction fields generalizing m contributions with
  | nil => exact ⟨[], rfl, (compileFields_nil_gives.1 h).1, forall_mem_nil _⟩
  | cons f rest ih =>
    obtain ⟨first, m₁, others, hfirst, hrest, rfl⟩ := compileFields_cons_gives.1 h
    obtain ⟨hf, hIrest⟩ := forall_mem_cons.1 hI
    have hdefers : defers scope.mode f.field = false := by rw [hmode]; rfl
    obtain ⟨hd, -⟩ | ⟨-, compiled, hc, rfl⟩ := contribute_gives.1 hfirst
    · rw [hdefers] at hd
      cases hd
    · obtain ⟨made, rfl, rfl, hmade⟩ := ih hIrest (hf hc hm) hrest
      exact ⟨(f, compiled) :: made, rfl, rfl, forall_mem_cons.2 ⟨⟨m, m₁, hm, hc⟩, hmade⟩⟩

theorem compileSelection_full
    (h : Gives (compiler.compileSelection context scope (.selects fields)) m selection m') :
    ∃ (made : List (Expanded × Compiled)) (m₁ : Memory), made.map Prod.fst = fields
      ∧ Gives (compiler.compileFields context scope fields) m
          (made.map fun e => .selected e.1.field.responseKey e.2) m₁
      ∧ Gives (assemble (made.map fun e => .selected e.1.field.responseKey e.2)) m₁ selection m'
      ∧ selection.fields.fields
          = Merge.merge (made.map fun e => (e.1.field.responseKey, e.2.expression))
      ∧ ∀ e ∈ made, ∃ m m', I m ∧ Gives (compiler.compileExpanded context
          (scope.field e.1.field.responseKey) e.1) m e.2 m' := by
  obtain ⟨_, contributions, m₁, heq, hfields, hassemble⟩ := compileSelection_gives.1 h
  cases heq
  obtain ⟨made, hmap, rfl, hmade⟩ := compileFields_full hmode hI hm hfields
  refine ⟨made, m₁, hmap, hfields, hassemble, ?_, hmade⟩
  obtain ⟨merged, hfetch, rfl⟩ := assemble_gives.1 hassemble
  have hnone : (made.map fun e => Contribution.selected e.1.field.responseKey e.2).flatMap
      Contribution.dependencies = [] := by
    simp [flatMap_map, Contribution.dependencies]
  rw [hnone, fetchAll_nil_gives] at hfetch
  rw [hfetch.1, fields_of_contributions, filterMap_map]
  exact congrArg Merge.merge (congrFun filterMap_eq_map' made)

end

theorem isEmpty_compileSelection
    (h : Gives (compiler.compileSelection context scope (.selects fields)) m selection m')
    (hmode : scope.mode = .full) : selection.fields.isEmpty = fields.isEmpty := by
  obtain ⟨made, _, rfl, -, -, hrecord, -⟩ :=
    compileSelection_full (I := fun _ => True) hmode (fun _ _ {_ _ _} _ _ => trivial) trivial h
  rw [SelectionMap.isEmpty, hrecord, Merge.isEmpty_merge, isEmpty_map, isEmpty_map]

end Full

end Compiler
end QueryProjection
