import QueryProjection.Proofs.Fallback
import QueryProjection.Proofs.Renumbered.Field

/-!
# Fields that came by a fragment

A field that came by a fragment is compiled against a parameter for the context of the fragment,
which is then replaced by the context of the spread.  That gives the same, up to numbers, as
compiling the field right in the context of the spread.

* `Expanded.unspread` is an expanded field in which all fields are as if they were written where
  they are;
* `Compiler.matches_compileExpanded` compares the two, and with them everything below.
-/

namespace QueryProjection

open List

/-! ## Trees without fragments -/

mutual

/-- The field as if it and the fields below were written where they are. -/
def Expanded.unspread : Expanded → Expanded
  | .mk field _ _ selection =>
    .mk field .direct [] fun _ => ExpandedSelection.unspread (selection ())

/-- The same for a selection. -/
def ExpandedSelection.unspread : ExpandedSelection → ExpandedSelection
  | .selects fields => .selects (Expanded.unspreadAll fields)
  | .failed error => .failed error

/-- The same for several fields. -/
def Expanded.unspreadAll : List Expanded → List Expanded
  | [] => []
  | e :: rest => Expanded.unspread e :: Expanded.unspreadAll rest

end

namespace Expanded

theorem unspreadAll_eq (fields : List Expanded) : unspreadAll fields = fields.map unspread := by
  induction fields with
  | nil => rfl
  | cons e rest ih => rw [unspreadAll, ih, map_cons]

theorem field_unspread (e : Expanded) : e.unspread.field = e.field := by
  obtain ⟨field, origin, fragments, selection⟩ := e
  rw [unspread]
  rfl

theorem origin_unspread (e : Expanded) : e.unspread.origin = .direct := by
  obtain ⟨field, origin, fragments, selection⟩ := e
  rw [unspread]
  rfl

theorem selection_unspread (e : Expanded) : e.unspread.selection = e.selection.unspread := by
  obtain ⟨field, origin, fragments, selection⟩ := e
  rw [unspread]
  rfl

/-- A field that came by a fragment, here or below, has a type that does not depend on its
context. -/
def Settled (e : Expanded) : Prop :=
  ∀ x : Expanded, x.Within e → x.origin ≠ .direct → x.field.definition.Settled

end Expanded

theorem FieldDefinition.Numbered.selfContained {schema : Schema} {definition : FieldDefinition}
    (h : definition.Numbered schema) : definition.SelfContained :=
  ⟨h.arguments_ty, h.extensions.imp fun _ hx => hx.builtIn⟩

/-! ## Selections -/

/-- What a field contributes to a selection is the same up to numbers. -/
inductive Compiler.Contribution.Renumbered {base : Nat} (w : Numbering base) :
    Contribution → Contribution → Prop
  | selected (key : String) {compiled compiled' : Compiled}
      (h : compiled.Renumbered w .none compiled') :
      Renumbered w (.selected key compiled) (.selected key compiled')
  | deferred (path : FieldPath) {dependencies dependencies' : List (String × Expr)}
      (h : Assoc.Entries Eq (fun e e' => e.Renumbered w .none [] e') dependencies dependencies') :
      Renumbered w (.deferred path dependencies) (.deferred path dependencies')

namespace Compiler

open Compile

variable {schema : Schema} {base : Nat} {w w' : Numbering base} {scope scope' : Scope}
  {context context' : Expr}

theorem Contribution.Renumbered.mono {c c' : Contribution} (h : c.Renumbered w c') (hw : w ≤ w') :
    c.Renumbered w' c' := by
  cases h with
  | selected key h =>
    exact .selected key ⟨h.expression.mono hw, h.constants.mono hw, h.deferredServices⟩
  | deferred path h => exact .deferred path (h.imp fun _ _ h => ⟨h.1, h.2.mono hw⟩)

theorem rel_serviceDependencies (hcontext : context.Renumbered w .none [] context')
    (definition : FieldDefinition) (path : FieldPath) :
    Except.Rel (Assoc.Entries Eq fun e e' => e.Renumbered w .none [] e')
      (serviceDependencies definition context path)
      (serviceDependencies definition context' path) := by
  unfold serviceDependencies
  cases hfound : definition.resolve.dependencies (.identity definition.context) path with
  | error e => exact .error e
  | ok chains =>
    have hchains := Expr.chainOn_of_dependencies hfound
    refine .ok (List.forall₂_map_left_iff.2 (List.forall₂_map_right_iff.2
      (List.forall₂_same.2 fun d hd => ?_)))
    exact ⟨rfl, (hchains d hd).renumbered_replace hcontext⟩

theorem matches_rememberFetched (w : Numbering base) (path : FieldPath) (name key : String) :
    Matches w (fun w' _ _ => w' = w) (rememberFetched path name key)
      (rememberFetched path name key) := by
  intro m n hmn
  refine .inr ⟨w, (), (), _, _, Numbering.le_refl w, rfl, rfl, rfl, ⟨hmn.events, ?_⟩,
    hmn.next, hmn.next'⟩
  exact congrArg (FetchedKeys.insert · path name key) hmn.fetched

theorem matches_fetchAll {dependencies dependencies' : List (FieldPath × String × Expr)}
    (hdependencies : Forall₂ (fun d d' => d.1 = d'.1 ∧ d.2.1 = d'.2.1
      ∧ d.2.2.Renumbered w .none [] d'.2.2) dependencies dependencies')
    {fields fields' : SelectionMap} (hfields : fields.Renumbered w fields') :
    Matches w SelectionMap.Renumbered (fetchAll dependencies fields)
      (fetchAll dependencies' fields') := by
  induction hdependencies generalizing fields fields' with
  | nil => exact matches_pure hfields
  | @cons d d' _ _ hd _ ih =>
    obtain ⟨path, name, e⟩ := d
    obtain ⟨path', name', e'⟩ := d'
    obtain ⟨rfl, rfl, he⟩ := hd
    obtain ⟨hkey, hadded⟩ := hfields.insertFetched name he
    rw [fetchAll, fetchAll]
    dsimp only
    rw [hkey]
    refine (matches_rememberFetched w path name _).bind fun w₁ _ _ _ hw₁ => ?_
    subst hw₁
    exact ih hadded

theorem matches_assemble {contributions contributions' : List Contribution}
    (h : Forall₂ (Contribution.Renumbered w) contributions contributions') :
    Matches w CompiledSelection.Renumbered (assemble contributions) (assemble contributions') := by
  have hadded : ∀ {start start' : CompiledSelection}, start.Renumbered w start' →
      (contributions.foldl CompiledSelection.add start).Renumbered w
        (contributions'.foldl CompiledSelection.add start') := by
    induction h with
    | nil => exact fun hstart => hstart
    | @cons c c' _ _ hc _ ih =>
      intro start start' hstart
      refine ih ?_
      cases hc with
      | selected key hc =>
        refine ⟨hstart.fields.insert key hc.expression, hstart.constants.extend hc.constants, ?_⟩
        exact congrArg₂ or hstart.deferredServices hc.deferredServices
      | deferred path _ => exact ⟨hstart.fields, hstart.constants, rfl⟩
  have hdependencies : Forall₂ (fun d d' => d.1 = d'.1 ∧ d.2.1 = d'.2.1
      ∧ d.2.2.Renumbered w .none [] d'.2.2) (contributions.flatMap Contribution.dependencies)
      (contributions'.flatMap Contribution.dependencies) := by
    refine rel_flatMap h fun c c' hc => ?_
    cases hc with
    | selected key hc => exact .nil
    | deferred path hd =>
      exact List.forall₂_map_left_iff.2 (List.forall₂_map_right_iff.2
        (hd.imp fun _ _ h => ⟨rfl, h⟩))
  have hempty : CompiledSelection.Renumbered w {} {} := ⟨.nil, .nil, rfl⟩
  have hselection := hadded hempty
  unfold assemble
  dsimp only
  refine (matches_fetchAll hdependencies hselection.fields).bind
    fun w₁ fields fields' hw₁ hfields => ?_
  exact matches_pure ⟨hfields, hselection.constants.mono hw₁, hselection.deferredServices⟩

/-! ## Fields of a fragment -/

variable {q : Parameter} {compiler : Compiler}

/-- **A field of a fragment is compiled as if it were written where the fragment is spread.** -/
theorem matches_compileFrom (compiler : Compiler) {field : SelectedField} {select select' : Select}
    (hbase : schema.next ≤ base) (hfield : field.definition.Numbered schema) (origin : Origin)
    (hsettled : origin ≠ .direct → field.definition.Settled)
    (hselect : SelectsRenumbered schema base select select')
    (hclosed : compiler.ClosedOver field select) (hscope : scope.Renumbered schema w scope')
    (hcontext : context.Renumbered w .none [] context') (hq : q ∈ scope'.parameters)
    (hreads : context'.ReadsOf q) :
    Matches w (fun w' => Compiled.Renumbered w' .none)
      (compiler.compileFrom field origin select context scope)
      (compiler.compileField field select' context' scope') := by
  have hdirect := matches_compileField compiler hbase hfield hselect hscope (.here hcontext)
  cases origin with
  | direct => exact hdirect
  | fragment name typeCondition =>
    unfold compileFrom
    dsimp only
    split
    · exact hdirect
    · rename_i hshape
      have hnone : context'.ty.shape? = none := by
        rw [hcontext.ty]
        exact Option.not_isSome_iff_eq_none.1 hshape
      refine Matches.skip ?_
      generalize hown : (⟨w.next, "fragment_" ++ name, .object typeCondition⟩ : Parameter) = own
      have hunpaired : ∀ i, ¬ w.skip.pairs own.id i := by
        rw [← hown]
        exact fun i hi => Nat.lt_irrefl _ (w.left_lt hi)
      have hlt : own.id < w.skip.next := by
        rw [← hown]
        exact Nat.lt_succ_self _
      have hscope' := (hscope.mono w.le_skip).bindLeft hunpaired hlt
      have hplaced : Placed w.skip (scope.bind own) scope' field.definition (.to own context')
        (.parameter own)
          context' :=
        .moved (hsettled nofun) (by rw [← hown]; rfl) hnone hunpaired mem_cons_self hq hreads
      have hcompile := matches_compileField compiler hbase hfield hselect hscope' hplaced
      rw [← bind_pure (compiler.compileField field select' context' scope')]
      refine hcompile.bind_of_gives fun w₁ compiled compiled' m m' hw₁ hgives hcompiled => ?_
      -- The parameter of the fragment is the only one that has to be moved.
      have hscoped : ∀ p ∈ context.freeParameters, p ∈ scope.parameters := by
        obtain ⟨p, hp, hreads⟩ := hcontext.exists_readsOf hreads
        intro p' hp'
        rw [hreads.mem_freeParameters_iff.1 hp']
        exact (hscope.mem_iff hp).1 hq
      have hfree : ∀ p ∈ compiled.expression.freeParameters, p = own ∨ p ∈ scope.parameters
          ∨ p.ty ≠ own.ty := by
        intro p hp
        rcases hclosed hgives p hp with h | h | ⟨shape, h⟩
        · exact .inl h
        · exact (mem_cons.1 h).imp_right .inl
        · refine .inr (.inr fun hty => ?_)
          rw [← hown, h] at hty
          exact nomatch hty
      rw [rebase_eq_pure compiler.settings.typeMatching scope.path hfree hscoped]
      have hmoved := hcompiled.expression.rebase (hscope'.unpaired mem_cons_self hunpaired hw₁)
        (hcontext.mono (Numbering.le_trans w.le_skip hw₁)) .nil
      have hrun :
          (ofRun (pure (compiled.expression.replace (.identity own) context)) : Compile Expr)
            = pure (compiled.expression.replace (.identity own) context) := by
        funext m
        exact congrArg (fun events => (Except.ok _, { m with events })) (append_nil m.events)
      rw [hrun, pure_bind]
      exact matches_pure (R := fun w' => Compiled.Renumbered w' .none)
        ⟨hmoved, hcompiled.constants, hcompiled.deferredServices⟩

/-! ## Trees -/

/-- One field is compiled as the other, in contexts that are the same up to numbers. -/
def FieldsRenumbered (schema : Schema) (base : Nat) (compiler : Compiler)
    (e e' : Expanded) : Prop :=
  ∀ {w : Numbering base} {context context' : Expr} {scope scope' : Scope} {q : Parameter},
    context.Renumbered w .none [] context' → q ∈ scope'.parameters → context'.ReadsOf q →
    scope.Renumbered schema w scope' →
    Matches w (fun w' => Compiled.Renumbered w' .none) (compiler.compileExpanded context scope e)
      (compiler.compileExpanded context' scope' e')

theorem matches_compileFields {fields : List Expanded}
    (hfields : ∀ f ∈ fields, FieldsRenumbered schema base compiler f f.unspread)
    (hscope : scope.Renumbered schema w scope') (hcontext : context.Renumbered w .none [] context')
    (hq : q ∈ scope'.parameters) (hreads : context'.ReadsOf q) :
    Matches w (fun w' => Forall₂ (Contribution.Renumbered w'))
      (compiler.compileFields context scope fields)
      (compiler.compileFields context' scope' (fields.map Expanded.unspread)) := by
  induction fields generalizing w with
  | nil => exact matches_pure (R := fun w' => Forall₂ (Contribution.Renumbered w')) .nil
  | cons f rest ih =>
    obtain ⟨hf, hrest⟩ := forall_mem_cons.1 hfields
    have hcontribution :
        Matches w (fun w' => Contribution.Renumbered w') (compiler.contribute context scope f)
          (compiler.contribute context' scope' f.unspread) := by
      unfold contribute
      dsimp only
      rw [f.field_unspread, hscope.mode, (hscope.field f.field.responseKey).path]
      split
      · refine (matches_ofExcept (R := fun w' => Assoc.Entries Eq fun e e' =>
          e.Renumbered w' .none [] e')
          (rel_serviceDependencies hcontext _ _)).bind fun w₁ _ _ _ h => ?_
        exact matches_pure (R := fun w' => Contribution.Renumbered w') (.deferred _ h)
      · have hq' : q ∈ (scope'.field f.field.responseKey).parameters := hq
        refine (hf hcontext hq' hreads (hscope.field f.field.responseKey)).bind fun w₁ _ _ _ h => ?_
        exact matches_pure (R := fun w' => Contribution.Renumbered w') (.selected _ h)
    rw [map_cons, compileFields_cons, compileFields_cons]
    refine hcontribution.bind fun w₁ c c' hw₁ hc => ?_
    refine (ih hrest (hscope.mono hw₁) (hcontext.mono hw₁)).bind fun w₂ cs cs' hw₂ hcs => ?_
    exact matches_pure (R := fun w' => Forall₂ (Contribution.Renumbered w'))
      (.cons (hc.mono hw₂) hcs)

theorem selectsRenumbered {selection : ExpandedSelection}
    (hbelow : ∀ fields, selection = .selects fields →
      ∀ f ∈ fields, FieldsRenumbered schema base compiler f f.unspread) :
    SelectsRenumbered schema base (fun context scope =>
      compiler.compileSelection context scope selection)
      (fun context scope => compiler.compileSelection context scope selection.unspread) := by
  intro w context context' scope scope' q hcontext hq hreads hscope
  cases selection with
  | failed error =>
    simp only [ExpandedSelection.unspread, compileSelection, hscope.path]
    exact matches_throw _
  | selects fields =>
    simp only [ExpandedSelection.unspread, Expanded.unspreadAll_eq, compileSelection]
    exact (matches_compileFields (hbelow fields rfl) hscope hcontext hq hreads).bind
      fun w₁ _ _ _ h => matches_assemble h

/-- **Fragments leave no trace in what is compiled.**  A field is compiled as if it and all fields
below were written where they are. -/
theorem matches_compileExpanded (compiler : Compiler) (hbase : schema.next ≤ base) {e : Expanded}
    (hfields : e.Every fun field _ => field.definition.Numbered schema) (hsettled : e.Settled) :
    FieldsRenumbered schema base compiler e e.unspread := by
  induction e using Expanded.induct with
  | field e ih =>
    intro w context context' scope scope' q hcontext hq hreads hscope
    obtain ⟨_, hfield⟩ := hfields.holds
    have hselect : SelectsRenumbered schema base
        (fun context scope => compiler.compileSelection context scope e.selection)
        (fun context scope => compiler.compileSelection context scope e.selection.unspread) :=
      selectsRenumbered fun fields hsel f hf =>
        ih fields hsel f hf (hfields.of_selects hsel hf) fun x hx => hsettled x (.under hsel hf hx)
    rw [compileExpanded_eq, compileExpanded_eq, e.field_unspread, e.origin_unspread,
      e.selection_unspread]
    exact matches_compileFrom compiler hbase hfield e.origin (hsettled e .here) hselect
      (compiler.closedOver (hfields.imp fun _ _ h => h.selfContained)) hscope hcontext hq hreads

end Compiler
end QueryProjection
