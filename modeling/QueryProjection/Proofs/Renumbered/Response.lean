import QueryProjection.Proofs.Renumbered.Tree

/-!
# Responses without fragments

What is compiled for a field of the operation is the same, up to numbers, as if all fields were
written where they are, in the data pass and in the full pass.  So its value is the same, and so are
its events and its error: `Executor.executeRoots_unspread`.

Numbers do not show in a response.  They are in expressions and environments only, and an expression
that is closed evaluates alike in environments that were renumbered with it.  The keys of fetched
members are kept by path, so they are the same in both memories from one field to the next, while
numbering starts anew with each pass.
-/

namespace QueryProjection

open List Numbering

/-- The field of the operation as if it and the fields below were written where they are. -/
def RootField.unspread (root : RootField) : RootField :=
  { root with field := root.field.unspread }

variable {base : Nat}

theorem Scope.renumbered_self {schema : Schema} {scope : Scope}
    (hlt : ∀ p ∈ scope.parameters, p.id < base)
    (hdrawn : ∀ p ∈ scope.parameters, p = schema.context ∨ schema.next ≤ p.id) :
    scope.Renumbered schema (initial base) scope where
  mode := rfl
  contextChanged := rfl
  isRoot := rfl
  path := rfl
  depth := rfl
  mem_iff {p p'} hp := by
    obtain ⟨i, name, ty⟩ := p
    obtain ⟨i', name', ty'⟩ := p'
    obtain ⟨⟨hid, -⟩, hname, hty⟩ := hp
    obtain rfl : i = i' := hid
    obtain rfl : name' = name := hname
    obtain rfl : ty' = ty := hty
    exact Iff.rfl
  lt := hlt
  lt' := hlt
  drawn := hdrawn

namespace Compiler

open Compile

variable {schema : Schema} {root : RootField}

theorem matches_compileRoot_schema (compiler : Compiler)
    (hcontext : schema.context.id < schema.next)
    (hfields : root.field.Every fun field _ => field.definition.Numbered schema)
    (hsettled : root.field.Settled) (mode : Mode) :
    Matches (initial schema.next) (fun w => Option.Rel (Compiled.Renumbered w .none))
      (compiler.compileRoot schema root mode .schema)
      (compiler.compileRoot schema root.unspread mode .schema) := by
  have hscope : (rootScope schema root mode).Renumbered schema (initial schema.next)
      (rootScope schema root mode) := by
    refine Scope.renumbered_self (fun p hp => ?_) (fun p hp => .inl (mem_singleton.1 hp))
    rw [mem_singleton.1 hp]
    exact hcontext
  have hcompile := compiler.matches_compileExpanded (Nat.le_refl _) hfields hsettled
    (.parameter (.known hcontext)) (mem_singleton.2 rfl) .parameter hscope
  unfold compileRoot
  simp only [RootField.unspread, root.field.field_unspread]
  split
  · exact matches_pure (R := fun w => Option.Rel (Compiled.Renumbered w .none)) .none
  · exact hcompile.bind fun w _ _ _ h =>
      matches_pure (R := fun w => Option.Rel (Compiled.Renumbered w .none)) (.some h)

theorem matches_compileRoot_materialized (compiler : Compiler)
    (hcontext : schema.context.id < schema.next)
    (hfields : root.field.Every fun field _ => field.definition.Numbered schema)
    (hsettled : root.field.Settled)
    (mode : Mode) {data : Parameter} (hdata : data.id = schema.next) :
    Matches (initial (schema.next + 1)) (fun w => Option.Rel (Compiled.Renumbered w .none))
      (compiler.compileRoot schema root mode (.materialized data))
      (compiler.compileRoot schema root.unspread mode (.materialized data)) := by
  have hknown : data.Renumbered (initial (schema.next + 1)) data :=
    .known (hdata ▸ Nat.lt_succ_self _)
  have hscope : (fetchedScope schema root mode data).Renumbered schema (initial (schema.next + 1))
      (fetchedScope schema root mode data) := by
    refine Scope.renumbered_self (fun p hp => ?_) (fun p hp => ?_)
    · rcases mem_cons.1 hp with rfl | hp
      · exact hdata ▸ Nat.lt_succ_self _
      · rw [mem_singleton.1 hp]
        exact Nat.lt_succ_of_lt hcontext
    · rcases mem_cons.1 hp with rfl | hp
      · exact .inr (Nat.le_of_eq hdata.symm)
      · exact .inl (mem_singleton.1 hp)
  obtain ⟨_, hfield⟩ := hfields.holds
  have hselect : SelectsRenumbered schema (schema.next + 1)
      (fun context scope => compiler.compileSelection context scope root.field.selection)
      (fun context scope => compiler.compileSelection context scope
        root.field.selection.unspread) :=
    selectsRenumbered fun fields hsel f hf => compiler.matches_compileExpanded (Nat.le_succ _)
      (hfields.of_selects hsel hf) fun x hx => hsettled x (.under hsel hf hx)
  have hresolved : Resolved.Renumbered (initial (schema.next + 1)) .none
      ⟨.parameter data, true, none⟩ ⟨.parameter data, true, none⟩ :=
    ⟨.parameter hknown, rfl, rfl, .none⟩
  have hsound : Moved.none.Sound (initial (schema.next + 1)) (fetchedScope schema root mode data)
      (fetchedScope schema root mode data) :=
    ⟨fun h => h.elim, fun h => h.elim, fun h => h.elim⟩
  have hcompile := matches_compileResolved (Nat.le_succ _) hselect hresolved hscope
    hfield.extensions hsound
  unfold compileRoot
  dsimp only [RootField.unspread]
  rw [root.field.field_unspread, root.field.selection_unspread]
  exact hcompile.bind fun w _ _ _ h =>
    matches_pure (R := fun w => Option.Rel (Compiled.Renumbered w .none)) (.some h)

end Compiler

/-! ## Executing -/

namespace Execute

variable {α β γ δ : Type} {R : α → β → Prop} {S : γ → δ → Prop}

/-- Both end with the same error, or with results that are related, and leave the same but for the
numbers. -/
def Matches (R : α → β → Prop) (x : Execute α) (y : Execute β) : Prop :=
  ∀ m n : Memory, m.Agree n →
    Except.Rel R (outcome x m).1 (outcome y n).1 ∧ (outcome x m).2.Agree (outcome y n).2

theorem matches_pure {a : α} {b : β} (h : R a b) : Matches R (pure a) (pure b) :=
  fun _ _ hmn => ⟨.ok h, hmn⟩

theorem Matches.bind {x : Execute α} {y : Execute β} {f : α → Execute γ} {g : β → Execute δ}
    (hx : Matches R x y) (hf : ∀ a b, R a b → Matches S (f a) (g b)) :
    Matches S (x >>= f) (y >>= g) := by
  intro m n hmn
  obtain ⟨hresult, hmemory⟩ := hx m n hmn
  rw [outcome_bind, outcome_bind]
  rcases hm : outcome x m with ⟨r, m'⟩
  rcases hn : outcome y n with ⟨r', n'⟩
  rw [hm, hn] at hresult hmemory
  cases hresult with
  | ok h => exact hf _ _ h m' n' hmemory
  | error e => exact ⟨.error e, hmemory⟩

variable {base : Nat}

theorem matches_compiling {R : Numbering base → α → β → Prop} {x : Compile α} {y : Compile β}
    (h : Compile.Matches (initial base) R x y) :
    Matches (fun a b => ∃ w, R w a b) (Executor.compiling base x) (Executor.compiling base y) := by
  intro m n hmn
  rw [Executor.outcome_compiling, Executor.outcome_compiling]
  have hstart : Memory.Numbered (initial base) { m with next := base } { n with next := base } :=
    ⟨⟨hmn.events, hmn.fetched⟩, rfl, rfl⟩
  rcases h _ _ hstart with ⟨e, m', n', hm, hn, h⟩ | ⟨w, a, b, m', n', -, hm, hn, hR, h⟩
  · rw [hm, hn]
    exact ⟨.error _, h⟩
  · rw [show outcome x _ = _ from hm, show outcome y _ = _ from hn]
    exact ⟨.ok ⟨w, hR⟩, h.toAgree⟩

/-- Expressions that are the same up to numbers have the same value and the same events. -/
theorem matches_evaluate (executor : Executor) (path : FieldPath) {w : Numbering base} {e e' : Expr}
    (h : e.Renumbered w .none [] e') {env env' : Environment}
    (henv : ∀ p p', p.Renumbered w p' → env' p' = env p) :
    Matches Eq (executor.evaluate path env e) (executor.evaluate path env' e') := by
  intro m n hmn
  have hevaluation : executor.evaluation env' e' = executor.evaluation env e := by
    unfold Executor.evaluation Expr.valueOf
    rw [h.operand executor.services henv]
  rw [Executor.outcome_evaluate, Executor.outcome_evaluate, hevaluation]
  refine ⟨?_, ?_, hmn.fetched⟩
  · cases (executor.evaluation env e).result with
    | ok v => exact .ok rfl
    | error e => exact .error _
  · exact congrArg (· ++ (executor.evaluation env e).events) hmn.events

end Execute

namespace Executor

open Execute

variable {executor : Executor} (hcontext : executor.schema.context.id < executor.schema.next)
  {root : RootField}
  (hfields : root.field.Every fun field _ => field.definition.Numbered executor.schema)
  (hsettled : root.field.Settled)

theorem environment_bind {w : Numbering base} {constants constants' : Constants}
    (h : constants.Renumbered w constants') {q : Parameter} (hq : q.id < base) (v : Value)
    {p p' : Parameter} (hp : p.Renumbered w p') :
    constants'.environment.bind q v p' = constants.environment.bind q v p := by
  have heq : p' = q ↔ p = q := hp.eq_iff (.known hq)
  unfold Environment.bind Constants.environment
  simp only [heq, h.get? hp]

include hcontext hfields hsettled

theorem matches_runDirect (compiler : Compiler) (data : Value) :
    Execute.Matches Eq (executor.runDirect compiler root data)
      (executor.runDirect compiler root.unspread data) := by
  unfold runDirect
  refine (matches_compiling (compiler.matches_compileRoot_schema hcontext hfields hsettled
    .full)).bind ?_
  rintro _ _ ⟨w, hcompiled⟩
  cases hcompiled with
  | none => exact matches_pure rfl
  | some hcompiled =>
    exact matches_evaluate executor _ hcompiled.expression fun p p' =>
      environment_bind hcompiled.constants hcontext data

theorem matches_runFetched (compiler : Compiler) {w : Numbering executor.schema.next}
    {fetch fetch' : Compiled} (hfetch : fetch.Renumbered w .none fetch') (data : Value) :
    Execute.Matches Eq (executor.runFetched compiler root fetch data)
      (executor.runFetched compiler root.unspread fetch' data) := by
  unfold runFetched
  dsimp only
  rw [hfetch.expression.ty]
  refine (matches_evaluate executor _ hfetch.expression fun p p' =>
    environment_bind hfetch.constants hcontext data).bind ?_
  rintro fetched _ rfl
  refine (matches_compiling (compiler.matches_compileRoot_materialized hcontext hfields hsettled
    .full rfl)).bind ?_
  rintro _ _ ⟨w, hcompiled⟩
  cases hcompiled with
  | none => exact matches_pure rfl
  | some hcompiled =>
    exact matches_evaluate executor _ hcompiled.expression fun p p' =>
      environment_bind hcompiled.constants (Nat.lt_succ_self _) fetched

theorem matches_executeRoot (compiler : Compiler) (data : Value) :
    Execute.Matches Eq (executor.executeRoot compiler root data)
      (executor.executeRoot compiler root.unspread data) := by
  unfold executeRoot
  refine (matches_compiling (compiler.matches_compileRoot_schema hcontext hfields hsettled
    .dataOnly)).bind ?_
  rintro _ _ ⟨w, hcompiled⟩
  cases hcompiled with
  | none => exact matches_runDirect hcontext hfields hsettled compiler data
  | some hcompiled =>
    dsimp only
    rw [hcompiled.deferredServices]
    split
    · exact matches_runFetched hcontext hfields hsettled compiler hcompiled data
    · exact matches_runDirect hcontext hfields hsettled compiler data

omit hfields hsettled

/-- **Fragments leave no trace in the response.** -/
theorem executeRoots_unspread (compiler : Compiler) (data : Value) {roots : List RootField}
    (hroots : ∀ root ∈ roots, (root.field.Every fun field _ =>
      field.definition.Numbered executor.schema)
      ∧ root.field.Settled) {m n : Memory} (hmn : m.Agree n) :
    (executor.executeRoots compiler data (roots.map RootField.unspread) n).1
        = (executor.executeRoots compiler data roots m).1
      ∧ (executor.executeRoots compiler data roots m).2.Agree
        (executor.executeRoots compiler data (roots.map RootField.unspread) n).2 := by
  induction roots generalizing m n with
  | nil => exact ⟨rfl, hmn⟩
  | cons root rest ih =>
    obtain ⟨⟨hfields, hsettled⟩, hrest⟩ := forall_mem_cons.1 hroots
    obtain ⟨hresult, hmemory⟩ := matches_executeRoot hcontext hfields hsettled compiler data m n hmn
    rcases hm : outcome (executor.executeRoot compiler root data) m with ⟨r, m'⟩
    rcases hn : outcome (executor.executeRoot compiler root.unspread data) n with ⟨r', n'⟩
    rw [hm, hn] at hresult hmemory
    obtain ⟨hresponse, hlast⟩ := ih hrest hmemory
    rw [map_cons, executeRoots_cons _ hm, executeRoots_cons _ hn, executeRoots_memory _ hm,
      executeRoots_memory _ hn, hresponse]
    refine ⟨?_, hlast⟩
    cases hresult with
    | ok h =>
      subst h
      rfl
    | error e => rfl

end Executor
end QueryProjection
