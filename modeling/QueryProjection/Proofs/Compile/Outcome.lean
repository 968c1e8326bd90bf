import Mathlib.Tactic.Common
import QueryProjection.Compile.Root

/-!
# What a compilation gives

Compiling, running a hook and executing are computations over a state that may fail and keep the
state when they do.  `outcome x s` is how such a computation ends, and `Gives x s a s'` says that
`x`, started from `s`, ends with `a` and leaves `s'`.  The first part takes the primitive
computations apart; the second says for each function of the compiler what it gives, in terms of the
functions it calls. Nothing after this module unfolds one of them to learn about a compilation that
succeeds.

* `Resolve.bindArguments_gives`, `Resolve.resolverIn_gives`, `Resolve.build_gives` and
  `Resolve.resolve_gives` for a field before its selection is applied;
* `Compiler.compileObject_gives`, `Compiler.compileList_gives`, `Compiler.compileField_gives` and
  `Compiler.compileFrom_gives` for a field with its selection;
* `Compiler.contribute_gives` for a field of a selection, and `Compiler.assemble_gives` for what
  becomes of the fields.
-/

namespace QueryProjection

open Compile List

@[simp] theorem Parameter.run_fresh (name : String) (ty : Ty) (n : Nat) :
    (Parameter.fresh name ty).run n = (⟨n, name, ty⟩, n + 1) := rfl

/-! ## Computations over a state -/

section Outcome

variable {ε σ α β : Type}

/-- How a computation ends when it is started from a state, and the state it leaves. -/
def outcome (x : ExceptT ε (StateM σ) α) (s : σ) : Except ε α × σ :=
  x.run.run s

@[simp] theorem outcome_pure (a : α) (s : σ) :
    outcome (pure a : ExceptT ε (StateM σ) α) s = (.ok a, s) := rfl

@[simp] theorem outcome_throw (e : ε) (s : σ) :
    outcome (throw e : ExceptT ε (StateM σ) α) s = (.error e, s) := rfl

theorem outcome_bind (x : ExceptT ε (StateM σ) α) (f : α → ExceptT ε (StateM σ) β) (s : σ) :
    outcome (x >>= f) s
      = match outcome x s with
        | (.ok a, s') => outcome (f a) s'
        | (.error e, s') => (.error e, s') := by
  unfold outcome ExceptT.run StateT.run
  simp only [bind, ExceptT.bind, ExceptT.mk, StateT.bind, ExceptT.bindCont]
  cases x s with
  | mk r s' => cases r <;> rfl

@[simp] theorem outcome_get (s : σ) :
    outcome (get : ExceptT ε (StateM σ) σ) s = (.ok s, s) := rfl

/-- Started from `s`, the computation ends with `a` and leaves `s'`. -/
def Gives (x : ExceptT ε (StateM σ) α) (s : σ) (a : α) (s' : σ) : Prop :=
  outcome x s = (.ok a, s')

variable {a b : α} {s s' : σ} {x : ExceptT ε (StateM σ) α} {f : α → ExceptT ε (StateM σ) β}

theorem toOption_eq_some_iff {x : Except ε α} : x.toOption = some a ↔ x = .ok a := by
  cases x <;> simp [Except.toOption]

theorem exists_gives_iff : (∃ s', Gives x s a s') ↔ (outcome x s).1.toOption = some a := by
  unfold Gives
  rcases outcome x s with ⟨result, s₁⟩
  cases result <;> simp [Except.toOption]

@[simp] theorem gives_pure :
    Gives (pure a : ExceptT ε (StateM σ) α) s b s' ↔ b = a ∧ s' = s := by
  simp [Gives, eq_comm]

@[simp] theorem gives_throw {e : ε} :
    Gives (throw e : ExceptT ε (StateM σ) α) s a s' ↔ False := by
  simp [Gives]

@[simp] theorem gives_bind {x : ExceptT ε (StateM σ) α} {f : α → ExceptT ε (StateM σ) β} {b : β} :
    Gives (x >>= f) s b s' ↔ ∃ a s₁, Gives x s a s₁ ∧ Gives (f a) s₁ b s' := by
  simp only [Gives, outcome_bind]
  rcases outcome x s with ⟨r, s₁⟩
  cases r <;> simp

theorem gives_ite {c : Prop} [Decidable c] {y : ExceptT ε (StateM σ) α} :
    Gives (if c then x else y) s a s' ↔ if c then Gives x s a s' else Gives y s a s' := by
  split <;> rfl

theorem outcome_bind_gives (h : Gives x s a s') : outcome (x >>= f) s = outcome (f a) s' := by
  have hx : outcome x s = (.ok a, s') := h
  rw [outcome_bind, hx]

theorem outcome_bind_error {e : ε} (h : (outcome x s).1 = .error e) :
    (outcome (x >>= f) s).1 = .error e := by
  rw [outcome_bind]
  rcases hx : outcome x s with ⟨r, s'⟩
  rw [hx] at h
  obtain rfl : r = .error e := h
  rfl

@[simp] theorem gives_get {t : σ} :
    Gives (get : ExceptT ε (StateM σ) σ) s t s' ↔ t = s ∧ s' = s := by
  simp [Gives, eq_comm]

variable {F : ε → Prop}

/-- If the computation fails, it fails with an error of which `F` holds. -/
def FailsWith (F : ε → Prop) (x : ExceptT ε (StateM σ) α) (s : σ) : Prop :=
  ∀ e, (outcome x s).1 = .error e → F e

theorem failsWith_pure (a : α) (s : σ) : FailsWith F (pure a : ExceptT ε (StateM σ) α) s :=
  fun _ h => nomatch h

theorem failsWith_throw {e : ε} (h : F e) (s : σ) :
    FailsWith F (throw e : ExceptT ε (StateM σ) α) s := by
  rintro _ ⟨⟩
  exact h

theorem FailsWith.bind (hx : FailsWith F x s) (hf : ∀ a s', Gives x s a s' → FailsWith F (f a) s') :
    FailsWith F (x >>= f) s := by
  intro e he
  rw [outcome_bind] at he
  rcases hs : outcome x s with ⟨r, s'⟩
  rw [hs] at he
  cases r with
  | error e' =>
    obtain rfl : e' = e := Except.error.inj he
    exact hx e' (by rw [hs])
  | ok a => exact hf a s' hs e he

end Outcome

/-! ## Hooks and compilations -/

@[simp] theorem Hook.gives_ofFresh {α : Type} {x : Fresh α} {a : α} {j j' : Journal} :
    Gives (Hook.ofFresh x) j a j'
      ↔ a = (x.run j.next).1 ∧ j' = { j with next := (x.run j.next).2 } := by
  have h : outcome (Hook.ofFresh x) j
      = (.ok (x.run j.next).1, { j with next := (x.run j.next).2 }) := rfl
  simp [Gives, h, eq_comm]

variable {name : String} {e : Expr}

namespace Compile

variable {α : Type} {a : α} {m m' : Memory}

theorem outcome_ofFresh (x : Fresh α) (m : Memory) :
    outcome (ofFresh x) m = (.ok (x.run m.next).1, { m with next := (x.run m.next).2 }) := rfl

theorem outcome_ofExcept (r : Except CompileError α) (m : Memory) :
    outcome (ofExcept r) m = (r, m) := by
  cases r <;> rfl

theorem outcome_ofRun (run : Run CompileError α) (m : Memory) :
    outcome (ofRun run) m = (run.result, { m with events := m.events ++ run.events }) := by
  obtain ⟨events, result⟩ := run
  cases result <;> rfl

theorem outcome_ofHook (path : FieldPath) (extension : String) (hook : Hook α) (m : Memory) :
    outcome (ofHook path extension hook) m
      = ((outcome hook m.toJournal).1.mapError (.extensionFailed path extension),
          { m with toJournal := (outcome hook m.toJournal).2 }) := by
  rcases h : outcome hook m.toJournal with ⟨result, journal⟩
  have hrun : hook.run.run m.toJournal = (result, journal) := h
  simp only [ofHook, outcome_bind, outcome_get, hrun]
  cases result <;> rfl

theorem outcome_rememberFetched (path : FieldPath) (name key : String) (m : Memory) :
    outcome (rememberFetched path name key) m
      = (.ok (), { m with fetched := m.fetched.insert path name key }) := rfl

@[simp] theorem gives_ofFresh {x : Fresh α} :
    Gives (ofFresh x) m a m'
      ↔ a = (x.run m.next).1 ∧ m' = { m with next := (x.run m.next).2 } := by
  simp [Gives, outcome_ofFresh, eq_comm]

@[simp] theorem gives_ofExcept {r : Except CompileError α} :
    Gives (ofExcept r) m a m' ↔ r = .ok a ∧ m' = m := by
  simp [Gives, outcome_ofExcept, eq_comm]

@[simp] theorem gives_ofRun {run : Run CompileError α} :
    Gives (ofRun run) m a m'
      ↔ run.result = .ok a ∧ m' = { m with events := m.events ++ run.events } := by
  simp [Gives, outcome_ofRun, eq_comm]

variable {path : FieldPath} {extension : String}

@[simp] theorem gives_ofHook {hook : Hook α} :
    Gives (ofHook path extension hook) m a m'
      ↔ ∃ journal, Gives hook m.toJournal a journal ∧ m' = { m with toJournal := journal } := by
  simp only [Gives, outcome_ofHook]
  rcases outcome hook m.toJournal with ⟨r, journal⟩
  cases r <;> simp [Except.mapError, eq_comm]

theorem gives_ofHook_bind {β : Type} {hook : Hook α} {next : α → Compile β} {b : β} :
    Gives (ofHook path extension hook >>= next) m b m'
      ↔ ∃ a journal, Gives hook m.toJournal a journal ∧ Gives (next a)
        { m with toJournal := journal } b m' := by
  simp only [gives_bind, gives_ofHook, existsAndEq, and_true]

@[simp] theorem gives_rememberFetched {key : String} {u : Unit} :
    Gives (rememberFetched path name key) m u m'
      ↔ m' = { m with fetched := m.fetched.insert path name key } := by
  simp [Gives, outcome_rememberFetched, eq_comm]

end Compile

/-! ## Resolving -/

namespace Resolve

variable {field : SelectedField} {given : VariableValues} {context : Expr} {scope : Scope}
  {m m' : Memory}

theorem argumentValue_eq (path : FieldPath) (definition : ArgumentDefinition) :
    argumentValue field given path definition = (do
      let v ← match Assoc.find? definition.name field.arguments with
        | none => .ok (definition.default.getD .null)
        | some a => (given.resolve a).mapError (.missingVariable path)
      if definition.required && v.isNull then
        .error (.missingArgument path definition.name)
      else .ok v) := by
  unfold argumentValue
  cases Assoc.find? definition.name field.arguments with
  | none => rfl
  | some a => cases h : given.resolve a <;> simp only [h] <;> rfl

variable {path : FieldPath} {definition : ArgumentDefinition} {r : Resolved}

theorem argumentValue_eq_ok_iff {v : Value} :
    argumentValue field given path definition = .ok v
      ↔ (∀ a, Assoc.find? definition.name field.arguments = some a → given.resolve a = .ok v)
        ∧ (Assoc.find? definition.name field.arguments = none → definition.default.getD .null = v)
        ∧ (definition.required = true → v.isNull = false) := by
  have hchecked : ∀ w : Value, (if definition.required && w.isNull then
      (.error (.missingArgument path definition.name) : Except CompileError Value) else .ok w)
      = .ok v ↔ w = v ∧ (definition.required = true → v.isNull = false) := by
    intro w
    cases hrequired : definition.required <;> cases hnull : w.isNull <;> simp
    · rintro rfl
      exact hnull
    · rintro rfl
      exact hnull
  rw [argumentValue_eq]
  cases Assoc.find? definition.name field.arguments with
  | none => simpa [bind, Except.bind] using hchecked (definition.default.getD .null)
  | some a =>
    cases h : given.resolve a with
    | error name => simp [h, Except.mapError, bind, Except.bind]
    | ok w => simpa [h, Except.mapError, bind, Except.bind] using hchecked w

theorem error_of_argumentValue {e : CompileError}
    (h : argumentValue field given path definition = .error e) :
    e = .missingArgument path definition.name ∨ ∃ name, e = .missingVariable path name := by
  have hchecked : ∀ w : Value, (if definition.required && w.isNull then
      (.error (.missingArgument path definition.name) : Except CompileError Value) else .ok w)
        = .error e → e = .missingArgument path definition.name := by
    intro w h
    split at h <;> cases h
    rfl
  rw [argumentValue_eq] at h
  split at h
  · exact .inl (hchecked _ h)
  · rename_i a _
    cases hresolve : given.resolve a with
    | error name =>
      rw [hresolve] at h
      cases h
      exact .inr ⟨name, rfl⟩
    | ok w =>
      rw [hresolve] at h
      exact .inl (hchecked w h)

/-- The parameter that the arguments of a field are bound to. -/
def argumentsParameter (field : SelectedField) (next : Nat) : Parameter :=
  ⟨next, field.definition.argumentsParameter.name, field.definition.argumentsParameter.ty⟩

theorem bindArguments_gives {r : Option (Parameter × Value)} :
    Gives (bindArguments field given path) m r m'
      ↔ (∀ a ∈ field.arguments, Assoc.contains a.1 field.definition.arguments = true)
        ∧ (field.definition.arguments = [] ∧ r = none ∧ m' = m
          ∨ field.definition.arguments ≠ [] ∧ ∃ values,
              argumentValues field given path field.definition.arguments = .ok values
              ∧ r = some (argumentsParameter field m.next, .object values)
              ∧ m' = { m with next := m.next + 1 }) := by
  have hall : (field.arguments.find? fun a => !Assoc.contains a.1 field.definition.arguments) = none
      ↔ ∀ a ∈ field.arguments, Assoc.contains a.1 field.definition.arguments = true := by
    simp [List.find?_eq_none]
  rw [← hall]
  unfold bindArguments
  dsimp only
  split
  · rename_i h
    simp [h]
  · rename_i h
    by_cases hd : field.definition.arguments = []
    · simp only [h, true_and]
      simp [hd]
    · simp only [h, hd, List.isEmpty_iff, ↓reduceIte, gives_bind, gives_ofExcept,
        gives_ofFresh, Parameter.run_fresh, gives_pure, argumentsParameter,
        ne_eq, not_false_eq_true, true_and, false_and, false_or, existsAndEq, and_true]

/-- Whether the resolver of a field reads what was fetched for it. -/
def readsFetched (field : SelectedField) (context : Expr) (scope : Scope) : Bool :=
  scope.contextChanged && field.definition.requiresService && context.ty.shape?.isSome

theorem resolverIn_gives :
    Gives (resolverIn field context scope) m e m'
      ↔ m' = m ∧ if readsFetched field context scope = true then
          substituteDependencies field.definition (m.fetched.get scope.path) context scope.path
            = .ok e
        else e = field.definition.resolve := by
  show Gives (if readsFetched field context scope = true then _ else _) m e m' ↔ _
  split
  · simp [and_comm]
  · simp [and_comm]

/-- The resolver in its context, with its arguments. -/
def place (definition : FieldDefinition) (context : Expr) (arguments : Option Parameter)
    (resolver : Expr) : Expr :=
  let placed := resolver.replace (.identity definition.context) context
  match arguments with
  | some p => placed.replace (.identity definition.argumentsParameter) (.parameter p)
  | none => placed

theorem build_eq :
    build field given context scope = (do
      let arguments ← bindArguments field given scope.path
      let resolver ← resolverIn field context scope
      let expression := place field.definition context (arguments.map Prod.fst) resolver
      match dangling? expression scope (arguments.map Prod.fst) with
      | some p => throw (.danglingContext scope.path p.name)
      | none => return { expression, materialized := false, arguments }) := by
  unfold build
  refine bind_congr fun arguments => bind_congr fun resolver => ?_
  rcases arguments with _ | ⟨p, value⟩ <;> rfl

theorem build_gives :
    Gives (build field given context scope) m r m'
      ↔ ∃ arguments resolver, Gives (bindArguments field given scope.path) m arguments m'
          ∧ Gives (resolverIn field context scope) m' resolver m'
          ∧ r = ⟨place field.definition context (arguments.map Prod.fst) resolver, false, arguments⟩
          ∧ dangling? r.expression scope (arguments.map Prod.fst) = none := by
  simp only [build_eq, gives_bind]
  constructor
  · rintro ⟨arguments, m₁, hb, resolver, m₂, hr, h⟩
    obtain rfl : m₂ = m₁ := (resolverIn_gives.1 hr).1
    split at h
    · simp at h
    · rename_i hd
      obtain ⟨rfl, rfl⟩ := gives_pure.1 h
      exact ⟨arguments, resolver, hb, hr, rfl, hd⟩
  · rintro ⟨arguments, resolver, hb, hr, rfl, hd⟩
    refine ⟨arguments, m', hb, resolver, m', hr, ?_⟩
    simp [hd]

/-- The member that a plain field is read back from, over fetched data. -/
def readBack? (field : SelectedField) (context : Expr) (scope : Scope) : Option Expr :=
  if scope.contextChanged && !field.definition.requiresService then
    context.recordMember? field.responseKey
  else none

theorem resolve_gives :
    Gives (resolve field given context scope) m r m'
      ↔ (∃ e, readBack? field context scope = some e ∧ r = ⟨e, true, none⟩ ∧ m' = m)
        ∨ readBack? field context scope = none
          ∧ Gives (build field given context scope) m r m' := by
  unfold resolve readBack?
  split
  · cases context.recordMember? field.responseKey <;> simp
  · simp

end Resolve

/-! ## Fields -/

namespace Compiler

section Hooks

variable {context : HookContext} {extensions : List Extension} {m m' : Memory} {x : Extension}
  {pre pre' : PreSelection} {post post' : PostSelection}

theorem runPreSelection_cons_gives :
    Gives (runPreSelection context (x :: extensions) pre) m pre' m'
      ↔ ∃ pre₁ journal, Gives (x.preSelection context pre) m.toJournal pre₁ journal
          ∧ Gives (runPreSelection context extensions pre₁)
            { m with toJournal := journal } pre' m' :=
  gives_ofHook_bind

theorem runPostSelection_cons_gives :
    Gives (runPostSelection context (x :: extensions) post) m post' m'
      ↔ ∃ post₁ journal, Gives (x.postSelection context post) m.toJournal post₁ journal
          ∧ Gives (runPostSelection context extensions post₁)
            { m with toJournal := journal } post' m' :=
  gives_ofHook_bind

theorem keeps_of_runPreSelection {I : PreSelection → Memory → Prop}
    (hstep : ∀ x ∈ extensions, ∀ {pre m pre' journal},
      Gives (x.preSelection context pre) m.toJournal pre' journal →
      I pre m → I pre' { m with toJournal := journal })
    (h : Gives (runPreSelection context extensions pre) m pre' m') (hpre : I pre m) :
    I pre' m' := by
  induction extensions generalizing pre m with
  | nil =>
    obtain ⟨rfl, rfl⟩ := gives_pure.1 h
    exact hpre
  | cons x rest ih =>
    obtain ⟨pre₁, journal, hhook, h⟩ := runPreSelection_cons_gives.1 h
    exact ih (fun x hx => hstep x (mem_cons_of_mem _ hx)) h (hstep x mem_cons_self hhook hpre)

theorem keeps_of_runPostSelection {I : PostSelection → Memory → Prop}
    (hstep : ∀ x ∈ extensions, ∀ {post m post' journal},
      Gives (x.postSelection context post) m.toJournal post' journal → I post m →
      I post' { m with toJournal := journal })
    (h : Gives (runPostSelection context extensions post) m post' m') (hpost : I post m) :
    I post' m' := by
  induction extensions generalizing post m with
  | nil =>
    obtain ⟨rfl, rfl⟩ := gives_pure.1 h
    exact hpost
  | cons x rest ih =>
    obtain ⟨post₁, journal, hhook, h⟩ := runPostSelection_cons_gives.1 h
    exact ih (fun x hx => hstep x (mem_cons_of_mem _ hx)) h (hstep x mem_cons_self hhook hpost)

end Hooks

variable {field : SelectedField} {select : Select} {resolved : Resolved} {scope : Scope}
  {constants : Constants} {context : Expr} {compiled : Compiled} {m m' : Memory}

/-- The placeholder for an object or an element of this type. -/
def placeholder (field : SelectedField) (ty : Ty) (next : Nat) : Parameter :=
  ⟨next, placeholderName field ty, ty⟩

/-- The scope of the selection of an object. -/
def objectScope (scope : Scope) (resolved : Resolved) (element : Parameter) : Scope :=
  { scope.bind element with contextChanged := scope.contextChanged || resolved.materialized }

/-- The projection of an object, or the object itself without a selection. -/
def projectObject (source : Expr) (element : Parameter) (fields : SelectionMap) : Expr :=
  if fields.isEmpty then source else .projectOne source element fields.toRecord

theorem compileObject_gives :
    Gives (compileObject field select resolved scope constants) m compiled m'
      ↔ resolved.expression.ty.isComposite = true
        ∧ ∃ element selection, element = placeholder field resolved.expression.ty m.next
          ∧ Gives (select (.parameter element) (objectScope scope resolved element))
              { m with next := m.next + 1 } selection m'
          ∧ compiled = {
              expression := projectObject resolved.expression element selection.fields
              constants := constants.extend selection.constants
              deferredServices := selection.deferredServices } := by
  unfold compileObject
  dsimp only
  by_cases hty : resolved.expression.ty.isComposite = true
  · simp only [hty, Bool.not_true, Bool.false_eq_true, ↓reduceIte, gives_bind,
      gives_ofFresh, Parameter.run_fresh, gives_pure, true_and, existsAndEq, and_true]
    rfl
  · simp [hty]

/-- What the hooks of a list field know about it. -/
def hookContext (scope : Scope) (resolved : Resolved) : HookContext where
  mode := scope.mode
  materialized := resolved.materialized
  path := scope.path
  arguments := resolved.arguments.map Prod.fst
  argumentValues := resolved.arguments.map Prod.snd

/-- The scope of the selection of an element. -/
def elementScope (scope : Scope) (resolved : Resolved) (element : Parameter)
    (pre : PreSelection) : Scope :=
  { scope.bind pre.element with
    contextChanged := scope.contextChanged || resolved.materialized || pre.element != element }

/-- The projection of a collection; below the fields of the operation the full pass forces it. -/
def projectList (scope : Scope) (source : Expr) (element : Parameter) (fields : SelectionMap) :
    Expr :=
  let projected := Expr.projectEach source element fields.toRecord
  if scope.mode = .full && !scope.isRoot && !projected.ty.isMap then .materialize projected
  else projected

/-- The selected fields of an element, with what the extensions read of it in the data pass. -/
def elementFields (field : SelectedField) (scope : Scope) (ty : Ty) (pre : PreSelection)
    (fields : SelectionMap) : Except CompileError SelectionMap :=
  if scope.mode = .dataOnly && !field.definition.extensions.isEmpty && !fields.isEmpty then do
    let read ← pre.collection.dependencies (.type ty) scope.path
    return addElementDependencies pre.elementContext read fields
  else return fields

theorem ofExcept_elementFields (ty : Ty) (pre : PreSelection) (fields : SelectionMap) :
    Compile.ofExcept (elementFields field scope ty pre fields)
      = if scope.mode = .dataOnly && !field.definition.extensions.isEmpty && !fields.isEmpty then do
          let read ← Compile.ofExcept (pre.collection.dependencies (.type ty) scope.path)
          pure (addElementDependencies pre.elementContext read fields)
        else pure fields := by
  unfold elementFields
  split
  · cases pre.collection.dependencies (.type ty) scope.path <;> rfl
  · rfl

theorem compileList_eq :
    compileList field select resolved scope constants
      = match resolved.expression.ty.element? with
        | none => throw (.shapeMismatch scope.path "a list" resolved.expression.ty.text)
        | some ty => do
          let element ← Compile.ofFresh (Parameter.fresh (placeholderName field ty) ty)
          let pre ← runPreSelection (hookContext scope resolved) field.definition.extensions
            ⟨resolved.expression, element, .parameter element⟩
          let selection ← select pre.elementContext (elementScope scope resolved element pre)
          let fields ← Compile.ofExcept
            (elementFields field scope element.ty pre selection.fields)
          if fields.isEmpty then
            return {
              expression := pre.collection
              constants := constants.extend selection.constants
              deferredServices := selection.deferredServices }
          else do
            let post ← runPostSelection (hookContext scope resolved)
              field.definition.extensions.reverse ⟨fields, pre.element⟩
            return {
              expression := projectList scope pre.collection post.element post.selection
              constants := constants.extend selection.constants
              deferredServices := selection.deferredServices } := by
  unfold compileList
  cases resolved.expression.ty.element? with
  | none => rfl
  | some ty =>
    refine bind_congr fun element => bind_congr fun pre => bind_congr fun selection => ?_
    rw [ofExcept_elementFields]
    dsimp only
    split
    · rw [bind_assoc]
      rfl
    · rfl

theorem compileList_gives :
    Gives (compileList field select resolved scope constants) m compiled m'
      ↔ ∃ ty element pre m₁ selection m₂ fields,
          resolved.expression.ty.element? = some ty
          ∧ element = placeholder field ty m.next
          ∧ Gives (runPreSelection (hookContext scope resolved) field.definition.extensions
              ⟨resolved.expression, element, .parameter element⟩) { m with next := m.next + 1 }
              pre m₁
          ∧ Gives (select pre.elementContext (elementScope scope resolved element pre)) m₁
              selection m₂
          ∧ elementFields field scope ty pre selection.fields = .ok fields
          ∧ if fields.isEmpty = true then
              m' = m₂ ∧ compiled = {
                expression := pre.collection
                constants := constants.extend selection.constants
                deferredServices := selection.deferredServices }
            else ∃ post,
              Gives (runPostSelection (hookContext scope resolved)
                field.definition.extensions.reverse ⟨fields, pre.element⟩) m₂ post m'
              ∧ compiled = {
                expression := projectList scope pre.collection post.element post.selection
                constants := constants.extend selection.constants
                deferredServices := selection.deferredServices } := by
  rw [compileList_eq]
  cases resolved.expression.ty.element? with
  | none => simp
  | some ty =>
    simp only [gives_bind, gives_ofFresh, Parameter.run_fresh, gives_ofExcept, gives_ite,
      gives_pure, placeholder, existsAndEq, Option.some.injEq, true_and, and_true, exists_and_left,
      and_comm (b := m' = _)]

/-- The constants and the scope of a field with its arguments. -/
def withArguments (scope : Scope) (arguments : Option (Parameter × Value)) : Constants × Scope :=
  match arguments with
  | some (p, value) => (Constants.insert {} p value, scope.bind p)
  | none => ({}, scope)

theorem compileResolved_eq :
    compileResolved field select resolved scope
      = match field.definition.shape with
        | .leaf => return ⟨resolved.expression, (withArguments scope resolved.arguments).1, false⟩
        | .object => compileObject field select resolved (withArguments scope resolved.arguments).2
            (withArguments scope resolved.arguments).1
        | .list => compileList field select resolved (withArguments scope resolved.arguments).2
            (withArguments scope resolved.arguments).1 := by
  unfold compileResolved withArguments
  rcases resolved.arguments with _ | ⟨p, value⟩ <;> rfl

variable {compiler : Compiler} {fields fields' : SelectionMap} {selection : CompiledSelection}

theorem compileField_gives :
    Gives (compiler.compileField field select context scope) m compiled m'
      ↔ (∀ limit, compiler.settings.maxDepth = some limit → scope.depth ≤ limit)
        ∧ ∃ resolved m₁, Gives (Resolve.resolve field compiler.values context scope) m resolved m₁
          ∧ Gives (compileResolved field select resolved scope) m₁ compiled m' := by
  unfold compileField
  rcases compiler.settings.maxDepth with _ | limit
  · simp
  · by_cases h : limit < scope.depth
    · have h' : ¬ scope.depth ≤ limit := by omega
      simp [h, h']
    · have h' : scope.depth ≤ limit := by omega
      simp [h, h']

/-- The parameter that stands for the context of a fragment's fields. -/
def fragmentParameter (name typeCondition : String) (next : Nat) : Parameter :=
  ⟨next, "fragment_" ++ name, .object typeCondition⟩

theorem compileFrom_gives {origin : Origin} :
    Gives (compiler.compileFrom field origin select context scope) m compiled m'
      ↔ ((origin = .direct ∨ context.ty.shape?.isSome = true)
          ∧ Gives (compiler.compileField field select context scope) m compiled m')
        ∨ ∃ name typeCondition own compiled' m₁ run,
          origin = .fragment name typeCondition ∧ context.ty.shape?.isSome = false
          ∧ own = fragmentParameter name typeCondition m.next
          ∧ Gives (compiler.compileField field select (.parameter own) (scope.bind own))
              { m with next := m.next + 1 } compiled' m₁
          ∧ run = compiled'.expression.rebase compiler.settings.typeMatching own context
              scope.parameters scope.path
          ∧ run.result = .ok compiled.expression
          ∧ compiled = { compiled' with expression := compiled.expression }
          ∧ m' = { m₁ with events := m₁.events ++ run.events } := by
  unfold compileFrom
  rcases origin with _ | ⟨name, typeCondition⟩
  · simp
  · by_cases hrec : context.ty.shape?.isSome = true
    · simp [hrec]
    · simp only [hrec, Bool.false_eq_true, ↓reduceIte, gives_bind, gives_ofFresh,
        Parameter.run_fresh, gives_ofRun, gives_pure, reduceCtorEq, or_self,
        false_and, false_or]
      constructor
      · rintro ⟨own, _, ⟨rfl, rfl⟩, compiled', m₁, hc, expression, _, ⟨hr, rfl⟩, rfl, rfl⟩
        exact ⟨name, typeCondition, _, compiled', m₁, _, rfl, trivial, rfl, hc, rfl, hr, rfl, rfl⟩
      · rintro ⟨_, _, _, compiled', m₁, _, ho, -, rfl, hc, rfl, hr, hcompiled, rfl⟩
        cases ho
        exact ⟨_, _, ⟨rfl, rfl⟩, compiled', m₁, hc, _, _, ⟨hr, rfl⟩, hcompiled, rfl⟩

/-! ## Selections -/

/-- Compiles one field of a selection, or finds out what has to be fetched for it. -/
def contribute (compiler : Compiler) (context : Expr) (scope : Scope) (field : Expanded) :
    Compile Contribution :=
  let scope' := scope.field field.field.responseKey
  if defers scope.mode field.field then do
    let dependencies ←
      Compile.ofExcept (serviceDependencies field.field.definition context scope'.path)
    return .deferred scope'.path dependencies
  else do
    let compiled ← compiler.compileExpanded context scope' field
    return .selected field.field.responseKey compiled

theorem compileFields_cons (compiler : Compiler) (field : Expanded) (rest : List Expanded) :
    compiler.compileFields context scope (field :: rest) = (do
      let contribution ← compiler.contribute context scope field
      return contribution :: (← compiler.compileFields context scope rest)) := by
  rw [compileFields]
  unfold contribute
  dsimp only
  split <;> simp only [bind_assoc, pure_bind]

theorem contribute_gives {e : Expanded} {contribution : Contribution} :
    Gives (compiler.contribute context scope e) m contribution m'
      ↔ (defers scope.mode e.field = true ∧ ∃ dependencies,
          serviceDependencies e.field.definition context (scope.path.child e.field.responseKey)
            = .ok dependencies
          ∧ contribution = .deferred (scope.path.child e.field.responseKey) dependencies
          ∧ m' = m)
        ∨ defers scope.mode e.field = false ∧ ∃ compiled,
          Gives (compiler.compileExpanded context (scope.field e.field.responseKey) e) m compiled m'
          ∧ contribution = .selected e.field.responseKey compiled := by
  unfold contribute
  dsimp only
  split
  · rename_i h
    simp only [h, gives_bind, gives_ofExcept, gives_pure, true_and,
      Bool.true_eq_false, false_and, or_false, existsAndEq, and_true]
    rfl
  · rename_i h
    simp only [h, gives_bind, gives_pure, true_and, Bool.false_eq_true,
      false_and, false_or, existsAndEq, and_true]

theorem fetchAll_nil_gives : Gives (fetchAll [] fields) m fields' m' ↔ fields' = fields ∧ m' = m :=
  gives_pure

theorem fetchAll_cons_gives {path : FieldPath} {rest : List (FieldPath × String × Expr)} :
    Gives (fetchAll ((path, name, e) :: rest) fields) m fields' m'
      ↔ Gives (fetchAll rest (fields.insertFetched name e).2)
          { m with fetched := m.fetched.insert path name (fields.insertFetched name e).1 }
          fields' m' := by
  simp only [fetchAll, gives_bind, gives_rememberFetched, exists_eq_left, exists_const]

theorem assemble_gives {contributions : List Contribution} :
    Gives (assemble contributions) m selection m'
      ↔ ∃ fields, Gives (fetchAll (contributions.flatMap Contribution.dependencies)
            (contributions.foldl CompiledSelection.add {}).fields) m fields m'
          ∧ selection = { contributions.foldl CompiledSelection.add {} with fields } := by
  simp only [assemble, gives_bind, gives_pure, existsAndEq, and_true]

theorem compileSelection_gives {expanded : ExpandedSelection} :
    Gives (compiler.compileSelection context scope expanded) m selection m'
      ↔ ∃ fields contributions m₁, expanded = .selects fields
          ∧ Gives (compiler.compileFields context scope fields) m contributions m₁
          ∧ Gives (assemble contributions) m₁ selection m' := by
  cases expanded with
  | failed error => simp [compileSelection]
  | selects fields => simp [compileSelection]

theorem compileExpanded_eq (compiler : Compiler) (e : Expanded) :
    compiler.compileExpanded context scope e
      = compiler.compileFrom e.field e.origin
          (fun context scope => compiler.compileSelection context scope e.selection) context
          scope := by
  obtain ⟨field, origin, fragments, selection⟩ := e
  rw [compileExpanded]
  rfl

end Compiler

/-- Induction over expanded fields: a field comes with the hypothesis for the fields below it. -/
theorem Expanded.induct {motive : Expanded → Prop}
    (field : ∀ e : Expanded,
      (∀ fields, e.selection = .selects fields → ∀ f ∈ fields, motive f) → motive e)
    (e : Expanded) : motive e :=
  @Expanded.rec motive
    (fun selection => ∀ fields, selection = .selects fields → ∀ f ∈ fields, motive f)
    (fun fields => ∀ f ∈ fields, motive f)
    (fun f origin fragments selection ih => field (.mk f origin fragments selection) (ih ()))
    (fun _ ih _ h => by cases h; exact ih)
    (fun _ _ h => nomatch h)
    (forall_mem_nil _)
    (fun _ _ he hes _ h => (mem_cons.1 h).elim (· ▸ he) (hes _)) e

end QueryProjection
