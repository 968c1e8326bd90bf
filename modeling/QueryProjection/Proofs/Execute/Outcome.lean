import QueryProjection.Execute
import QueryProjection.Proofs.Compile.Outcome
import QueryProjection.Proofs.Expr.Value

/-!
# What an execution gives

The counterpart of `QueryProjection.Proofs.Compile.Outcome` for fields of the operation.

* `Compiler.compileRoot_schema_gives` and `Compiler.compileRoot_materialized_gives` take the two
  ways of compiling a field of the operation apart;
* `Executor.exists_runDirect_iff` and `Executor.exists_runFetched_iff` say what a field without and
  with a data pass gives, and `Executor.exists_executeRoot_iff` which of the two is taken;
* `Executor.executeRoots_cons` and `Executor.execute_eq_executeRoots` put the response together.
-/

namespace QueryProjection

namespace Compiler

variable {compiler : Compiler} {schema : Schema} {root : RootField} {mode : Mode} {m m' : Memory}

/-- The scope of a field of the operation. -/
def rootScope (schema : Schema) (root : RootField) (mode : Mode) : Scope where
  mode
  contextChanged := false
  isRoot := true
  path := .root root.responseKey
  parameters := [schema.context]
  depth := 1

/-- The scope of a field of the operation over what was fetched for it. -/
def fetchedScope (schema : Schema) (root : RootField) (mode : Mode) (data : Parameter) : Scope :=
  { (rootScope schema root mode).bind data with contextChanged := true }

variable {r : Option Compiled}

theorem compileRoot_schema_gives :
    Gives (compiler.compileRoot schema root mode .schema) m r m'
      ↔ if defers mode root.field.field = true then r = none ∧ m' = m
        else ∃ compiled, r = some compiled
          ∧ Gives (compiler.compileExpanded (.parameter schema.context)
              (rootScope schema root mode) root.field) m compiled m' := by
  unfold compileRoot
  dsimp only
  split
  · exact gives_pure
  · simp only [gives_bind, gives_pure, existsAndEq, and_comm, true_and]
    rfl

theorem compileRoot_materialized_gives {data : Parameter} :
    Gives (compiler.compileRoot schema root mode (.materialized data)) m r m'
      ↔ ∃ compiled, r = some compiled
          ∧ Gives (compileResolved root.field.field
              (fun context scope => compiler.compileSelection context scope root.field.selection)
              ⟨.parameter data, true, none⟩ (fetchedScope schema root mode data)) m compiled
                m' := by
  unfold compileRoot
  dsimp only
  simp only [gives_bind, gives_pure, existsAndEq, and_comm, true_and]
  rfl

end Compiler

namespace Executor

variable {α : Type}

theorem outcome_compiling (next : Nat) (x : Compile α) (m : Memory) :
    outcome (compiling next x) m
      = ((outcome x { m with next }).1.mapError .ofCompileError,
        (outcome x { m with next }).2) := by
  rcases h : outcome x { m with next } with ⟨result, memory⟩
  have hrun : x.run.run { m with next } = (result, memory) := h
  simp only [compiling, outcome_bind, outcome_get, hrun]
  cases result <;> rfl

theorem compiling_gives {next : Nat} {x : Compile α} {a : α} {m m' : Memory} :
    Gives (compiling next x) m a m' ↔ Gives x { m with next } a m' := by
  simp only [Gives, outcome_compiling]
  rcases outcome x { m with next } with ⟨r, m''⟩
  cases r <;> simp [Except.mapError]

/-- The run that evaluates an expression and forces its value. -/
def evaluation (executor : Executor) (env : Environment) (e : Expr) :
    Run EvaluationError Value := do
  (← e.valueOf executor.services env).materialize

theorem value?_evaluation (executor : Executor) (env : Environment) (e : Expr) :
    (executor.evaluation env e).value? = e.forced? executor.services env := by
  simp only [evaluation, Run.value?_bind]
  rfl

theorem outcome_evaluate (executor : Executor) (path : FieldPath) (env : Environment) (e : Expr)
    (m : Memory) :
    outcome (executor.evaluate path env e) m
      = ((executor.evaluation env e).result.mapError fun e => ⟨e.message, path⟩,
          { m with events := m.events ++ (executor.evaluation env e).events }) := by
  rcases h : executor.evaluation env e with ⟨events, result⟩
  have hrun : (do (← e.valueOf executor.services env).materialize : Run EvaluationError Value)
      = ⟨events, result⟩ := h
  simp only [evaluate, hrun]
  cases result <;> rfl

theorem evaluate_gives {executor : Executor} {path : FieldPath} {env : Environment} {e : Expr}
    {v : Value} {m m' : Memory} :
    Gives (executor.evaluate path env e) m v m'
      ↔ e.forced? executor.services env = some v
        ∧ m' = { m with events := m.events ++ (executor.evaluation env e).events } := by
  rw [Gives, outcome_evaluate, ← value?_evaluation, Run.value?_eq_some_iff]
  cases (executor.evaluation env e).result <;> simp [Except.mapError, eq_comm]

variable {executor : Executor} {compiler : Compiler} {root : RootField} {data v : Value}
  {m m' : Memory}

/-- The environment of a field that is compiled against the schema. -/
def directEnvironment (executor : Executor) (compiled : Compiled) (data : Value) : Environment :=
  compiled.constants.environment.bind executor.schema.context data

/-- The parameter for what the data pass has fetched. -/
def fetchedParameter (executor : Executor) (fetch : Compiled) : Parameter :=
  ⟨executor.schema.next, "data", fetch.expression.ty⟩

theorem exists_runDirect_iff :
    (∃ m', Gives (executor.runDirect compiler root data) m v m')
      ↔ ∃ compiled m₁, Gives (compiler.compileExpanded (.parameter executor.schema.context)
          (Compiler.rootScope executor.schema root .full) root.field)
          { m with next := executor.schema.next } compiled m₁
        ∧ compiled.expression.forced? executor.services
            (executor.directEnvironment compiled data) = some v := by
  have hfull : Compiler.defers .full root.field.field = false := rfl
  unfold runDirect
  simp only [gives_bind, compiling_gives, Compiler.compileRoot_schema_gives, hfull,
    if_neg Bool.false_ne_true, existsAndEq, evaluate_gives, true_and, and_true]
  exact exists_comm

theorem exists_runFetched_iff {fetch : Compiled} :
    (∃ m', Gives (executor.runFetched compiler root fetch data) m v m')
      ↔ ∃ fetched compiled m₁, fetch.expression.forced? executor.services
            (executor.directEnvironment fetch data) = some fetched
        ∧ Gives (Compiler.compileResolved root.field.field
            (fun context scope => compiler.compileSelection context scope root.field.selection)
            ⟨.parameter (executor.fetchedParameter fetch), true, none⟩
            (Compiler.fetchedScope executor.schema root .full (executor.fetchedParameter fetch)))
            ⟨⟨executor.schema.next + 1, m.events
              ++ (executor.evaluation (executor.directEnvironment fetch data)
                fetch.expression).events⟩,
              m.fetched⟩ compiled m₁
        ∧ compiled.expression.forced? executor.services
            (compiled.constants.environment.bind (executor.fetchedParameter fetch) fetched)
            = some v := by
  unfold runFetched
  simp only [gives_bind, compiling_gives, Compiler.compileRoot_materialized_gives,
    evaluate_gives, existsAndEq, true_and, and_true, exists_and_left]
  exact exists_congr fun fetched => and_congr_right fun _ => exists_comm

/-- The data pass of a field of the operation decides which way is taken. -/
theorem exists_executeRoot_iff :
    (∃ m', Gives (executor.executeRoot compiler root data) m v m')
      ↔ ∃ fetch m₁, Gives (compiler.compileRoot executor.schema root .dataOnly .schema)
          { m with next := executor.schema.next } fetch m₁
        ∧ ((∃ compiled, fetch = some compiled ∧ compiled.deferredServices = true
              ∧ ∃ m', Gives (executor.runFetched compiler root compiled data) m₁ v m')
          ∨ ((∀ compiled, fetch = some compiled → compiled.deferredServices = false)
              ∧ ∃ m', Gives (executor.runDirect compiler root data) m₁ v m')) := by
  unfold executeRoot
  simp only [gives_bind, compiling_gives]
  rw [exists_comm]
  refine exists_congr fun fetch => ?_
  rw [exists_comm]
  refine exists_congr fun m₁ => ?_
  rw [exists_and_left]
  refine and_congr_right fun _ => ?_
  cases fetch with
  | none => simp
  | some compiled => cases hd : compiled.deferredServices <;> simp [hd]

variable {memory memory' : Memory} {result : Except FieldError Value}

theorem executeRoots_cons (rest : List RootField)
    (h : outcome (executor.executeRoot compiler root data) memory = (result, memory')) :
    (executor.executeRoots compiler data (root :: rest) memory).1
      = let response := (executor.executeRoots compiler data rest memory').1
        match result with
        | .ok value => { response with data := (root.responseKey, value) :: response.data }
        | .error e =>
          { data := (root.responseKey, .null) :: response.data, errors :=
            e :: response.errors } := by
  have h' : (executor.executeRoot compiler root data).run.run memory = (result, memory') := h
  simp only [executeRoots, h']
  cases result <;> rfl

theorem executeRoots_memory (rest : List RootField)
    (h : outcome (executor.executeRoot compiler root data) memory = (result, memory')) :
    (executor.executeRoots compiler data (root :: rest) memory).2
      = (executor.executeRoots compiler data rest memory').2 := by
  have h' : (executor.executeRoot compiler root data).run.run memory = (result, memory') := h
  simp only [executeRoots, h']
  cases result <;> rfl

theorem execute_eq_executeRoots {document : Document} {supplied : Variables}
    {roots : List RootField}
    (hroots : Compiler.rootFields (.ofDocument document supplied) document = .ok roots) :
    (executor.execute document supplied data).1
      = (executor.executeRoots ⟨⟨document.declarations, supplied⟩, executor.settings⟩ data roots
          { next := executor.schema.next }).1 := by
  simp only [execute, hroots]
  rfl

end Executor
end QueryProjection
