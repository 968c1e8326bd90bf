import QueryProjection.Proofs.Compile.Closed
import QueryProjection.Proofs.Eager
import QueryProjection.Proofs.Execute.Outcome
import QueryProjection.Proofs.Expr.Substitution

/-!
# Execution meets no unbound parameter

The environments of an execution bind one context, the schema's or the fetched data, and the
constants of what was compiled.  By `Compiler.closed_of_compileExpanded` that is everything a
compiled expression mentions, so evaluating it finds every parameter bound.

* `Expr.evaluated_by_freeParameters` says what evaluating any expression depends on;
* `Compiler.over_compileRoot_schema` and `Compiler.over_compileRoot_materialized` say what a field
  of the operation mentions;
* `Executor.compiled_closed_and_bound` puts that together with what a response can report.

## Why values have to be sound

Closed expressions do not settle it.  A lazy sequence can fail with the error of an unbound
parameter of its own making, and so can a provider of services, wherever the sequence comes from:
the data, a constant of the schema, a variable or the result of a service.  A value is sound if
nothing in it fails that way (`Value.Sound`).  Evaluating keeps values sound, and this is the one
property of values that has to be carried along (`Value.kept_sound`).  Values agree if they are the
same up to what is observed in iterating them; to be equal numbers is not enough, since a whole
number and a fraction differ in their text.

A response reports messages and not errors.  What it can report is told from the first characters of
a message, by which an unbound parameter is told from everything else.
-/

namespace QueryProjection

open Compiler EvaluationError Expr List Value

/-! ## What a field of the operation mentions -/

namespace Compiler

variable {P : Value → Prop} {E : EvaluationError → Prop} {compiler : Compiler} {schema : Schema}
  {root : RootField} {mode : Mode} {compiled : Compiled} {m m' : Memory}

section Over

variable {data : Parameter} (kept : Kept P E) (hfields : root.field.Every fun field _ =>
    field.definition.Contained P (· = schema.context) ∧ field.Given P compiler.values)

include kept hfields

theorem over_compileRoot_schema
    (h : Gives (compiler.compileRoot schema root mode .schema) m (some compiled) m') :
    compiled.expression.Over P
        (fun p => p = schema.context ∨ p ∈ Assoc.keys compiled.constants.entries)
      ∧ compiled.constants.All P := by
  rw [compileRoot_schema_gives] at h
  split at h
  · cases h.1
  · obtain ⟨_, ⟨⟩, hc⟩ := h
    obtain ⟨hover, hconstants⟩ := closed_of_compileExpanded kept hfields hc trivial
    refine ⟨hover.mono fun p hp => ?_, hconstants⟩
    rcases hp with hp | hp | ⟨hp, hne⟩
    · exact .inl (mem_freeParameters_parameter.1 hp)
    · exact .inr hp
    · exact absurd (mem_singleton.1 hp) hne

theorem over_compileRoot_materialized
    (h : Gives (compiler.compileRoot schema root mode (.materialized data)) m (some compiled) m') :
    compiled.expression.Over P (fun p => p = data ∨ p ∈ Assoc.keys compiled.constants.entries)
      ∧ compiled.constants.All P := by
  obtain ⟨_, ⟨⟩, hc⟩ := compileRoot_materialized_gives.1 h
  obtain ⟨_, hown, -⟩ := hfields.holds
  have hselect : SelectsClosed P (· = schema.context) fun context scope =>
      compiler.compileSelection context scope root.field.selection :=
    selectsClosed fun fields hsel f hf =>
      closed_of_compileExpanded kept (hfields.of_selects hsel hf)
  have hdata : (parameter data).Over P
      (Allowed (· = schema.context) (.parameter data) (fetchedScope schema root mode data) {}) :=
    .parameter (.inl (mem_freeParameters_parameter.2 rfl))
  obtain ⟨hover, hconstants⟩ := closed_of_compileResolved hselect hown.extensions hdata
    (fun e he => absurd he not_mem_nil) hc
  refine ⟨hover.mono fun p hp => ?_, hconstants⟩
  -- The scope binds the data and the schema's context, and the latter must stay out.
  rcases hp with hp | hp | ⟨hp, hne⟩
  · exact .inl (mem_freeParameters_parameter.1 hp)
  · exact .inr hp
  · exact .inl ((mem_cons.1 hp).resolve_right fun hp => hne (mem_singleton.1 hp))

end Over

theorem drawn_of_compileRoot_materialized {data : Parameter} {T : Ty → Prop}
    (hfields : root.field.Every fun field _ => T field.definition.argumentsParameter.ty
      ∧ field.definition.Hooks Extension.Draws)
    (h : Gives (compiler.compileRoot schema root mode (.materialized data)) m (some compiled) m') :
    compiled.constants.Drawn T m.next m'.next := by
  obtain ⟨_, ⟨⟩, hc⟩ := compileRoot_materialized_gives.1 h
  obtain ⟨_, -, hdraws⟩ := hfields.holds
  have hselect : SelectsDrawn T fun context scope =>
      compiler.compileSelection context scope root.field.selection :=
    selectsDrawn fun fields hsel f hf => drawn_of_compileExpanded (hfields.of_selects hsel hf)
  exact (drawn_of_compileResolved hselect hdraws (Nat.le_refl _) Constants.drawn_empty hc).2

end Compiler

/-! ## Sound values -/

mutual

/-- No lazy sequence in the value fails with the error of an unbound parameter. -/
def Value.Sound : Value → Prop
  | .list items => Value.SoundItems items
  | .object members => Value.SoundMembers members
  | .lazy iterate => (iterate ()).Sound
  | _ => True

/-- The same for what an iteration yields, if it does not fail itself. -/
def Iteration.Sound : Iteration → Prop
  | .yields _ items => Value.SoundItems items
  | .fails _ error => error.Foreseen

/-- The same for the items of a list. -/
def Value.SoundItems : List Value → Prop
  | [] => True
  | item :: rest => item.Sound ∧ Value.SoundItems rest

/-- The same for the members of an object. -/
def Value.SoundMembers : List (String × Value) → Prop
  | [] => True
  | (_, value) :: rest => value.Sound ∧ Value.SoundMembers rest

end

namespace Value

theorem soundItems_iff {items : List Value} : SoundItems items ↔ ∀ v ∈ items, v.Sound := by
  induction items with
  | nil => simp [SoundItems]
  | cons item rest ih => simp [SoundItems, ih]

theorem soundMembers_iff {members : List (String × Value)} :
    SoundMembers members ↔ ∀ m ∈ members, m.2.Sound := by
  induction members with
  | nil => simp [SoundMembers]
  | cons m rest ih =>
    obtain ⟨key, value⟩ := m
    simp [SoundMembers, ih]

theorem ends_toRun_of_sound {i : Iteration} (h : i.Sound) :
    i.toRun.Ends (∀ v ∈ ·, v.Sound) Foreseen := by
  cases i with
  | yields events items =>
    rw [Iteration.Sound] at h
    exact soundItems_iff.1 h
  | fails events error =>
    rw [Iteration.Sound] at h
    exact h

theorem sound_ofRun {run : Unit → Run EvaluationError (List Value)}
    (h : (run ()).Ends (∀ v ∈ ·, v.Sound) Foreseen) : (ofRun run).Sound := by
  rw [ofRun, Sound]
  rcases hrun : run () with ⟨events, result⟩
  rw [hrun] at h
  cases result with
  | ok items =>
    rw [Iteration.ofRun, Iteration.Sound]
    exact soundItems_iff.2 h
  | error e =>
    rw [Iteration.ofRun, Iteration.Sound]
    exact h

theorem kept_sound : Kept Sound Foreseen where
  null := by simp [Sound]
  boolean := by simp [Sound]
  int := by simp [Sound]
  float := by simp [Sound]
  string := by simp [Sound]
  list items := by rw [Sound, soundItems_iff]
  object members := by rw [Sound, soundMembers_iff]
  iterate i h := ends_toRun_of_sound (by simpa [Sound] using h)
  error _ := id

end Value

/-! ## Free parameters -/

namespace Expr

variable {services : Provider} {e : Expr} {env : Environment}

/-- Evaluating and forcing gives a sound value, and meets no unbound parameter, if the free
parameters have sound values. -/
theorem ends_of_bound (hservices : services.Keep Sound) (hfails : services.FailsWith Foreseen)
    (hbuilt : e.Built Sound True)
    (henv : ∀ p ∈ e.freeParameters, ∃ v, env p = some v ∧ v.Sound) :
    (do (← e.valueOf services env).materialize : Run EvaluationError Value).Ends
      Sound Foreseen := by
  refine (ends_valueOf kept_sound (fun _ _ h => sound_ofRun h) hservices hfails e hbuilt
    fun p hp => ?_).bind fun v hv => (kept_sound.ends_materialize v hv).imp fun _ => And.left
  obtain ⟨v, hv, hsound⟩ := henv p hp
  rw [Serves, hv]
  exact hsound

/-- **Evaluation depends on the free parameters only.**  It is the same in environments that give
them the same values, and if the services are insensitive, then it is enough that the values agree.
It meets no unbound parameter if all of them are bound and no service and no lazy sequence fails
that way. -/
theorem evaluated_by_freeParameters (services : Provider) (e : Expr) (env : Environment) :
    (∀ env' : Environment, (∀ p ∈ e.freeParameters, env p = env' p) →
      e.evaluated services env = e.evaluated services env')
    ∧ (services.Insensitive → ∀ env' : Environment,
      (∀ p ∈ e.freeParameters, Option.Rel Agrees (env p) (env' p)) →
      e.evaluated services env = e.evaluated services env')
    ∧ (services.Keep Sound → services.FailsWith Foreseen → e.Built Sound True →
      (∀ p ∈ e.freeParameters, ∃ v, env p = some v ∧ v.Sound) →
      ∀ name, e.evaluated services env ≠ .error (.unboundParameter name)) := by
  refine ⟨fun env' henv => evaluated_congr henv, fun hservices env' henv =>
    evaluated_eq_of_agrees (agrees_of_freeParameters hservices henv),
    fun hservices hfails hbuilt henv name herror => ?_⟩
  exact (ends_of_bound hservices hfails hbuilt henv).of_error herror name rfl

end Expr

namespace Scores

theorem keep_sound : services.Keep Sound := by
  refine Services.keep_of_methods fun m hm arguments v harguments hv => ?_
  obtain rfl := mem_singleton.1 hm
  exact Except.ok.inj hv ▸ (kept_sound.list _).2 harguments

/-- The scores of a person are reported whatever else the environment binds. -/
theorem reported_by_limit :
    services.Keep Sound ∧ services.FailsWith Foreseen ∧ reported.Built Sound True
      ∧ (∀ p ∈ reported.freeParameters, p = person ∨ p = limit)
      ∧ reported.evaluated services (env.bind limit (.int 2))
        = reported.evaluated services ((env.bind limit (.int 2)).bind score .null)
      ∧ ∀ name, reported.evaluated services (env.bind limit (.int 2))
        ≠ .error (.unboundParameter name) := by
  have hbuilt : reported.Built Sound True := by
    simp [reported, scores, Built, BuiltAll]
  have hfree : ∀ p ∈ reported.freeParameters, p = person ∨ p = limit := by decide
  have hfails : services.FailsWith Foreseen := Services.failsWith_provider
  obtain ⟨hsame, -, hbound⟩ :=
    evaluated_by_freeParameters services reported (env.bind limit (.int 2))
  refine ⟨keep_sound, hfails, hbuilt, hfree, hsame _ fun p hp => ?_,
    hbound keep_sound hfails hbuilt fun p hp => ?_⟩
  · rcases hfree p hp with rfl | rfl <;> rfl
  · rcases hfree p hp with rfl | rfl
    · exact ⟨_, rfl, by simp [Sound, SoundMembers, SoundItems]⟩
    · exact ⟨_, rfl, by simp [Sound]⟩

/-- The text of a score. -/
def shown : Expr := .binary .concat (.parameter score) (.constant 0 (.string "") .string)

/-- A provider that answers every call as if a parameter were not bound. -/
def forgetful : Provider := ⟨fun _ _ _ => Run.fail (.unboundParameter "memory")⟩

def call : Expr := .serviceCall "echo" "all" [] .string

/-- Two things are not enough: that the values of a parameter are the same numbers, since a whole
number and a fraction differ in their text, and that no value holds a lazy sequence that fails like
an unbound parameter, since a service may fail that way itself. -/
theorem shown_apart_and_call_unbound :
    (Value.same (.int 1) (.float (.ofInt 1)) = true
      ∧ (shown.evaluated services (env.bind score (.int 1))).map Value.text = .ok "\"1\""
      ∧ (shown.evaluated services (env.bind score (.float (.ofInt 1)))).map Value.text
        = .ok "\"1.0\"")
    ∧ forgetful.Insensitive ∧ forgetful.Keep Sound ∧ call.Built Sound True
    ∧ call.freeParameters = []
    ∧ call.evaluated forgetful .empty = .error (.unboundParameter "memory") :=
  ⟨⟨by decide +kernel, by decide +kernel, by decide +kernel⟩, fun _ _ _ _ _ => Run.rel_fail _,
    fun _ _ _ _ _ hv => (nomatch hv), by simp [call, Built, BuiltAll], rfl, rfl⟩

end Scores

/-! ## Messages -/

/-- The text starts with a character of which `P` holds. -/
def Text.Starts (P : Char → Prop) (s : String) : Prop :=
  ∃ c rest, s.toList = c :: rest ∧ P c

variable {P : Char → Prop} {s : String}

theorem Text.Starts.append (h : Text.Starts P s) (t : String) : Text.Starts P (s ++ t) := by
  obtain ⟨c, rest, hs, hc⟩ := h
  exact ⟨c, rest ++ t.toList, by rw [String.toList_append, hs]; rfl, hc⟩

theorem Text.Starts.ne {Q : Char → Prop} {t : String} (h : Text.Starts P s) (h' : Text.Starts Q t)
    (hPQ : ∀ c, P c → ¬ Q c) : s ≠ t := by
  rintro rfl
  obtain ⟨c, rest, hs, hc⟩ := h
  obtain ⟨d, rest', ht, hd⟩ := h'
  rw [hs] at ht
  exact hPQ c hc ((cons.inj ht).1 ▸ hd)

theorem EvaluationError.starts_unboundParameter (name : String) :
    Text.Starts (· = 'P') (unboundParameter name).message := by
  repeat' apply Text.Starts.append
  exact ⟨_, _, rfl, rfl⟩

theorem EvaluationError.starts_message {e : EvaluationError} (h : e.Foreseen) :
    Text.Starts (· ≠ 'P') e.message := by
  cases e with
  | unboundParameter name => exact absurd rfl (h name)
  | invalidArguments method expected =>
    cases method <;> repeat' apply Text.Starts.append
    all_goals exact ⟨_, _, rfl, by decide⟩
  | unexpectedLambda => exact ⟨_, _, rfl, by decide⟩
  | _ =>
    repeat' apply Text.Starts.append
    exact ⟨_, _, rfl, by decide⟩

theorem CompileError.starts_message (e : CompileError) : Text.Starts (· ≠ 'P') e.message := by
  cases e <;> repeat' apply Text.Starts.append
  all_goals exact ⟨_, _, rfl, by decide⟩

/-- The error does not say that a parameter is not bound. -/
def FieldError.Foreseen (e : FieldError) : Prop :=
  ∀ name, e.message ≠ (EvaluationError.unboundParameter name).message

theorem FieldError.foreseen_of_starts {e : FieldError} (h : Text.Starts (· ≠ 'P') e.message) :
    e.Foreseen :=
  fun name => h.ne (starts_unboundParameter name) fun _ hc => hc

/-! ## Execution -/

namespace Executor

variable {executor : Executor} {compiler : Compiler} {root : RootField} {data : Value} {m : Memory}

theorem failsWith_compiling {α : Type} (next : Nat) (x : Compile α) (m : Memory) :
    FailsWith FieldError.Foreseen (compiling next x) m := by
  intro e he
  rw [outcome_compiling] at he
  cases hresult : (outcome x { m with next }).1 with
  | ok a =>
    rw [hresult] at he
    cases he
  | error e' =>
    rw [hresult] at he
    cases he
    exact FieldError.foreseen_of_starts e'.starts_message

/-- A compiled expression is evaluated to a sound value, and without meeting an unbound parameter,
if the environment binds one context and the constants. -/
theorem ends_evaluation (hservices : executor.services.Keep Sound)
    (hfails : executor.services.FailsWith EvaluationError.Foreseen) {context : Parameter}
    (hdata : data.Sound) {compiled : Compiled}
    (hover : compiled.expression.Over Sound
      fun p => p = context ∨ p ∈ Assoc.keys compiled.constants.entries)
    (hconstants : compiled.constants.All Sound) :
    (executor.evaluation (compiled.constants.environment.bind context data)
      compiled.expression).Ends Sound Foreseen := by
  refine ends_of_bound hservices hfails hover.built fun p hp => ?_
  by_cases hcontext : p = context
  · exact ⟨data, hcontext ▸ Environment.bind_self _ _ _, hdata⟩
  · have hkey := (hover.free p hp).resolve_left hcontext
    obtain ⟨v, hv⟩ := Option.isSome_iff_exists.1 ((Assoc.mem_keys_iff p _).1 hkey)
    exact ⟨v, (Environment.bind_of_ne _ hcontext _).trans hv, hconstants _ (Assoc.mem_of_find? hv)⟩

theorem failsWith_evaluate {path : FieldPath} {env : Environment} {e : Expr}
    (h : (executor.evaluation env e).Ends Sound Foreseen) :
    FailsWith FieldError.Foreseen (executor.evaluate path env e) m := by
  intro error herror
  rw [outcome_evaluate] at herror
  cases hresult : (executor.evaluation env e).result with
  | ok v =>
    rw [hresult] at herror
    cases herror
  | error e' =>
    rw [hresult] at herror
    cases herror
    exact FieldError.foreseen_of_starts (starts_message (h.of_error hresult))

section Root

variable (hservices : executor.services.Keep Value.Sound)
  (hfails : executor.services.FailsWith EvaluationError.Foreseen) (hdata : data.Sound)
  (hfields : root.field.Every fun field _ =>
    field.definition.Contained Value.Sound (· = executor.schema.context)
      ∧ field.Given Value.Sound compiler.values)

include hservices hfails hdata hfields

theorem failsWith_runDirect :
    FailsWith FieldError.Foreseen (executor.runDirect compiler root data) m := by
  unfold runDirect
  refine (failsWith_compiling _ _ m).bind fun compiled m₁ hc => ?_
  cases compiled with
  | none => exact failsWith_pure _ _
  | some compiled =>
    obtain ⟨hover, hconstants⟩ :=
      over_compileRoot_schema kept_sound hfields (compiling_gives.1 hc)
    exact failsWith_evaluate (ends_evaluation hservices hfails hdata hover hconstants)

theorem failsWith_runFetched {fetch : Compiled}
    (hover : fetch.expression.Over Sound fun p =>
      p = executor.schema.context ∨ p ∈ Assoc.keys fetch.constants.entries)
    (hconstants : fetch.constants.All Sound) :
    FailsWith FieldError.Foreseen (executor.runFetched compiler root fetch data) m := by
  have hends := ends_evaluation hservices hfails hdata hover hconstants
  unfold runFetched
  refine (failsWith_evaluate hends).bind fun fetched m₁ hfetched => ?_
  -- What the data pass has fetched is sound, and it is the context of the full pass.
  have hfetched : fetched.Sound := by
    have hvalue := (evaluate_gives.1 hfetched).1
    rw [← value?_evaluation, Run.value?_eq_some_iff] at hvalue
    exact hends.of_ok hvalue
  refine (failsWith_compiling _ _ m₁).bind fun compiled m₂ hc => ?_
  cases compiled with
  | none => exact failsWith_pure _ _
  | some compiled =>
    obtain ⟨hover, hconstants⟩ :=
      over_compileRoot_materialized kept_sound hfields (compiling_gives.1 hc)
    exact failsWith_evaluate (ends_evaluation hservices hfails hfetched hover hconstants)

theorem failsWith_executeRoot :
    FailsWith FieldError.Foreseen (executor.executeRoot compiler root data) m := by
  unfold executeRoot
  refine (failsWith_compiling _ _ m).bind fun fetch m₁ hfetch => ?_
  cases fetch with
  | none => exact failsWith_runDirect hservices hfails hdata hfields
  | some fetch =>
    obtain ⟨hover, hconstants⟩ :=
      over_compileRoot_schema kept_sound hfields (compiling_gives.1 hfetch)
    dsimp only
    split
    · exact failsWith_runFetched hservices hfails hdata hfields hover hconstants
    · exact failsWith_runDirect hservices hfails hdata hfields

end Root

variable {roots : List RootField}

theorem foreseen_of_executeRoots (hservices : executor.services.Keep Sound)
    (hfails : executor.services.FailsWith EvaluationError.Foreseen) (hdata : data.Sound)
    (hfields : ∀ root ∈ roots, root.field.Every fun field _ =>
      field.definition.Contained Sound (· = executor.schema.context)
        ∧ field.Given Sound compiler.values) :
    ∀ error ∈ (executor.executeRoots compiler data roots m).1.errors, error.Foreseen := by
  induction roots generalizing m with
  | nil => exact forall_mem_nil _
  | cons root rest ih =>
    obtain ⟨hroot, hrest⟩ := forall_mem_cons.1 hfields
    rcases h : outcome (executor.executeRoot compiler root data) m with ⟨result, m'⟩
    rw [executeRoots_cons rest h]
    cases result with
    | ok v => exact ih hrest
    | error e =>
      have hfails : FailsWith FieldError.Foreseen (executor.executeRoot compiler root data) m :=
        failsWith_executeRoot hservices hfails hdata hroot
      exact forall_mem_cons.2 ⟨hfails e (by rw [h]), ih hrest⟩

/-- The compiler of an operation. -/
def compilerFor (executor : Executor) (document : Document) (supplied : Variables) : Compiler :=
  ⟨⟨document.declarations, supplied⟩, executor.settings⟩

theorem every_of_rootFields {P : SelectedField → List Selection → Prop} {document : Document}
    {supplied : Variables} (h : document.Every P)
    (hroots : rootFields (.ofDocument document supplied) document = .ok roots) :
    ∀ root ∈ roots, root.field.Every P := by
  obtain ⟨fields, hfields, hmerge⟩ := rootFields_eq_ok hroots
  exact fun root hroot => Expansion.every_of_expandAll h hfields _ (mem_of_merge hmerge hroot)

/-- **Compiled expressions are closed, and execution meets no unbound parameter.**  Against the
schema a field of the operation mentions the schema's context and its constants; over fetched data
it mentions the data and its constants, and never the schema's context.  So if no service and no
lazy sequence fails like that by itself, no error of a response says that a parameter is not
bound. -/
theorem compiled_closed_and_bound (executor : Executor) (document : Document) (supplied : Variables)
    (hfields : document.Every fun field _ =>
      field.definition.Contained (fun _ => True) (· = executor.schema.context)) :
    (∀ roots, rootFields (.ofDocument document supplied) document = .ok roots →
      ∀ root ∈ roots, ∀ mode m compiled m',
        (Gives ((executor.compilerFor document supplied).compileRoot executor.schema root mode
            .schema) m (some compiled) m' →
          ∀ p ∈ compiled.expression.freeParameters,
            p = executor.schema.context ∨ p ∈ Assoc.keys compiled.constants.entries)
        ∧ ∀ data, Gives ((executor.compilerFor document supplied).compileRoot executor.schema root
            mode (.materialized data)) m (some compiled) m' →
          (∀ p ∈ compiled.expression.freeParameters,
            p = data ∨ p ∈ Assoc.keys compiled.constants.entries)
          ∧ (executor.schema.context.id < m.next → data ≠ executor.schema.context →
              executor.schema.context ∉ compiled.expression.freeParameters))
    ∧ ∀ data : Value, data.Sound → executor.services.Keep Value.Sound →
      executor.services.FailsWith EvaluationError.Foreseen →
      (document.Every fun field _ =>
        field.definition.Contained Value.Sound (· = executor.schema.context)
          ∧ field.Given Value.Sound ⟨document.declarations, supplied⟩) →
      ∀ error ∈ (executor.execute document supplied data).1.errors, error.Foreseen := by
  constructor
  · intro roots hroots root hroot mode m compiled m'
    have hcontained := every_of_rootFields hfields hroots root hroot
    have hclosed : root.field.Every fun field _ =>
        field.definition.Contained (fun _ => True) (· = executor.schema.context)
          ∧ field.Given (fun _ => True) (executor.compilerFor document supplied).values :=
      hcontained.imp fun _ _ h => ⟨h, fun _ _ _ _ => trivial⟩
    have hdraws :
        root.field.Every fun field _ => (fun _ => True) field.definition.argumentsParameter.ty
          ∧ field.definition.Hooks Extension.Draws :=
      hcontained.imp fun _ _ h => ⟨trivial, h.extensions.imp fun _ hx => hx.draws⟩
    refine ⟨fun h => (over_compileRoot_schema Value.kept_true hclosed h).1.free, fun data h => ?_⟩
    have hfree := (over_compileRoot_materialized Value.kept_true hclosed h).1.free
    refine ⟨hfree, fun hbefore hne hmem => ?_⟩
    have hkey := (hfree _ hmem).resolve_left (Ne.symm hne)
    have hdrawn := drawn_of_compileRoot_materialized (T := fun _ => True) hdraws h
    exact absurd (hdrawn.range _ hkey).1 (Nat.not_le_of_lt hbefore)
  · intro data hdata hservices hfails hsound error herror
    cases hroots : rootFields (.ofDocument document supplied) document with
    | ok roots =>
      rw [execute_eq_executeRoots hroots] at herror
      exact foreseen_of_executeRoots hservices hfails hdata
        (every_of_rootFields hsound hroots) error herror
    | error e =>
      simp only [execute, hroots, mem_singleton] at herror
      exact herror ▸ FieldError.foreseen_of_starts e.starts_message

/-! People with their rank, of whom those with a given name are greeted by a service. -/

namespace Directory

def context : Parameter := ⟨0, "ctx", .object "Query"⟩

def person : Parameter := ⟨1, "person", .object "Person"⟩

def noArguments : Parameter := ⟨2, "args_greeting", .record []⟩

def search : Parameter := ⟨3, "args_people", .record [("name", .string)]⟩

def name : ArgumentDefinition := ⟨"name", .string, none, false⟩

def byName : Extension :=
  .filter name fun element value => return .binary .eq (.member element "name" .string) value

def people : FieldDefinition :=
  ⟨"people", none, context, .member (.parameter context) "people"
    (.list (.object "Person")), search, [("name", name)], [], [byName, .position "rank"]⟩

def greeting : FieldDefinition :=
  ⟨"greeting", none, person,
    .serviceCall "Greeter" "greet" [.member (.parameter person) "nick" .string] .string,
    noArguments, [], ["Greeter"], []⟩

def greeter : Executor where
  schema := ⟨"Query", context, [], 4⟩
  services := Services.provider ⟨[("Greeter::greet", fun arguments => pure (.list arguments))]⟩

/-- A query for `people(name: $who) { greeting }`. -/
def document : Document where
  declarations := [⟨"who", none, true⟩]
  selections := [.field ⟨"people", people, [("name", .var "who")]⟩ []
    [.field ⟨"greeting", greeting, []⟩ [] []]]

def who : Variables := [("who", .string "Ada")]

def everyone : Value :=
  .object [("people", .list [.object [("name", .string "Bob"), ("nick", .string "B")],
    .object [("name", .string "Ada"), ("nick", .string "A")]])]

variable {P : Value → Prop}

theorem contained_people : people.Contained P (· = context) := by
  refine ⟨fun p _ hp => hp, trivial, by simp [people, name], ?_⟩
  intro _
  simp only [people, mem_cons, not_mem_nil, or_false, forall_eq_or_imp, forall_eq]
  refine ⟨.filter name fun element value => ⟨fun n => Nat.le_refl n, fun n p hp => ?_, ?_⟩,
    .position "rank"⟩
  · rcases mem_freeParameters_binary.1 hp with hp | hp
    · exact ⟨element, mem_cons_self, mem_freeParameters_member.1 hp⟩
    · exact ⟨value, mem_cons_of_mem _ mem_cons_self, hp⟩
  · exact fun h n =>
      ⟨h element mem_cons_self, h value (mem_cons_of_mem _ mem_cons_self)⟩

theorem contained_greeting : greeting.Contained P (· = context) := by
  refine ⟨fun p hp _ => ?_, by simp [greeting, Built, BuiltAll],
    forall_mem_nil _, fun _ x hx => absurd hx not_mem_nil⟩
  simpa [greeting] using hp

end Directory

open Directory in
/-- A closed expression that mentions the constants of a filter, and an execution with a data
pass. -/
theorem directory_closed_and_bound :
    (document.Every fun field _ => field.definition.Contained (fun _ => True) (· = context))
      ∧ (∃ roots, rootFields (.ofDocument document who) document = .ok roots
          ∧ ∀ root ∈ roots, ∀ mode m compiled m',
            Gives ((greeter.compilerFor document who).compileRoot greeter.schema root
              mode .schema) m (some compiled) m' →
            ∀ p ∈ compiled.expression.freeParameters,
              p = context ∨ p ∈ Assoc.keys compiled.constants.entries)
      ∧ everyone.Sound ∧ greeter.services.Keep Value.Sound
      ∧ greeter.services.FailsWith EvaluationError.Foreseen
      ∧ (document.Every fun field _ => field.definition.Contained Value.Sound (· = context)
          ∧ field.Given Value.Sound ⟨document.declarations, who⟩)
      ∧ (∀ error ∈ (greeter.execute document who everyone).1.errors, error.Foreseen)
      ∧ (greeter.execute document who everyone).1.data.map (fun entry => entry.2.text)
          = ["[\x7bgreeting: [\"A\"], rank: 0\x7d]"] := by
  have hcontained : document.Every fun field _ =>
      field.definition.Contained (fun _ => True) (· = context) :=
    ⟨⟨⟨contained_people, ⟨contained_greeting, trivial⟩, trivial⟩, trivial⟩,
      fun f hf => absurd hf not_mem_nil⟩
  have hsound : document.Every fun field _ =>
      field.definition.Contained Value.Sound (· = context)
        ∧ field.Given Value.Sound ⟨document.declarations, who⟩ := by
    refine ⟨⟨⟨⟨contained_people, ?_⟩, ⟨⟨contained_greeting, ?_⟩, trivial⟩, trivial⟩, trivial⟩,
      fun f hf => absurd hf not_mem_nil⟩
    · intro a ha v hv
      obtain rfl := mem_singleton.1 ha
      obtain rfl : Value.string "Ada" = v := Except.ok.inj hv
      exact Value.kept_sound.string _
    · exact fun a ha => absurd ha not_mem_nil
  have hservices : greeter.services.Keep Value.Sound := by
    refine Services.keep_of_methods fun m hm arguments v harguments hv => ?_
    obtain rfl := mem_singleton.1 hm
    exact Except.ok.inj hv ▸ (Value.kept_sound.list _).2 harguments
  have heveryone : everyone.Sound := by
    simp [everyone, Value.Sound, Value.SoundItems, Value.SoundMembers]
  obtain ⟨hclosed, hbound⟩ := compiled_closed_and_bound greeter document who hcontained
  exact ⟨hcontained, ⟨_, rfl, fun root hroot mode m compiled m' =>
      (hclosed _ rfl root hroot mode m compiled m').1⟩,
    heveryone, hservices, Services.failsWith_provider, hsound,
    hbound everyone heveryone hservices Services.failsWith_provider hsound, by decide +kernel⟩

/-! A field that gives back its argument. -/

namespace Echo

def context : Parameter := ⟨0, "ctx", .object "Query"⟩

def arguments : Parameter := ⟨1, "args_echo", .record [("x", .int)]⟩

def echo : FieldDefinition :=
  ⟨"echo", none, context, .member (.parameter arguments) "x" .int, arguments,
    [("x", ⟨"x", .int, none, false⟩)], [], []⟩

def repeater : Executor where
  schema := ⟨"Query", context, [], 2⟩
  services := .empty

/-- A query for `echo(x: $v)`. -/
def document : Document where
  declarations := [⟨"v", none, true⟩]
  selections := [.field ⟨"echo", echo, [("x", .var "v")]⟩ [] []]

/-- The variable is a lazy sequence that fails like an unbound parameter. -/
def failing : Variables :=
  [("v", .lazy fun _ => .fails [] (.unboundParameter "boom"))]

end Echo

open Echo in
/-- The values of variables have to be sound too: a lazy sequence among them can fail like an
unbound parameter, although everything else is sound. -/
theorem variable_reported_unbound :
    (document.Every fun field _ => field.definition.Contained Value.Sound (· = context))
      ∧ Value.null.Sound ∧ repeater.services.Keep Value.Sound
      ∧ repeater.services.FailsWith EvaluationError.Foreseen
      ∧ ∃ error ∈ (repeater.execute document failing .null).1.errors, ¬ error.Foreseen := by
  refine ⟨⟨⟨⟨⟨fun p _ hp => hp, trivial, ?_, fun _ x hx => absurd hx not_mem_nil⟩, trivial⟩,
    trivial⟩, fun f hf => absurd hf not_mem_nil⟩, Value.kept_sound.null, ?_,
    Services.failsWith_provider, ⟨"Parameter 'boom' is not bound", .root "echo"⟩, ?_,
    fun h => h "boom" rfl⟩
  · simp [echo]
  · intro service method arguments v _ hv
    cases hv
  · decide +kernel

end Executor
end QueryProjection
