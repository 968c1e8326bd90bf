import QueryProjection.Proofs.Bind
import QueryProjection.Proofs.Compile.Failure
import QueryProjection.Proofs.Execute.Bound
import QueryProjection.Schema.Build

/-!
# The fallback by type is never needed

A field of a fragment is compiled against a parameter of the fragment and moved to its context
afterwards. Parameters of the same type that remain and that nothing binds are moved too, if the
policy allows it.  There are none if predicates and keys are made of what they are given
(`FieldDefinition.SelfContained`): everything that is free in the compiled field is the parameter of
the fragment, in scope, or the arguments of a field, which are a record (`Compiler.closedOver`).

* `Compile.Alike` compares two compilations and says that nothing is noted on the way;
* `Compiler.alike_compileRoot`: fields of the operation are compiled alike under every policy;
* `Schema.selfContained_build`: it is enough to look at the declared extensions;
* `Executor.fallback_unused` is what follows for the response.

The policies move such a parameter, or move it and note that, or refuse the field.  So
`Compile.Alike` compares outcomes with the memory in them, and adds that no event is noted and that
no error speaks of a type: two compilations that both note something, or that both refuse, would
otherwise count as alike.
-/

namespace QueryProjection

open List

/-! ## Schemas -/

/-- The arguments of the field are a record, and its extensions are of the known kinds, with
predicates and keys made of what they are given. -/
structure FieldDefinition.SelfContained (definition : FieldDefinition) : Prop where
  arguments : ∃ shape, definition.argumentsParameter.ty = .record shape
  extensions : definition.Hooks (Extension.BuiltIn fun _ => True)

/-- The extensions of a declared field are of the known kinds. -/
def FieldDeclaration.SelfContained (declaration : FieldDeclaration) : Prop :=
  ∀ x ∈ declaration.extensions, x.BuiltIn fun _ => True

theorem FieldDeclaration.SelfContained.build {declaration : FieldDeclaration}
    (h : declaration.SelfContained)
    (context : Parameter) (n : Nat) : ((declaration.build context).run n).1.SelfContained :=
  ⟨⟨_, rfl⟩, fun _ => h⟩

namespace TypeDeclaration

theorem selfContained_buildFields (context : Parameter) {declared : List FieldDeclaration}
    (h : ∀ f ∈ declared, f.SelfContained) (n : Nat) :
    ∀ f ∈ ((buildFields context declared).run n).1, f.2.SelfContained := by
  induction declared generalizing n with
  | nil => exact forall_mem_nil _
  | cons declaration rest ih =>
    obtain ⟨hdeclaration, hrest⟩ := forall_mem_cons.1 h
    exact forall_mem_cons.2 ⟨hdeclaration.build context n, ih hrest _⟩

variable {declaration : TypeDeclaration}

theorem selfContained_build (h : ∀ f ∈ declaration.fields, f.SelfContained) (query : String)
    (n : Nat) : ∀ f ∈ ((declaration.build query).run n).1.fields, f.2.SelfContained := by
  intro f hf
  refine selfContained_buildFields _ (fun f hf => ?_) _ f (Assoc.mem_ofList hf)
  rcases mem_append.1 hf with hf | hf
  · exact h f hf
  · exact fun x hx => absurd (mem_singleton.1 hf ▸ hx) not_mem_nil

theorem selfContained_buildAll {declared : List TypeDeclaration}
    (h : ∀ d ∈ declared, ∀ f ∈ d.fields, f.SelfContained) (query : String) (n : Nat) :
    ∀ t ∈ ((buildAll query declared).run n).1, ∀ f ∈ t.2.fields, f.2.SelfContained := by
  induction declared generalizing n with
  | nil => exact forall_mem_nil _
  | cons declaration rest ih =>
    obtain ⟨hdeclaration, hrest⟩ := forall_mem_cons.1 h
    exact forall_mem_cons.2 ⟨selfContained_build hdeclaration query n, ih hrest _⟩

theorem selfContained_addTo {merged : List TypeDeclaration}
    (hdeclaration : ∀ f ∈ declaration.fields, f.SelfContained)
    (hmerged : ∀ d ∈ merged, ∀ f ∈ d.fields, f.SelfContained) :
    ∀ d ∈ declaration.addTo merged, ∀ f ∈ d.fields, f.SelfContained := by
  induction merged with
  | nil => exact fun d hd => mem_singleton.1 hd ▸ hdeclaration
  | cons other rest ih =>
    obtain ⟨hother, hrest⟩ := forall_mem_cons.1 hmerged
    unfold addTo
    split
    · exact forall_mem_cons.2 ⟨forall_mem_append.2 ⟨hother, hdeclaration⟩, hrest⟩
    · exact forall_mem_cons.2 ⟨hother, ih hrest⟩

end TypeDeclaration

variable {definition : FieldDefinition}

namespace Schema

variable {declarations : List TypeDeclaration}

theorem selfContained_mergeDeclarations (h : ∀ d ∈ declarations, ∀ f ∈ d.fields, f.SelfContained)
    (query : String) :
    ∀ d ∈ mergeDeclarations query declarations, ∀ f ∈ d.fields, f.SelfContained := by
  unfold mergeDeclarations
  have hstart : ∀ d ∈ [(⟨query, none, []⟩ : TypeDeclaration)], ∀ f ∈ d.fields, f.SelfContained :=
    fun d hd f hf => absurd (mem_singleton.1 hd ▸ hf) not_mem_nil
  generalize [(⟨query, none, []⟩ : TypeDeclaration)] = merged at hstart
  induction declarations generalizing merged with
  | nil => exact hstart
  | cons declaration rest ih =>
    obtain ⟨hdeclaration, hrest⟩ := forall_mem_cons.1 h
    exact ih hrest _ (TypeDeclaration.selfContained_addTo hdeclaration hstart)

theorem types_build (query : String) (declarations : List TypeDeclaration) (n : Nat) :
    ((build query declarations).run n).1.types
      = ((TypeDeclaration.buildAll query (mergeDeclarations query declarations)).run n).1 := by
  simp only [build, bind, StateT.bind, StateT.run]
  rcases TypeDeclaration.buildAll query (mergeDeclarations query declarations) n with ⟨types, n'⟩
  dsimp only
  cases Assoc.find? query types <;> rfl

theorem selfContained_build (h : ∀ d ∈ declarations, ∀ f ∈ d.fields, f.SelfContained)
    (query : String) (n : Nat)
    (hdefined : ((build query declarations).run n).1.Defines definition) :
    definition.SelfContained := by
  obtain ⟨t, ht, f, hf, rfl⟩ := hdefined
  rw [types_build] at ht
  exact TypeDeclaration.selfContained_buildAll (selfContained_mergeDeclarations h query)
    query n t ht f hf

end Schema

/-! ## Computations that note nothing -/

namespace Compile

variable {α β : Type} {m : Memory}

/-- The error is not about a move by type. -/
def NotByType (e : CompileError) : Prop :=
  ∀ path ty, e ≠ .typeMatchRejected path ty

/-- From this memory both computations end alike.  Nothing is noted on the way, and they do not fail
because something would have to be moved by its type. -/
structure Alike (x y : Compile α) (m : Memory) : Prop where
  same : outcome y m = outcome x m
  events : (outcome x m).2.events = m.events
  fails : FailsWith NotByType x m

theorem alike_pure (a : α) : Alike (pure a) (pure a) m :=
  ⟨rfl, rfl, failsWith_pure a m⟩

theorem alike_throw {e : CompileError} (h : NotByType e) :
    Alike (throw e : Compile α) (throw e) m :=
  ⟨rfl, rfl, failsWith_throw h m⟩

theorem Alike.bind {x y : Compile α} {f g : α → Compile β} (hx : Alike x y m)
    (hf : ∀ a m', Gives x m a m' → Alike (f a) (g a) m') : Alike (x >>= f) (y >>= g) m := by
  refine ⟨?_, ?_, hx.fails.bind fun a m' h => (hf a m' h).fails⟩
  · rw [outcome_bind, outcome_bind, hx.same]
    rcases hr : outcome x m with ⟨_ | a, m'⟩
    · rfl
    · exact (hf a m' hr).same
  · have hevents := hx.events
    rw [outcome_bind]
    rcases hr : outcome x m with ⟨_ | a, m'⟩
    · rw [hr] at hevents
      exact hevents
    · rw [hr] at hevents
      exact (hf a m' hr).events.trans hevents

theorem alike_ofHook {hook : Hook α} (h : ∀ j, (outcome hook j).2.events = j.events)
    (path : FieldPath)
    (extension : String) : Alike (ofHook path extension hook) (ofHook path extension hook) m := by
  refine ⟨rfl, ?_, failsWith_ofHook fun message => nofun⟩
  rw [outcome_ofHook]
  exact h m.toJournal

/-- That two compilations end alike. -/
def comparing : Comparison where
  Rel x y := ∀ m, Alike x y m
  At _ := True
  at_child _ _ := trivial
  rel_pure a _ := alike_pure a
  rel_bind hx hf m := (hx m).bind fun a m' h => hf m a m' h m'
  rel_throw _ h _ := alike_throw h.notByType
  rel_ofFresh x _ := ⟨rfl, rfl, failsWith_ofFresh x⟩
  rel_getFetched _ hf _ := Alike.bind ⟨rfl, rfl, fun _ h => nomatch h⟩ fun _ m' _ => hf _ m'
  rel_rememberFetched _ _ _ _ := ⟨rfl, rfl, fun _ h => nomatch h⟩

end Compile

open Compile

/-! ## Hooks -/

namespace Hook

/-- The hook leaves no note. -/
def Silent {α : Type} (hook : Hook α) : Prop :=
  ∀ j, (outcome hook j).2.events = j.events

theorem stepwise_silent : Stepwise fun _ hook => Silent hook where
  pure _ _ := rfl
  throw _ _ := rfl
  ofFresh _ _ := rfl
  bind {α β x f} hx hf j := by
    have hj := hx j
    rw [outcome_bind]
    rcases hr : outcome x j with ⟨_ | a, j'⟩
    · rw [hr] at hj
      exact hj
    · rw [hr] at hj
      exact (hf a j').trans hj

end Hook

namespace Compiler

variable {compiler : Compiler} {context : Expr} {scope : Scope}

/-- The compiler with another policy. -/
def withPolicy (compiler : Compiler) (policy : TypeMatching) : Compiler :=
  { compiler with settings := { compiler.settings with typeMatching := policy } }

/-! ## Fields of a fragment -/

/-- Nothing is left to be told by its type where everything free is in scope or has another type. -/
theorem rebase_eq_pure {e : Expr} {own : Parameter} {parameters : List Parameter}
    (policy : TypeMatching) (path : FieldPath)
    (hfree : ∀ p ∈ e.freeParameters, p = own ∨ p ∈ parameters ∨ p.ty ≠ own.ty)
    (hcontext : ∀ p ∈ context.freeParameters, p ∈ parameters) :
    e.rebase policy own context parameters path = pure (e.replace (.identity own) context) := by
  have hstale : (e.replace (.identity own) context).staleParameters own.ty parameters = [] := by
    refine filter_eq_nil_iff.2 fun p hp hpicked => ?_
    simp only [Replacement.picks, Bool.and_eq_true, beq_iff_eq, Bool.not_eq_true', contains_eq_mem,
      decide_eq_false_iff_not] at hpicked
    obtain ⟨hty, hmem⟩ := hpicked
    rcases Expr.mem_freeParameters_replace hp with ⟨hp, hne⟩ | hp
    · rcases hfree p hp with h | h | h
      · exact hne h
      · exact hmem h
      · exact h hty
    · exact hmem (hcontext p hp)
  unfold Expr.rebase
  dsimp only
  rw [hstale]

/-- What is free in a field that is compiled against `own`: that, what is in scope, and the
arguments of fields, which are records. -/
def ClosedOver (compiler : Compiler) (field : SelectedField) (select : Select) : Prop :=
  ∀ {own : Parameter} {scope : Scope} {m compiled m'},
    Gives (compiler.compileField field select (.parameter own) scope) m compiled m' →
    ∀ p ∈ compiled.expression.freeParameters, p = own ∨ p ∈ scope.parameters
      ∨ ∃ shape, p.ty = .record shape

variable {e : Expanded} {policy : TypeMatching}

theorem closedOver (compiler : Compiler)
    (hfields : e.Every fun field _ => field.definition.SelfContained) :
    compiler.ClosedOver e.field fun context scope =>
      compiler.compileSelection context scope e.selection := by
  intro own scope m compiled m' hgives
  -- The field with another origin is a tree of which the same is known.
  let direct : Expanded := .mk e.field .direct e.fragments fun _ => e.selection
  have hdirect : direct.Every fun field _ => field.definition.SelfContained := by
    obtain ⟨selections, holds, empty, below⟩ := hfields
    exact .intro selections holds empty below
  have hgives' : Gives (compiler.compileExpanded (.parameter own) scope direct) m compiled m' := by
    rw [compileExpanded_eq]
    exact hgives
  have hcontained : direct.Every fun field _ => field.definition.Contained (fun _ => True)
    (fun _ => False)
      ∧ field.Given (fun _ => True) compiler.values :=
    hdirect.imp fun field _ hfield => ⟨⟨fun _ _ h => h.elim, Expr.built_true _,
      fun _ _ _ _ => trivial, hfield.extensions⟩, fun _ _ _ _ => trivial⟩
  have hdraws :
      direct.Every fun field _ => (∃ shape, field.definition.argumentsParameter.ty = .record shape)
        ∧ field.definition.Hooks Extension.Draws :=
    hdirect.imp fun field _ hfield => ⟨hfield.arguments, hfield.extensions.imp fun _ hx => hx.draws⟩
  have hclosed := closed_of_compileExpanded Value.kept_true hcontained hgives' trivial
  have hdrawn := (drawn_of_compileExpanded (T := fun ty => ∃ shape, ty = .record shape)
    hdraws hgives').2
  intro p hp
  rcases hclosed.keeps.free p hp with h | h | ⟨h, -⟩
  · exact .inl (Expr.mem_freeParameters_parameter.1 h)
  · exact .inr (.inr (hdrawn.range p h).2.2)
  · exact .inr (.inl h)

/-- **A field of a fragment is moved without the help of its type.** -/
theorem alike_rebase {own : Parameter} {typeCondition : String} {compiled : Compiled}
    {m m' : Memory} (hfields : e.Every fun field _ => field.definition.SelfContained)
    (hty : own.ty = .object typeCondition)
    (hcontext : ∀ p ∈ context.freeParameters, p ∈ scope.parameters)
    (hcompiled : Gives (compiler.compileField e.field (fun context scope =>
      compiler.compileSelection context scope e.selection) (.parameter own) (scope.bind own))
        m compiled m')
    (policy policy' : TypeMatching) {m₁ : Memory} :
    Alike (ofRun (compiled.expression.rebase policy own context scope.parameters scope.path))
      (ofRun (compiled.expression.rebase policy' own context scope.parameters scope.path)) m₁ := by
  have hfree : ∀ p ∈ compiled.expression.freeParameters, p = own ∨ p ∈ scope.parameters
      ∨ p.ty ≠ own.ty := by
    intro p hp
    rcases compiler.closedOver hfields hcompiled p hp with h | h | ⟨shape, h⟩
    · exact .inl h
    · exact (mem_cons.1 h).imp_right .inl
    · exact .inr (.inr fun heq => nomatch h.symm.trans (heq.trans hty))
  rw [rebase_eq_pure _ scope.path hfree hcontext, rebase_eq_pure _ scope.path hfree hcontext]
  refine ⟨rfl, ?_, fun _ h => nomatch h⟩
  rw [outcome_ofRun]
  exact append_nil _

/-- **A field of the operation is compiled alike under every policy**, against the schema or over
fetched data. -/
theorem alike_compileRoot (policy : TypeMatching) (schema : Schema) {root : RootField}
    (hfields : root.field.Every fun field _ => field.definition.SelfContained) (mode : Mode)
    (source : RootSource) {m : Memory} :
    Alike (compiler.compileRoot schema root mode source)
      ((compiler.withPolicy policy).compileRoot schema root mode source) m := by
  refine Comparison.rel_compileRoot (R := comparing) (c := compiler)
    (k := compiler.withPolicy policy)
    (A := fun e context scope => (e.Every fun field _ => field.definition.SelfContained)
      ∧ ∀ p ∈ context.freeParameters, p ∈ scope.parameters) rfl ?_ schema (fun q scope _ _ hq =>
        ⟨hfields, fun p hp => Expr.mem_freeParameters_parameter.1 hp ▸ hq⟩) mode source m
  rintro e context scope ⟨he, hcontext⟩
  obtain ⟨_, hown⟩ := he.holds
  refine ⟨trivial, fun hshape x hx => ?_, rfl, fun _ hty h m => alike_rebase he hty hcontext h _ _,
    fun {error} _ m => ?_, fun hs f hf context' scope' hopens =>
      ⟨he.of_selects hs hf, fun p hp => ?_⟩⟩
  · have hx := hown.extensions hshape x hx
    have hsilent := hx.known.stepwise Hook.stepwise_silent
    exact ⟨fun context pre _ m => alike_ofHook ((hsilent context).1 pre) _ _,
      fun context post _ m => alike_ofHook ((hsilent context).2 post) _ _⟩
  · obtain ⟨key, cause⟩ := error
    refine alike_throw ?_
    cases cause <;> rintro _ _ ⟨⟩
  · obtain ⟨hooks, extensions, input, m, pre, m', hx, hinput, hpre, rfl, hmem⟩ := hopens.made
    have hover : pre.Over (fun _ => True) fun _ => True := by
      obtain ⟨collection, element, _⟩ := input
      obtain rfl : _ = Expr.parameter element := hinput
      exact over_runPreSelection (fun x h => hown.extensions (hx x h).1 x (hx x h).2)
        (fun _ _ => trivial) (.initial ⟨fun _ _ => trivial, Expr.built_true _⟩) hpre
    exact hover.context.free p hp ▸ hmem

end Compiler

/-! ## Executing -/

namespace Executor

/-- The executor with another policy. -/
def withPolicy (executor : Executor) (policy : TypeMatching) : Executor :=
  { executor with settings := { executor.settings with typeMatching := policy } }

theorem executeRoot_withPolicy (executor : Executor) (compiler : Compiler) (policy : TypeMatching)
    {root : RootField} (hfields : root.field.Every fun field _ => field.definition.SelfContained)
    (data : Value) :
    (executor.withPolicy policy).executeRoot (compiler.withPolicy policy) root data
      = executor.executeRoot compiler root data := by
  have hcompile :
      ∀ mode source, (compiler.withPolicy policy).compileRoot executor.schema root mode source
        = compiler.compileRoot executor.schema root mode source := by
    intro mode source
    funext m
    exact (Compiler.alike_compileRoot policy executor.schema hfields mode source).same
  simp only [executeRoot, runFetched, runDirect, withPolicy, hcompile]
  rfl

theorem executeRoots_withPolicy (executor : Executor) (compiler : Compiler) (policy : TypeMatching)
    (data : Value) {roots : List RootField}
    (hroots : ∀ root ∈ roots, root.field.Every fun field _ => field.definition.SelfContained)
    (m : Memory) :
    (executor.withPolicy policy).executeRoots (compiler.withPolicy policy) data roots m
      = executor.executeRoots compiler data roots m := by
  induction roots generalizing m with
  | nil => rfl
  | cons root rest ih =>
    obtain ⟨hroot, hrest⟩ := forall_mem_cons.1 hroots
    simp only [executeRoots, executeRoot_withPolicy executor compiler policy hroot, ih hrest]

/-- **The fallback by type is never used**, if predicates and keys are made of what they are given.
Compiling a field of the operation does not fail because something would have to be moved by its
type, and notes nothing.  The response, and the events on the way to it, are the same under each
policy. -/
theorem fallback_unused (executor : Executor)
    (hschema : ∀ definition, executor.schema.Defines definition → definition.SelfContained)
    (document : Document)
    (hdocument : document.Every fun field _ => executor.schema.Defines field.definition)
    (supplied : Variables) :
    (∀ roots, Compiler.rootFields (.ofDocument document supplied) document = .ok roots →
      ∀ root ∈ roots, ∀ mode source m,
        let compiler := executor.compilerFor document supplied
        let result := outcome (compiler.compileRoot executor.schema root mode source) m
        (∀ path ty, result.1 ≠ .error (.typeMatchRejected path ty)) ∧ result.2.events = m.events
          ∧ ∀ policy, outcome ((compiler.withPolicy policy).compileRoot executor.schema root mode
            source) m = result)
    ∧ ∀ policy data, (executor.withPolicy policy).execute document supplied data
        = executor.execute document supplied data := by
  have hfields :
      ∀ {roots}, Compiler.rootFields (.ofDocument document supplied) document = .ok roots →
        ∀ root ∈ roots, root.field.Every fun field _ => field.definition.SelfContained :=
    fun hroots root hroot => (every_of_rootFields hdocument hroots root hroot).imp
      fun field _ h => hschema _ h
  refine ⟨fun roots hroots root hroot mode source m => ?_, fun policy data => ?_⟩
  · have halike := fun policy => @Compiler.alike_compileRoot
      (executor.compilerFor document supplied) policy
      executor.schema root (hfields hroots root hroot) mode source m
    exact ⟨fun path ty h => (halike .warn).fails _ h path ty rfl, (halike .warn).events,
      fun policy => (halike policy).same⟩
  · cases hroots : Compiler.rootFields (.ofDocument document supplied) document with
    | error e => simp only [execute, hroots]
    | ok roots =>
      have heq := executeRoots_withPolicy executor
        (executor.compilerFor document supplied) policy data
        (hfields hroots) { next := executor.schema.next }
      simp only [execute, hroots]
      exact congrArg (fun r => (r.1, r.2.events)) heq

/-! People and their friends, found by their names. -/

namespace Club

def byName : Extension :=
  .filter ⟨"name", .string, none, false⟩ fun element value =>
    return .binary .eq (.member element "name" .string) value

/-- Those who are a member of something, found by their names. -/
def people (member : String) : FieldDeclaration where
  name := member
  attached := [.extension byName]
  resolve context _ := return .member (.parameter context) member (.list (.object "Person"))

def declarations : List TypeDeclaration :=
  [{ name := "Query", fields := [people "people"] },
    { name := "Person", fields := [.member "name" .string, people "friends"] }]

def club : Executor where
  schema := ((Schema.build "Query" declarations).run 0).1
  services := .empty

def query : String :=
  "\x7b people(name: \"Ada\") \x7b ...F \x7d \x7d
   fragment F on Person \x7b name friends(name:
     \"Eve\") \x7b ...G \x7d \x7d fragment G on Person \x7b name \x7d"

def ada : Value :=
  .object [("people", .list [.object [("name", .string "Ada"),
    ("friends", .list [.object [("name", .string "Bob")], .object [("name", .string "Eve")]])]])]

theorem builtIn_byName : byName.BuiltIn fun _ => True := by
  refine .filter _ fun element value => ⟨fun n => Nat.le_refl n, fun n p hp => ?_,
    fun h n => ⟨?_, ?_⟩⟩
  · rcases Expr.mem_freeParameters_binary.1 hp with hp | hp
    · exact ⟨element, by simp, hp⟩
    · exact ⟨value, by simp, hp⟩
  · exact h element (by simp)
  · exact h value (by simp)

theorem selfContained_people (member : String) : (people member).SelfContained :=
  fun _ hx => mem_singleton.1 hx ▸ builtIn_byName

theorem selfContained (h : club.schema.Defines definition) : definition.SelfContained := by
  have hname : (FieldDeclaration.member "name" .string).SelfContained := forall_mem_nil _
  have hdeclared : ∀ d ∈ declarations, ∀ f ∈ d.fields, f.SelfContained := by
    simp [declarations, selfContained_people, hname]
  exact Schema.selfContained_build hdeclared "Query" 0 h

end Club

open Club in
/-- Two fragments, one inside the other, with fields that search. -/
theorem club_needs_no_fallback :
    (∀ definition, club.schema.Defines definition → definition.SelfContained)
      ∧ ∃ document, Document.parse club.schema query none = .ok document
        ∧ (document.Every fun field _ => club.schema.Defines field.definition)
        ∧ ∀ policy, ((club.withPolicy policy).execute document [] ada).1.data.map
          (fun entry => entry.2.text)
          = ["[\x7bname: \"Ada\", friends: [\x7bname: \"Eve\"\x7d]\x7d]"] := by
  have hrun : (Document.parse club.schema query none).toOption.map (fun document =>
      (club.execute document [] ada).1.data.map fun entry => entry.2.text)
        = some ["[\x7bname: \"Ada\", friends: [\x7bname: \"Eve\"\x7d]\x7d]"] := by decide +kernel
  obtain ⟨document, hparse, hrun⟩ := Option.map_eq_some_iff.1 hrun
  rw [toOption_eq_some_iff] at hparse
  have hdefined : document.Every fun field _ => club.schema.Defines field.definition :=
    (Document.every_of_parse hparse).1.imp fun field _ h => h.defined
  have hunused := fallback_unused club (fun _ => selfContained) document hdefined []
  exact ⟨fun _ => selfContained, document, hparse, hdefined,
    fun policy => hunused.2 policy ada ▸ hrun⟩

end Executor

end QueryProjection
