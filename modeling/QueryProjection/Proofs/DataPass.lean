import QueryProjection.Proofs.Bind
import QueryProjection.Proofs.Compile.Made
import QueryProjection.Proofs.Execute.Bound

/-!
# The data pass calls no service

The data pass leaves service fields out and fetches what they read.  So what it compiles a field to
is free of services, at any depth, although the resolvers of service fields are looked at on the
way: of them it takes chains of members, never the calls around them.

* `Expr.Serviceless` says that an expression calls no service, and `Expr.valueOf_of_serviceless`
  that its value then does not depend on the services there are;
* `FieldDefinition.DeclaresServices` is what is assumed of the fields of a schema: resolvers that
  call a service are declared to need one, and extensions add no calls (`Extension.Serviceless`);
* `Compiler.serviceless_of_compileExpanded` carries that through the compiler;
* `Executor.data_pass_calls_no_service` is the result for the fields of an operation.

## Why it is said of expressions

That no service is called in an evaluation would depend on the data: a service below a list that
happens to be empty is not called either.  `Expr.Serviceless` is about what is written, under
binders too, and is kept by everything that the compiler does to expressions: replacing parameters,
moving, projecting and reading members.  So it is one of the properties for which the compiler is
gone through once and for all (`Compiler.made_of_compileExpanded`).
-/

namespace QueryProjection

open Compiler List

/-! ## Expressions without services -/

namespace Expr

mutual

/-- The expression calls no service, at any depth. -/
def Serviceless : Expr → Prop
  | .parameter _ => True
  | .constant _ _ _ => True
  | .member receiver _ _ => receiver.Serviceless
  | .call _ receiver arguments => receiver.Serviceless ∧ ServicelessAll arguments
  | .binary _ left right => left.Serviceless ∧ right.Serviceless
  | .serviceCall _ _ _ _ => False
  | .lambda _ body => body.Serviceless
  | .record _ values => ServicelessAll values
  | .projectEach source _ body => source.Serviceless ∧ body.Serviceless
  | .projectOne source _ body => source.Serviceless ∧ body.Serviceless
  | .materialize inner => inner.Serviceless

/-- None of the expressions calls a service. -/
def ServicelessAll : List Expr → Prop
  | [] => True
  | e :: es => e.Serviceless ∧ ServicelessAll es

end

theorem servicelessAll_iff {es : List Expr} : ServicelessAll es ↔ ∀ e ∈ es, e.Serviceless := by
  induction es with
  | nil => simp [ServicelessAll]
  | cons e es ih => simp [ServicelessAll, ih]

variable {e : Expr}

theorem serviceless_iff_parts : e.Serviceless
    ↔ (¬ ∃ service method arguments ty, e = .serviceCall service method arguments ty)
      ∧ ∀ part ∈ e.parts, part.2.Serviceless := by
  cases e <;> simp [Serviceless, parts, servicelessAll_iff]

/-- Services are not consulted for an expression that calls none: what it means is the same whatever
services there are, for each element that it is handed. -/
theorem operand_of_serviceless (services services' : Provider) (h : e.Serviceless)
    (env : Environment) : e.operand services env = e.operand services' env := by
  have hall : ∀ {es : List Expr}, (∀ a ∈ es, a.Serviceless → ∀ env, a.operand services env
      = a.operand services' env) → ServicelessAll es → ∀ env,
        operands services env es = operands services' env es := by
    intro es hes h env
    rw [operands_eq_map, operands_eq_map]
    exact map_congr_left fun a ha => hes a ha (servicelessAll_iff.1 h a ha) env
  induction e using induct generalizing env with
  | parameter | constant => rfl
  | member _ _ _ ih | lambda _ _ ih | materialize _ ih => simp only [operand, ih h]
  | call _ _ _ ihr iha => simp only [operand, ihr h.1, hall iha h.2]
  | binary _ _ _ ihl ihr => simp only [operand, ihl h.1, ihr h.2]
  | serviceCall => exact h.elim
  | record _ _ iha => simp only [operand, hall iha h]
  | projectEach _ _ _ ihs ihb | projectOne _ _ _ ihs ihb => simp only [operand, ihs h.1, ihb h.2]

theorem valueOf_of_serviceless (services services' : Provider) (h : e.Serviceless)
    (env : Environment) : e.valueOf services env = e.valueOf services' env :=
  congrFun (operand_of_serviceless services services' h env) none

theorem nodewise_serviceless : Nodewise
    (fun e => ¬ ∃ service method arguments ty, e = .serviceCall service method arguments ty)
      Serviceless where
  iff_parts := serviceless_iff_parts
  mapParts {e _} h := by cases e <;> simp_all [mapParts]
  parameter _ := nofun
  member := nofun
  call := nofun
  lambda := nofun

theorem Serviceless.toRecord {fields : SelectionMap} (h : ∀ f ∈ fields.fields, f.2.Serviceless) :
    fields.toRecord.Serviceless := by
  show ServicelessAll (fields.fields.map Prod.snd)
  rw [servicelessAll_iff, forall_mem_map]
  exact h

end Expr

open Expr

/-! ## Extensions that call no service -/

/-- The collection and the context of its elements call no service. -/
structure PreSelection.Serviceless (pre : PreSelection) : Prop where
  collection : pre.collection.Serviceless
  context : pre.elementContext.Serviceless

/-- An extension that adds no call of a service: one of the known kinds whose predicate or key has
no call that it is not given, or any other whose hooks add none. -/
inductive Extension.Serviceless : Extension → Prop
  | filter (argument : ArgumentDefinition) {predicate : Expr → Expr → Fresh Expr}
      (h : ∀ element value n, element.Serviceless → value.Serviceless →
        ((predicate element value).run n).1.Serviceless) : Serviceless (.filter argument predicate)
  | sort {key : Expr → Fresh Expr}
      (h : ∀ element n, element.Serviceless → ((key element).run n).1.Serviceless) :
      Serviceless (.sort key)
  | offsetPaging (defaultSize maxSize : Option Int64) :
      Serviceless (.offsetPaging defaultSize maxSize)
  | position (key : String) : Serviceless (.position key)
  | hooks {x : Extension}
      (preSelection : ∀ context input j pre j', Gives (x.preSelection context input) j pre j' →
        input.Serviceless → pre.Serviceless)
      (postSelection : ∀ context input j post j', Gives (x.postSelection context input) j post j' →
        (∀ f ∈ input.selection.fields, f.2.Serviceless) →
        ∀ f ∈ post.selection.fields, f.2.Serviceless) : Serviceless x

theorem Extension.Serviceless.keeps {x : Extension} (hx : x.Serviceless) :
    x.Keeps Expr.Serviceless Expr.Serviceless := by
  have K := nodewise_serviceless
  cases hx with
  | filter argument hpredicate => exact keeps_filter K hpredicate
  | sort hkey => exact keeps_sort K hkey
  | offsetPaging => exact keeps_offsetPaging K
  | position => exact keeps_position K id
  | hooks preSelection postSelection =>
    exact ⟨fun hpre h => let h := preSelection _ _ _ _ _ hpre ⟨h.1, h.2⟩; ⟨h.collection, h.context⟩,
      fun hpost => postSelection _ _ _ _ _ hpost⟩

/-- What is assumed of a field: if its resolver calls a service, the field is declared to need one,
and the extensions that are run for it add no calls. -/
structure FieldDefinition.DeclaresServices (definition : FieldDefinition) : Prop where
  resolve : definition.requiresService = false → definition.resolve.Serviceless
  extensions : definition.Hooks Extension.Serviceless

/-! ## Compiling for the data pass -/

namespace Compiler

theorem making_serviceless (mode : Mode) (isRoot : Bool) :
    Making Serviceless Serviceless Serviceless mode isRoot where
  source := id
  object {source} element {fields} hsource hfields := ⟨hsource, .toRecord hfields⟩
  list {scope source} element {fields} _ _ hsource hfields := by
    have hprojected : (Expr.projectEach source element fields.toRecord).Serviceless :=
      ⟨hsource, .toRecord hfields⟩
    dsimp only [projectList]
    split
    · exact hprojected
    · exact hprojected
  move _ h hcontext hmoved := nodewise_serviceless.rebase h hcontext hmoved

/-- **The data pass calls no service.**  A plain field that is compiled for the data pass, in a
context without services, becomes an expression without services. -/
theorem serviceless_of_compileExpanded {compiler : Compiler} {e : Expanded}
    (hfields : e.Every fun field _ => field.definition.DeclaresServices)
    (hservice : e.field.definition.requiresService = false) {context : Expr} {scope : Scope}
    {m m' : Memory}
    {compiled : Compiled} (h : Gives (compiler.compileExpanded context scope e) m compiled m')
    (hmode : scope.mode = .dataOnly) (hcontext : context.Serviceless) :
    compiled.expression.Serviceless := by
  have hplain : ∀ {field : SelectedField},
      defers .dataOnly field = false ↔ field.definition.requiresService = false := by simp [defers]
  refine made_of_compileExpanded nodewise_serviceless (making_serviceless _ false) (hfields.imp ?_)
    (hplain.2 hservice) (making_serviceless _ _) hmode rfl hcontext h
  exact fun field _ hfield => ⟨fun hdefers => hfield.resolve (hplain.1 hdefers),
    fun hshape x hx => (hfield.extensions hshape x hx).keeps⟩

end Compiler

namespace Executor

/-- **The data pass calls no service.**  What it compiles a field of an operation to has no call of
a service in it, at any depth, so services are not consulted to evaluate it; and if the field itself
is declared to need a service, then nothing is compiled. -/
theorem data_pass_calls_no_service (executor : Executor)
    (hschema : ∀ definition, executor.schema.Defines definition → definition.DeclaresServices)
    (document : Document) (hdocument : document.Every fun field _ =>
      executor.schema.Defines field.definition)
    (supplied : Variables) (roots : List RootField)
    (hroots : rootFields (.ofDocument document supplied) document = .ok roots)
    (root : RootField) (hroot : root ∈ roots) (m : Memory) :
    let fetch := (executor.compilerFor document supplied).compileRoot executor.schema root
      .dataOnly .schema
    (∀ compiled m', Gives fetch m (some compiled) m' → compiled.expression.Serviceless
      ∧ ∀ services services' env,
        compiled.expression.valueOf services env = compiled.expression.valueOf services' env)
    ∧ (root.field.field.definition.requiresService = true → Gives fetch m none m) := by
  have hevery : root.field.Every fun field _ => field.definition.DeclaresServices :=
    (every_of_rootFields hdocument hroots root hroot).imp fun field _ h => hschema _ h
  refine ⟨fun compiled m' h => ?_, fun hservice => ?_⟩
  · rw [compileRoot_schema_gives] at h
    split at h
    · cases h.1
    · rename_i hdefers
      obtain ⟨_, heq, h⟩ := h
      obtain rfl := Option.some.inj heq
      have hservice : root.field.field.definition.requiresService = false := by
        simpa [defers] using hdefers
      have hserviceless := serviceless_of_compileExpanded hevery hservice h rfl trivial
      exact ⟨hserviceless, fun services services' env =>
        Expr.valueOf_of_serviceless services services' hserviceless env⟩
  · rw [compileRoot_schema_gives, defers, hservice]
    exact ⟨rfl, rfl⟩

/-! People who are searched by name and greeted by a service, which also says what the day is. -/

namespace Reception

def context : Parameter := ⟨0, "ctx", .object "Query"⟩

def person : Parameter := ⟨1, "person", .object "Person"⟩

def noArguments : Parameter := ⟨2, "args", .record []⟩

def excluded : ArgumentDefinition := ⟨"not", .string, none, false⟩

/-- The name of a person is not the given one. -/
def otherName : Extension :=
  .filter excluded fun element value => return .binary .ne (.member element "name" .string) value

def people : FieldDefinition :=
  ⟨"people", none, context, .member (.parameter context) "people" (.list (.object "Person")),
    ⟨3, "args_people", .record [("not", .string)]⟩, [("not", excluded)], [],
    [otherName, .position "rank"]⟩

def name : FieldDefinition :=
  ⟨"name", none, person, .member (.parameter person) "name" .string, noArguments, [], [], []⟩

/-- A service greets a person by the nick. -/
def greeting : FieldDefinition :=
  ⟨"greeting", none, person,
    .serviceCall "Greeter" "greet" [.member (.parameter person) "nick" .string] .string,
    noArguments, [], ["Greeter"], []⟩

def today : FieldDefinition :=
  ⟨"today", none, context, .serviceCall "Greeter" "today" [] .string, noArguments, [],
    ["Greeter"], []⟩

def executor : Executor where
  schema :=
    ⟨"Query", context, [("Query", ⟨"Query", none, context, [("people", people), ("today", today)]⟩),
      ("Person", ⟨"Person", none, person, [("name", name), ("greeting", greeting)]⟩)], 4⟩
  services := .empty

/-- A query for `people(not: "Bob") { called: name ...greeted } today`, where the fragment selects
the greeting. -/
def document : Document where
  selections := [
    .field ⟨"people", people, [("not", .literal (.string "Bob"))]⟩ []
      [.field ⟨"called", name, []⟩ [] [], .spread "greeted" []],
    .field ⟨"today", today, []⟩ [] []]
  fragments := [("greeted", ⟨"greeted", "Person", [.field ⟨"greeting", greeting, []⟩ [] []]⟩)]

def everyone : Value :=
  .object [("people", .list [.object [("name", .string "Bob"), ("nick", .string "B")],
    .object [("name", .string "Ada"), ("nick", .string "A")]])]

theorem cases_of_defines {definition : FieldDefinition} (h : executor.schema.Defines definition) :
    definition = people ∨ definition = today ∨ definition = name ∨ definition = greeting := by
  obtain ⟨type, htype, field, hfield, rfl⟩ := h
  simp only [executor, mem_cons, not_mem_nil, or_false] at htype
  rcases htype with rfl | rfl <;>
    simp only [mem_cons, not_mem_nil, or_false] at hfield <;>
    rcases hfield with rfl | rfl <;> simp

theorem serviceless_otherName : otherName.Serviceless :=
  .filter excluded fun _ _ _ helement hvalue => ⟨helement, hvalue⟩

theorem declaresServices (definition : FieldDefinition) (h : executor.schema.Defines definition) :
    definition.DeclaresServices := by
  rcases cases_of_defines h with rfl | rfl | rfl | rfl
  · refine ⟨fun _ => trivial, fun _ => ?_⟩
    simp only [people, forall_mem_cons]
    exact ⟨serviceless_otherName, .position "rank", forall_mem_nil _⟩
  · exact ⟨nofun, nofun⟩
  · exact ⟨fun _ => trivial, nofun⟩
  · exact ⟨nofun, nofun⟩

theorem defined : document.Every fun field _ => executor.schema.Defines field.definition := by
  have hquery : ∀ f ∈ [people, today], executor.schema.Defines f := by
    simp [Schema.Defines, executor]
  have hperson : ∀ f ∈ [name, greeting], executor.schema.Defines f := by
    simp [Schema.Defines, executor]
  simp only [forall_mem_cons] at hquery hperson
  refine ⟨⟨⟨hquery.1, ⟨hperson.1, trivial⟩, trivial, trivial⟩, ⟨hquery.2.1, trivial⟩, trivial⟩, ?_⟩
  intro f hf
  obtain rfl := mem_singleton.1 hf
  exact ⟨⟨hperson.2.1, trivial⟩, trivial⟩

def peopleRoot : RootField :=
  ⟨"people", .mk ⟨"people", people, [("not", .literal (.string "Bob"))]⟩ .direct [] fun _ =>
    .ofExcept ((Expansion.ofDocument document []).expandAllWith
      ((Expansion.ofDocument document []).enter 1)
      .direct [] [.field ⟨"called", name, []⟩ [] [], .spread "greeted" []])⟩

def todayRoot : RootField :=
  ⟨"today", .mk ⟨"today", today, []⟩ .direct [] fun _ =>
    .ofExcept ((Expansion.ofDocument document []).expandAllWith
      ((Expansion.ofDocument document []).enter 1) .direct [] [])⟩

theorem roots :
    rootFields (.ofDocument document []) document = .ok [peopleRoot, todayRoot] := rfl

/-- The data pass of a field. -/
def fetch (root : RootField) : Compile (Option Compiled) :=
  (executor.compilerFor document []).compileRoot executor.schema root .dataOnly .schema

/-- What the data pass of a field gives, without any services. -/
def fetched (root : RootField) : Option (Except EvaluationError Value) :=
  match (outcome (fetch root) { next := 4 }).1 with
  | .ok (some compiled) =>
    some (executor.evaluation (executor.directEnvironment compiled everyone)
      compiled.expression).result
  | _ => none

theorem exists_of_fetched (root : RootField) (h : (fetched root).isSome = true) :
    ∃ compiled m', Gives (fetch root) { next := 4 } (some compiled) m' := by
  unfold fetched at h
  split at h
  · rename_i compiled hcompiled
    exact ⟨compiled, _, Prod.ext hcompiled rfl⟩
  · cases h

end Reception

open Reception in
/-- The nicks are fetched for the greetings without a greeter, and nothing is fetched for the
day. -/
theorem reception_calls_no_service :
    (∀ definition, executor.schema.Defines definition → definition.DeclaresServices)
      ∧ (document.Every fun field _ => executor.schema.Defines field.definition)
      ∧ rootFields (.ofDocument document []) document = .ok [peopleRoot, todayRoot]
      ∧ (fetched peopleRoot).map (Except.map Value.text)
          = some (.ok "[\x7bcalled: \"Ada\", nick: \"A\", name: \"Ada\", rank: 0\x7d]")
      ∧ (∃ compiled m', Gives (fetch peopleRoot) { next := 4 } (some compiled) m'
          ∧ compiled.expression.Serviceless)
      ∧ Gives (fetch todayRoot) { next := 4 } none { next := 4 } := by
  have hroot := data_pass_calls_no_service executor declaresServices document defined [] _ roots
  have hpeople := (hroot peopleRoot mem_cons_self { next := 4 }).1
  have htoday := (hroot todayRoot (mem_cons_of_mem _ mem_cons_self) { next := 4 }).2
  obtain ⟨compiled, m', hcompiled⟩ := exists_of_fetched peopleRoot (by decide +kernel)
  exact ⟨declaresServices, defined, roots, by decide +kernel,
    ⟨compiled, m', hcompiled, (hpeople compiled m' hcompiled).1⟩, htoday rfl⟩

end Executor
end QueryProjection
