import QueryProjection.Proofs.Bind
import QueryProjection.Proofs.TwoPass.Root
import QueryProjection.Schema.Build

/-!
# Two passes refine one

An operation with service fields is executed in two passes.  What that gives for a field of the
operation is what the full pass alone gives against the schema, over the data of the query.

* `Schema.Regular` is what is assumed of a schema;
* `Executor.two_passes_refine_one` is for lists that are filtered, sorted and paged;
* `Executor.positions_survive_passes` is for lists with numbered elements besides.

## Why both are compared with a meaning

The passes share no expression that could be followed from one to the other.  The data pass drops
service fields and adds what they read, and the full pass reads a record where the direct one reads
the data.  So either way of executing a field is compared with what the field answers
(`Interpretation.answer`), which is defined on the expanded tree and refers neither to records and
their keys nor to the numbers of parameters.

## Why it is a refinement

Two passes can fail where one does not: over fetched data a service field may read nothing but
members of its context, and what extensions read of an element has to be found out.  The converse
needs the assumptions on variables, predicates and the types of service fields:
`Executor.two_passes_outdo_one` has executions in two passes that one pass does not match.
-/

namespace QueryProjection

open Compiler Expr List

/-- What is assumed of a schema: its parameters have the types and numbers that they are built with,
its fields are regular, and a service field with fields below it has a type of its own. -/
structure Schema.Regular (services : Provider) (schema : Schema) : Prop where
  context_ty : schema.context.ty.IsObject
  context_id : schema.context.id < schema.next
  fields : ∀ definition, schema.Defines definition → definition.Regular services schema.next
  apart : ∀ definition, schema.Defines definition → definition.TypedApart

variable {services : Provider} {definition : FieldDefinition}

theorem FieldDefinition.Regular.of_member {next : Nat} {name : String} {ty : Ty}
    (hresolve : definition.resolve = .member (.parameter definition.context) name ty)
    (hcontext : definition.context.ty.IsObject)
    (harguments : ∃ shape, definition.argumentsParameter.ty = .record shape)
    (hid : definition.context.id < next) (hid' : definition.argumentsParameter.id < next)
    (hdefaults : ∀ a ∈ definition.arguments, ∀ v ∈ a.2.default, v.Eager)
    (hextensions : definition.shape = .list →
      ∃ key, Extension.Arranged services definition.extensions key) :
    definition.Regular services next where
  context_ty := hcontext
  arguments_ty := harguments
  context_id := hid
  arguments_id := hid'
  free p hp := by
    rw [hresolve] at hp
    rwa [mem_freeParameters_parameter.1 (mem_freeParameters_member.1 hp)]
  binders p hp := by
    rw [hresolve] at hp
    exact absurd hp not_mem_nil
  own := by
    rw [hresolve]
    exact not_mem_nil
  resolve := by
    rw [hresolve]
    trivial
  defaults := hdefaults
  extensions := hextensions

namespace Executor

variable {executor : Executor} {text : String}

section Fields

variable {operation : Option String} {document : Document} {supplied : Variables}
  {roots : List RootField} {root : RootField}

theorem regular_of_rootFields (hschema : executor.schema.Regular executor.services)
    (hparse : Document.parse executor.schema text operation = .ok document)
    (hsupplied : ∀ s ∈ supplied, s.2.Eager)
    (hroots : rootFields (.ofDocument document supplied) document = .ok roots)
    (hroot : root ∈ roots) :
    root.field.Every fun field selections => executor.schema.Defines field.definition
      ∧ field.Regular executor.services (executor.compilerFor document supplied).values
          executor.schema.next selections := by
  obtain ⟨hbound, hdeclarations⟩ := Document.every_of_parse hparse
  exact (every_of_rootFields hbound hroots root hroot).imp fun field selections h =>
    ⟨h.defined, hschema.fields _ h.defined, h.given ⟨hdeclarations, hsupplied⟩, h.selections⟩

theorem refinable_of_rootFields (hschema : executor.schema.Regular executor.services)
    (hservices : executor.services.Keep Value.Eager)
    (hparse : Document.parse executor.schema text operation = .ok document)
    (hsupplied : ∀ s ∈ supplied, s.2.Eager) {data : Value} (hdata : data.Eager)
    (hroots : rootFields (.ofDocument document supplied) document = .ok roots)
    (hroot : root ∈ roots)
    (hnumbers : ∀ x : Expanded, x.Within root.field → x.field.definition.shape = .list →
      ∀ key, Extension.position key ∈ x.field.definition.extensions → ∀ fields,
        x.selection = .selects fields → Expanded.Numberable key fields) :
    executor.Refinable (executor.compilerFor document supplied) root data where
  context_ty := hschema.context_ty
  context_id := hschema.context_id
  services := hservices
  data := hdata
  regular := (regular_of_rootFields hschema hparse hsupplied hroots hroot).imp fun _ _ h => h.2
  apart := (regular_of_rootFields hschema hparse hsupplied hroots hroot).imp fun _ _ h =>
    hschema.apart _ h.1
  numbers := hnumbers

end Fields

/-- **Two passes refine one.**  Let lists be filtered, sorted and paged only, by predicates and keys
that depend on nothing but what they are given.  If executing a field of an operation gives a value,
with a data pass or without, then compiling the field in full against the schema succeeds, and it
evaluates to the same value over the data. -/
theorem two_passes_refine_one (executor : Executor)
    (hschema : executor.schema.Regular executor.services)
    (hwindows : ∀ definition, executor.schema.Defines definition → definition.shape = .list →
      ∀ x ∈ definition.extensions, x.Window executor.services)
    (hservices : executor.services.Keep Value.Eager) (text : String) (operation : Option String)
    (document : Document) (hparse : Document.parse executor.schema text operation = .ok document)
    (supplied : Variables) (hsupplied : ∀ s ∈ supplied, s.2.Eager) (data : Value)
    (hdata : data.Eager) (roots : List RootField)
    (hroots : rootFields (.ofDocument document supplied) document = .ok roots)
    (root : RootField) (hroot : root ∈ roots) (m : Memory) (v : Value)
    (h : (outcome (executor.executeRoot (executor.compilerFor document supplied) root data) m).1
      = .ok v)
    (memory : Memory) (hmemory : executor.schema.next ≤ memory.next) :
    ∃ compiled memory', Gives ((executor.compilerFor document supplied).compileRoot
      executor.schema root
        .full .schema) memory (some compiled) memory'
      ∧ (executor.evaluation (executor.directEnvironment compiled data) compiled.expression).result
          = .ok v := by
  have hregular := regular_of_rootFields hschema hparse hsupplied hroots hroot
  have hplain : ∀ x : Expanded, x.Within root.field → x.field.definition.shape = .list → ∀ key,
      Extension.position key ∉ x.field.definition.extensions := by
    intro x hx hlist key hmem
    obtain ⟨_, hdefined, -⟩ := hregular.within hx
    exact Extension.not_window_position key (hwindows _ hdefined hlist _ hmem)
  have hgives :
      Gives (executor.executeRoot (executor.compilerFor document supplied) root data) m v _ :=
    Prod.ext h rfl
  have hrefinable := refinable_of_rootFields hschema hservices hparse hsupplied hdata hroots hroot
    fun x hx hlist key hmem => absurd hmem (hplain x hx hlist key)
  obtain ⟨compiled, memory', hcompiled, hv⟩ := direct_of_executeRoot hrefinable hgives hmemory
  rw [← value?_evaluation, Run.value?_eq_some_iff] at hv
  exact ⟨compiled, memory', hcompiled, hv⟩

/-! ## Operations on fixed data -/

/-- What running the first field of an operation gives, for a text that is read. -/
def first? (executor : Executor) (text : String) (supplied : Variables)
    (run : Compiler → RootField → Execute Value) : Option (Except FieldError Value) :=
  match Document.parse executor.schema text none with
  | .error _ => none
  | .ok document =>
    match rootFields (.ofDocument document supplied) document with
    | .ok (root :: _) =>
      some (outcome (run (executor.compilerFor document supplied) root)
        { next := executor.schema.next }).1
    | _ => none

theorem exists_of_first? {supplied : Variables} {run : Compiler → RootField → Execute Value}
    {written : String}
    (h : (executor.first? text supplied run).map (Except.map Value.text) = some (.ok written)) :
    ∃ document roots root v, Document.parse executor.schema text none = .ok document
      ∧ rootFields (.ofDocument document supplied) document = .ok roots ∧ root ∈ roots
      ∧ (outcome (run (executor.compilerFor document supplied) root)
          { next := executor.schema.next }).1 = .ok v
      ∧ v.text = written := by
  obtain ⟨result, hresult, h⟩ := Option.map_eq_some_iff.1 h
  unfold first? at hresult
  split at hresult
  · cases hresult
  · rename_i document hdocument
    split at hresult
    · rename_i root rest hroots
      obtain rfl := Option.some.inj hresult
      cases hv : (outcome (run (executor.compilerFor document supplied) root)
          { next := executor.schema.next }).1 with
      | error e =>
        rw [hv] at h
        cases h
      | ok v =>
        rw [hv] at h
        exact ⟨document, root :: rest, root, v, hdocument, hroots, mem_cons_self, hv,
          Except.ok.inj h⟩
    · cases hresult

/-! People who are found by their name.  They have friends, and a service greets them. -/

namespace Neighbours

def context : Parameter := ⟨0, "ctx", .object "Query"⟩

def person : Parameter := ⟨1, "person", .object "Person"⟩

def noArguments : Parameter := ⟨2, "args", .record []⟩

def name : ArgumentDefinition := ⟨"name", .string, none, false⟩

def byName : Extension :=
  .filter name fun element value => return .binary .eq (.member element "name" .string) value

def byNick : Extension :=
  .sort fun element => return .member element "nick" .string

/-- The arguments that extensions add, by name. -/
def search (extensions : List Extension) : List (String × ArgumentDefinition) :=
  (extensions.flatMap Extension.arguments).map fun argument => (argument.name, argument)

/-- A field that reads a member of a person. -/
def plain (member : String) (ty : Ty) : FieldDefinition :=
  ⟨member, none, person, .member (.parameter person) member ty, noArguments, [], [], []⟩

def nick : Expr := .member (.parameter person) "nick" .string

/-- A service greets a person, given these arguments. -/
def greeting (arguments : List Expr) : FieldDefinition :=
  ⟨"greeting", none, person, .serviceCall "Greeter" "greet" arguments .string, noArguments, [],
    ["Greeter"], []⟩

/-- The people, with these extensions. -/
def people (extensions : List Extension) : FieldDefinition :=
  ⟨"people", none, context, .member (.parameter context) "people" (.list (.object "Person")),
    ⟨3, "args_people", .record ((search extensions).map fun a => (a.1, a.2.ty))⟩,
    search extensions, [], extensions⟩

def directory (arguments : List Expr) (extensions : List Extension) : Schema where
  queryType := "Query"
  context
  types :=
    [("Query", ⟨"Query", none, context, [("people", people extensions)]⟩),
      ("Person", ⟨"Person", none, person, [("name", plain "name" .string),
        ("greeting", greeting arguments), ("friends",
          plain "friends" (.list (.object "Person")))]⟩)]
  next := 4

def greeter (arguments : List Expr) (extensions : List Extension) : Executor where
  schema := directory arguments extensions
  services := Services.provider ⟨[("Greeter::greet", fun arguments => pure (.list arguments))]⟩

/-- Lists are filtered and sorted. -/
def searched : Executor := greeter [nick] [byName, byNick]

/-- The elements of lists are numbered, and filtered then. -/
def ranked : Executor := greeter [nick] [.position "rank", byName]

def query : String :=
  "query($who: String) \x7b people(name: $who) \x7b called: name ...Greeted \x7d \x7d
   fragment Greeted on Person \x7b greeting friends \x7b greeting \x7d \x7d"

def who : Variables := [("who", .string "Ada")]

def everyone : Value :=
  .object [("people", .list [.object [("name", .string "Bob"), ("nick", .string "B")],
    .object [("name", .string "Ada"), ("nick", .string "A"),
      ("friends", .list [.object [("nick", .string "E")]])]])]

theorem window_byName (services : Provider) : byName.Window services := by
  refine .filter name (fun given => (given.head?.bind id).bind fun v =>
      (readMember "name" v).value?.bind fun l =>
      ((given[1]?).bind id).map (Operator.eq.combine l)) (fun element value => ?_)
    fun element value n _ env => ?_
  · refine ⟨fun n => Nat.le_refl n, fun n p hp => ?_, ?_⟩
    · rcases mem_freeParameters_binary.1 hp with hp | hp
      · exact ⟨element, mem_cons_self, mem_freeParameters_member.1 hp⟩
      · exact ⟨value, mem_cons_of_mem _ mem_cons_self, hp⟩
    · exact fun h n => ⟨h element mem_cons_self, h value (mem_cons_of_mem _ mem_cons_self)⟩
  · exact (value?_binary ..).trans (by rw [value?_member, Option.bind_assoc]; rfl)

theorem window_byNick (services : Provider) : byNick.Window services := by
  refine .sort (fun given => (given.head?.bind id).bind fun v => (readMember "nick" v).value?)
    (fun element => ⟨fun n => Nat.le_refl n, fun n p hp => ?_, ?_⟩) fun element n _ env => ?_
  · exact ⟨element, mem_cons_self, mem_freeParameters_member.1 hp⟩
  · exact fun h n => h element mem_cons_self
  · exact value?_member ..

variable {extensions : List Extension}

theorem cases_of_defines {arguments : List Expr}
    (h : (directory arguments extensions).Defines definition) :
    definition = people extensions
      ∨ (∃ member ty, definition = plain member ty) ∨ definition = greeting arguments := by
  obtain ⟨type, htype, field, hfield, rfl⟩ := h
  simp only [directory, mem_cons, not_mem_nil, or_false] at htype
  rcases htype with rfl | rfl
  · obtain rfl := mem_singleton.1 hfield
    exact .inl rfl
  · simp only [mem_cons, not_mem_nil, or_false] at hfield
    rcases hfield with rfl | rfl | rfl
    exacts [.inr (.inl ⟨_, _, rfl⟩), .inr (.inr rfl), .inr (.inl ⟨_, _, rfl⟩)]

theorem regular_greeting (services : Provider) : (greeting [nick]).Regular services 4 where
  context_ty := ⟨"Person", rfl⟩
  arguments_ty := ⟨[], rfl⟩
  context_id := by decide
  arguments_id := by decide
  free p hp := by
    obtain rfl : p = person := by simpa [greeting, nick] using hp
    decide
  binders p hp := absurd hp not_mem_nil
  own := not_mem_nil
  resolve := by simp [greeting, nick, Built, BuiltAll]
  defaults a ha := absurd ha not_mem_nil
  extensions hlist := nomatch hlist

theorem regular_directory (h : ∃ key, Extension.Arranged services extensions key)
    (hdefaults : ∀ x ∈ extensions, ∀ a ∈ x.arguments, ∀ v ∈ a.default, v.Eager) :
    (directory [nick] extensions).Regular services where
  context_ty := ⟨"Query", rfl⟩
  context_id := Nat.zero_lt_succ 3
  fields definition hd := by
    rcases cases_of_defines hd with rfl | ⟨member, ty, rfl⟩ | rfl
    · refine .of_member rfl ⟨"Query", rfl⟩ ⟨_, rfl⟩ (Nat.zero_lt_succ 3) (Nat.lt_succ_self 3)
        (fun a ha => ?_) fun _ => h
      obtain ⟨argument, hmem, rfl⟩ := mem_map.1 ha
      obtain ⟨x, hx, hargument⟩ := mem_flatMap.1 hmem
      exact hdefaults x hx argument hargument
    · exact .of_member rfl ⟨"Person", rfl⟩ ⟨_, rfl⟩ (by decide : 1 < 4) (by decide : 2 < 4)
        (forall_mem_nil _) fun _ => ⟨none, forall_mem_nil _⟩
    · exact regular_greeting services
  apart definition hd := by
    rcases cases_of_defines hd with rfl | ⟨member, ty, rfl⟩ | rfl
    · exact nofun
    · exact nofun
    · exact fun _ _ => trivial

theorem keep_services (arguments : List Expr) (extensions : List Extension) :
    (greeter arguments extensions).services.Keep Value.Eager := by
  refine Services.keep_of_methods fun m hm given v hgiven hv => ?_
  obtain rfl := mem_singleton.1 hm
  exact Except.ok.inj hv ▸ Value.eager_list.2 hgiven

theorem eager_everyone : everyone.Eager := by
  simp [everyone, Value.Eager, Value.EagerItems, Value.EagerMembers]

end Neighbours

open Neighbours in
/-- People who are searched and sorted, with friends, and greeted by a service. -/
theorem neighbours_refined :
    searched.schema.Regular searched.services
      ∧ (∀ definition, searched.schema.Defines definition → definition.shape = .list →
          ∀ x ∈ definition.extensions, x.Window searched.services)
      ∧ searched.services.Keep Value.Eager ∧ (∀ s ∈ who, s.2.Eager) ∧ everyone.Eager
      ∧ ∃ document roots root v, Document.parse searched.schema query none = .ok document
        ∧ rootFields (.ofDocument document who) document = .ok roots ∧ root ∈ roots
        ∧ (outcome (searched.executeRoot (searched.compilerFor document who) root everyone)
            { next := 4 }).1 = .ok v
        ∧ v.text
          = "[\x7bcalled: \"Ada\", greeting: [\"A\"], friends: [\x7bgreeting: [\"E\"]\x7d]\x7d]"
        ∧ ∃ compiled memory', Gives ((searched.compilerFor document who).compileRoot
          searched.schema root
            .full .schema) { next := 4 } (some compiled) memory'
          ∧ (searched.evaluation (searched.directEnvironment compiled everyone)
              compiled.expression).result = .ok v := by
  have hwindow : ∀ x ∈ [byName, byNick], x.Window searched.services := by
    simp only [mem_cons, not_mem_nil, or_false]
    rintro x (rfl | rfl)
    exacts [window_byName _, window_byNick _]
  have hdefaults : ∀ x ∈ [byName, byNick], ∀ a ∈ x.arguments, ∀ v ∈ a.default, v.Eager := by
    simp [byName, byNick, Extension.filter, Extension.sort, name, Value.Eager]
  have hschema : searched.schema.Regular searched.services :=
    regular_directory ⟨none, hwindow⟩ hdefaults
  have hwindows : ∀ definition, searched.schema.Defines definition → definition.shape = .list →
      ∀ x ∈ definition.extensions, x.Window searched.services := by
    intro definition hd _
    rcases cases_of_defines hd with rfl | ⟨member, ty, rfl⟩ | rfl
    · exact hwindow
    · exact fun x hx => absurd hx not_mem_nil
    · exact fun x hx => absurd hx not_mem_nil
  have hwho : ∀ s ∈ who, s.2.Eager := by simp [who, Value.Eager]
  refine ⟨hschema, hwindows, keep_services _ _, hwho, eager_everyone, ?_⟩
  have hrun : (searched.first? query who fun compiler root =>
      searched.executeRoot compiler root everyone).map (Except.map Value.text)
        = some
          (.ok
            "[\x7bcalled: \"Ada\", greeting: [\"A\"], friends: [\x7bgreeting: [\"E\"]\x7d]\x7d]") := by
    decide +kernel
  obtain ⟨document, roots, root, v, hparse, hroots, hroot, hv, htext⟩ := exists_of_first? hrun
  exact ⟨document, roots, root, v, hparse, hroots, hroot, hv, htext,
    two_passes_refine_one searched hschema hwindows (keep_services _ _) query none document
      hparse who hwho everyone eager_everyone roots hroots root hroot _ v hv _ (Nat.le_refl 4)⟩

/-! Members of things that are supplied, and a service that is asked whether they are as
expected. -/

namespace Boxes

def boxes : Executor where
  schema := ((Schema.build "Query" [
    { name := "Query"
      fields := [{
        name := "thing"
        attached := [.argument ⟨"x", .object "Thing", none, false⟩]
        resolve := fun _ arguments =>
          return .member (.parameter arguments) "x" (.object "Thing") }] },
    { name := "Thing"
      fields := [{
        name := "same"
        services := ["s"]
        resolve := fun context _ => do
          let expected ← ofValue (.list [.int 1]) (.list .int)
          let items := member (.parameter context) "items" (.list .int)
          return .binary .and (.serviceCall "s" "yes" [] .boolean) (.binary .eq items expected) }]
            }]).run
    0).1
  services := Services.provider ⟨[("s::yes", fun _ => pure (.boolean true))]⟩

def query : String := "query($v: Thing) \x7b thing(x: $v) \x7b same \x7d \x7d"

/-- The items of the thing are a lazy sequence. -/
def supplied : Variables := [("v", .object [("items", .lazy fun _ => .yields [] [.int 1])])]

end Boxes

/-! Friends of a person, found by a predicate that looks at a person of its own. -/

namespace Acquaintances

def acquainted : Executor where
  schema := ((Schema.build "Query" [
    { name := "Query"
      fields := [.member "person" (.object "Person")] },
    { name := "Person"
      fields := [.member "name" .string, {
        name := "friends"
        services := ["s"]
        attached := [.extension (.filter ⟨"named", .string, none, false⟩ fun _ value => do
          let stale ← Parameter.fresh "stale" (.object "Person")
          return .binary .eq (.member (.parameter stale) "name" .string) value)]
        resolve := fun _ _ => return .serviceCall "s" "none" [] (.list (.object "Person")) }]
          }]).run 0).1
  services := Services.provider ⟨[("s::none", fun _ => pure (.list []))]⟩
  settings := { typeMatching := .deny }

def query : String :=
  "\x7b person \x7b name ...F \x7d \x7d fragment F on Person \x7b friends(named: \"Ada\") \x7b name \x7d \x7d"

def data : Value := .object [("person", .object [("name", .string "Bob")])]

end Acquaintances

/-! A member, and a service that stands in for it if there is none. -/

namespace Fallback

def fallback : Executor where
  schema := ((Schema.build "Query" [
    { name := "Query"
      fields := [.member "r" (.object "R")] },
    { name := "R"
      fields := [.member "p" (.object "P")] },
    { name := "P"
      fields := [.member "m" (.object "M"), {
        name := "s"
        services := ["s"]
        resolve := fun context _ => do
          let member := member (.parameter context) "m" (.object "M")
          return .binary .coalesce member (.serviceCall "s" "none" [] (.object "M")) }] },
    { name := "M"
      fields := [{
        name := "c"
        attached := [.argument ⟨"x", .int, none, true⟩]
        resolve := fun _ arguments => return .member (.parameter arguments) "x" .int }] }]).run 0).1
  services := Services.provider ⟨[("s::none", fun _ => pure .null)]⟩

/-- The first of two fields with one key is replaced by the second one. -/
def query : String :=
  "\x7b r \x7b a: p \x7b s \x7b c \x7d \x7d a: p \x7b m \x7b c(x: 1) \x7d \x7d \x7d \x7d"

def data : Value := .object [("r", .object [("p", .object [("m", .object [])])])]

end Fallback

/-- What is assumed of variables, of predicates and of the types of service fields is needed.  A
variable with a lazy sequence in it is forced by the data pass, and compared as it is without one.
A predicate that looks at a parameter of its own is refused where types are not matched, unless the
data was fetched.  And what stands below a service field that resolves to a fetched record is read
back, its arguments unchecked. -/
theorem two_passes_outdo_one :
    (Boxes.boxes.first? Boxes.query Boxes.supplied fun compiler root =>
        Boxes.boxes.executeRoot compiler root .null).map (Except.map Value.text)
      = some (.ok "\x7bsame: true\x7d")
    ∧ (Boxes.boxes.first? Boxes.query Boxes.supplied fun compiler root =>
        Boxes.boxes.runDirect compiler root .null).map (Except.map Value.text)
      = some (.ok "\x7bsame: false\x7d")
    ∧ (Acquaintances.acquainted.first? Acquaintances.query [] fun compiler root =>
        Acquaintances.acquainted.executeRoot compiler root Acquaintances.data).map
          (Except.map Value.text)
      = some (.ok "\x7bname: \"Bob\", friends: []\x7d")
    ∧ (Acquaintances.acquainted.first? Acquaintances.query [] fun compiler root =>
        Acquaintances.acquainted.runDirect compiler root Acquaintances.data).map
          (Except.map Value.text)
      = some (.error (.ofCompileError (.typeMatchRejected ⟨["person", "friends"]⟩ "Person")))
    ∧ (Fallback.fallback.first? Fallback.query [] fun compiler root =>
        Fallback.fallback.executeRoot compiler root Fallback.data).map (Except.map Value.text)
      = some (.ok "\x7ba: \x7bm: \x7bc: 1\x7d\x7d\x7d")
    ∧ (Fallback.fallback.first? Fallback.query [] fun compiler root =>
        Fallback.fallback.runDirect compiler root Fallback.data).map (Except.map Value.text)
      = some (.error (.ofCompileError (.missingArgument ⟨["r", "a", "s", "c"]⟩ "x"))) := by
  refine ⟨?_, ?_, ?_, ?_, ?_, ?_⟩ <;> decide +kernel

/-! ## Numbered elements -/

/-- **Positions survive the passes.**  The elements of lists may be numbered too, if one of the
fields that are selected of them has something to be fetched, and nothing is fetched for a service
field under the key of the position.  Then two passes refine one as before: the value has the same
positions in it, and comes from services that are given the same arguments. -/
theorem positions_survive_passes (executor : Executor)
    (hschema : executor.schema.Regular executor.services)
    (hservices : executor.services.Keep Value.Eager) (text : String) (operation : Option String)
    (document : Document) (hparse : Document.parse executor.schema text operation = .ok document)
    (supplied : Variables) (hsupplied : ∀ s ∈ supplied, s.2.Eager) (data : Value)
    (hdata : data.Eager) (roots : List RootField)
    (hroots : rootFields (.ofDocument document supplied) document = .ok roots)
    (root : RootField) (hroot : root ∈ roots)
    (hnumbers : ∀ x : Expanded, x.Within root.field → x.field.definition.shape = .list →
      ∀ key, Extension.position key ∈ x.field.definition.extensions → ∀ fields,
        x.selection = .selects fields → Expanded.Numberable key fields)
    (m : Memory) (v : Value)
    (h : (outcome (executor.executeRoot (executor.compilerFor document supplied) root data) m).1
      = .ok v)
    (memory : Memory) (hmemory : executor.schema.next ≤ memory.next) :
    ∃ compiled memory', Gives ((executor.compilerFor document supplied).compileRoot
      executor.schema root
        .full .schema) memory (some compiled) memory'
      ∧ (executor.evaluation (executor.directEnvironment compiled data) compiled.expression).result
          = .ok v := by
  have hrefinable :=
    refinable_of_rootFields hschema hservices hparse hsupplied hdata hroots hroot hnumbers
  have hgives :
      Gives (executor.executeRoot (executor.compilerFor document supplied) root data) m v _ :=
    Prod.ext h rfl
  obtain ⟨compiled, memory', hcompiled, hv⟩ := direct_of_executeRoot hrefinable hgives hmemory
  rw [← value?_evaluation, Run.value?_eq_some_iff] at hv
  exact ⟨compiled, memory', hcompiled, hv⟩

namespace Neighbours

/-- The nick of a person is never fetched as a rank. -/
theorem rank_ne_fetchedKey (i : Nat) :
    Text.sameIgnoringCase "rank" (SelectionMap.fetchedKey "nick" i) = false := by
  have hlength : ∀ a b, Text.sameIgnoringCase a b = true → a.length = b.length := by
    intro a b h
    have hfold := congrArg String.length ((Text.sameIgnoringCase_iff a b).1 h)
    simpa [Text.foldCase, String.length_toList] using hfold
  have hfour : "rank".length = 4 := by decide
  have hsix : "__dep_".length = 6 := by decide
  unfold SelectionMap.fetchedKey
  split
  · decide
  all_goals
    rw [← Bool.not_eq_true]
    intro h
    have hlong := hlength _ _ h
    simp only [String.length_append] at hlong
    omega

/-- Whatever fields of the schema are selected of numbered people, there is something to be
fetched. -/
theorem numberable {fields : List Expanded}
    (h : ∀ f ∈ fields, ranked.schema.Defines f.field.definition) :
    Expanded.Numberable "rank" fields where
  kept hne := by
    obtain ⟨f, hf⟩ := exists_mem_of_ne_nil fields hne
    refine ⟨f, hf, fun hservice => ?_⟩
    rcases cases_of_defines (h f hf) with heq | ⟨member, ty, heq⟩ | heq <;> rw [heq] at hservice ⊢
    · cases hservice
    · cases hservice
    · simp [greeting, nick]
  apart f hf hservice path chains hchains d hd i := by
    rcases cases_of_defines (h f hf) with heq | ⟨member, ty, heq⟩ | heq <;> rw [heq]
      at hservice hchains
    · cases hservice
    · cases hservice
    · have hchains' : [("nick", ⟨person, nick⟩)] = chains := Except.ok.inj hchains
      subst hchains'
      obtain rfl := mem_singleton.1 hd
      exact rank_ne_fetchedKey i

end Neighbours

open Neighbours in
/-- People who are numbered, searched then, and greeted by a service. -/
theorem ranks_survive_passes :
    ranked.schema.Regular ranked.services ∧ ranked.services.Keep Value.Eager
      ∧ (∀ s ∈ who, s.2.Eager)
      ∧ everyone.Eager
      ∧ ∃ document roots root v, Document.parse ranked.schema query none = .ok document
        ∧ rootFields (.ofDocument document who) document = .ok roots ∧ root ∈ roots
        ∧ (∀ x : Expanded, x.Within root.field → x.field.definition.shape = .list →
            ∀ key, Extension.position key ∈ x.field.definition.extensions → ∀ fields,
              x.selection = .selects fields → Expanded.Numberable key fields)
        ∧ (outcome (ranked.executeRoot (ranked.compilerFor document who) root everyone)
            { next := 4 }).1 = .ok v
        ∧ v.text
          = "[\x7bcalled: \"Ada\", greeting: [\"A\"], friends: [\x7bgreeting: [\"E\"]\x7d], rank: 1\x7d]"
        ∧ ∃ compiled memory', Gives ((ranked.compilerFor document who).compileRoot
          ranked.schema root
            .full .schema) { next := 4 } (some compiled) memory'
          ∧ (ranked.evaluation (ranked.directEnvironment compiled everyone)
              compiled.expression).result = .ok v := by
  have harranged : Extension.Arranged ranked.services [.position "rank", byName] (some "rank") :=
    ⟨[], [byName], rfl, fun x hx => absurd hx not_mem_nil,
      fun x hx => mem_singleton.1 hx ▸ window_byName _⟩
  have hdefaults :
      ∀ x ∈ [.position "rank", byName], ∀ a ∈ x.arguments, ∀ v ∈ a.default, v.Eager := by
    simp [byName, Extension.filter, Extension.position, name]
  have hschema : ranked.schema.Regular ranked.services :=
    regular_directory ⟨some "rank", harranged⟩ hdefaults
  have hwho : ∀ s ∈ who, s.2.Eager := by simp [who, Value.Eager]
  have hrun : (ranked.first? query who fun compiler root =>
      ranked.executeRoot compiler root everyone).map (Except.map Value.text) = some (.ok
        "[\x7bcalled: \"Ada\", greeting: [\"A\"], friends: [\x7bgreeting: [\"E\"]\x7d], rank: 1\x7d]") := by
    decide +kernel
  obtain ⟨document, roots, root, v, hparse, hroots, hroot, hv, htext⟩ := exists_of_first? hrun
  have hregular := regular_of_rootFields hschema hparse hwho hroots hroot
  have hnumbers : ∀ x : Expanded, x.Within root.field → x.field.definition.shape = .list →
      ∀ key, Extension.position key ∈ x.field.definition.extensions → ∀ fields,
        x.selection = .selects fields → Expanded.Numberable key fields := by
    intro x hx _ key hkey fields hsel
    obtain ⟨_, hdefined, -⟩ := hregular.within hx
    have hrank : key = "rank" := by
      rcases cases_of_defines hdefined with heq | ⟨member, ty, heq⟩ | heq <;> rw [heq] at hkey
      · rcases mem_cons.1 hkey with hkey | hkey
        · exact Extension.position_injective hkey
        · have hname := congrArg Extension.name (mem_singleton.1 hkey)
          exact absurd hname (by decide : "position" ≠ "filter")
      · cases hkey
      · cases hkey
    subst hrank
    refine numberable fun f hf => ?_
    obtain ⟨_, hdefined, -⟩ := hregular.within (hx.selected hsel hf)
    exact hdefined
  exact ⟨hschema, keep_services _ _, hwho, eager_everyone, document, roots, root, v, hparse,
    hroots, hroot, hnumbers, hv, htext, positions_survive_passes ranked hschema
      (keep_services _ _) query none document
      hparse who hwho everyone eager_everyone roots hroots root hroot hnumbers _ v hv _
        (Nat.le_refl 4)⟩

end Executor
end QueryProjection
