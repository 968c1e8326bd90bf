import QueryProjection.Proofs.Stages.Collection
import QueryProjection.Proofs.TwoPass.Projection

/-!
# Extensions in the order of their declaration

A list field that carries stages is compiled to a projection over what the hooks make of the
collection.  However often the elements were swapped for records on the way, the selection is read
from the original ones, and these are the collection after the stages, one after the other
(`Compiler.stages_in_order`).

* `Stage.runPostSelection_gives` says what the second hooks add to the selection;
* `Expanded.Staged` is such a field, and `Compiler.staged_of_compileField` says which hooks it runs
  and what it projects;
* `Value.items?_of_project` says what a projection makes of a collection.

What is compared with the stages is not the value of the collection.  That has records for elements
after a numbering stage, and records of records after two.  `PreSelection.original?` looks through
them to what the selection is read from, and this is what every stage sees of an element too: so the
list of originals is the right thing to follow, and the stages are functions on it.
-/

namespace QueryProjection

open List Resolve

/-! ## The second hooks -/

/-- Writes the same expression under several keys, in turn. -/
def SelectionMap.insertEach (map : SelectionMap) (keys : List String) (e : Expr) : SelectionMap :=
  keys.foldl (fun map key => map.insert key e) map

variable {fields : SelectionMap} {stage : Stage} {v result : Value}

namespace Stage

variable {context : HookContext} {stages : List Stage} {pre pre' : PreSelection} {m m' : Memory}

/-- The keys under which stages number the elements, in order. -/
def positionKeys (stages : List Stage) : List String :=
  stages.filterMap positionKey?

theorem windows_extension (h : stage.positionKey? = none) : stage.extension.Windows := by
  cases stage with
  | filter argument element value predicate =>
    rw [extension]
    exact .filter argument _
  | sort element key =>
    rw [extension]
    exact .sort _
  | page defaultSize maxSize => exact .offsetPaging defaultSize maxSize
  | position key => cases h

/-- The position of an element, for a placeholder that stands for a record of a position and an
element. -/
def indexOf (element : Parameter) : Expr :=
  .member (.parameter element) "index" .int

/-- The placeholder stands for records of a position and an element. -/
def Indexed (element : Parameter) : Prop :=
  ∃ ty, element.ty = .record (Shape.indexed ty)

/-- After a numbering stage, and after what follows it, the placeholder stands for records. -/
theorem indexed_of_run (hmaterialized : context.materialized = false)
    (h : Gives (Compiler.runPreSelection context (stages.map extension) pre) m pre' m')
    (hindexed : Indexed pre.element ∨ positionKeys stages ≠ []) : Indexed pre'.element := by
  induction stages generalizing pre m with
  | nil =>
    obtain ⟨rfl, -⟩ := gives_pure.1 h
    exact hindexed.resolve_right fun h => h rfl
  | cons stage rest ih =>
    obtain ⟨pre₁, j, hfirst, h⟩ := Compiler.runPreSelection_cons_gives.1 h
    cases hkey : stage.positionKey? with
    | none =>
      refine ih h (hindexed.imp (fun hpre => ?_) fun hkeys => ?_)
      · rw [(frame_of_window hkey hfirst).1]
        exact hpre
      · rwa [positionKeys, filterMap_cons_none hkey] at hkeys
    | some key =>
      cases stage with
      | position key =>
        rw [extension, Extension.position_gives, hmaterialized] at hfirst
        obtain ⟨hfirst, -⟩ | ⟨-, _, _, rfl, -, rfl, -⟩ := hfirst
        · cases hfirst
        · exact ih h (.inl ⟨_, rfl⟩)
      | _ => cases hkey

theorem runPostSelection_gives (hmaterialized : context.materialized = false) {element : Parameter}
    (hindexed : positionKeys stages ≠ [] → Indexed element) {post : PostSelection} :
    Gives (Compiler.runPostSelection context (stages.map extension) ⟨fields, element⟩) m post m'
      ↔ post = ⟨fields.insertEach (positionKeys stages) (indexOf element), element⟩ ∧ m' = m := by
  induction stages generalizing fields with
  | nil => exact gives_pure
  | cons stage rest ih =>
    simp only [map_cons, Compiler.runPostSelection_cons_gives]
    cases hkey : stage.positionKey? with
    | none =>
      rw [positionKeys, filterMap_cons_none hkey] at hindexed ⊢
      simp only [(windows_extension hkey).postSelection_eq, gives_pure, existsAndEq, true_and]
      exact ih hindexed
    | some key =>
      cases stage with
      | position key =>
        rw [positionKeys, @filterMap_cons_some _ _ positionKey? _ _ key rfl] at hindexed ⊢
        obtain ⟨ty, hty⟩ := hindexed (cons_ne_nil _ _)
        have hadds : (Stage.position key).extension.postSelection context ⟨fields, element⟩
            = pure ⟨fields.insert key (indexOf element), element⟩ := by
          simp only [extension, Extension.position, hmaterialized, Bool.false_eq_true, if_false,
            (Extension.recordMember?_indexed hty).1, indexOf]
        simp only [hadds, gives_pure, existsAndEq, true_and]
        exact ih fun _ => ⟨ty, hty⟩
      | _ => cases hkey

end Stage

/-! ## Projections -/

namespace Value

theorem mapM_map_snd {α β : Type} {f : α → Option β} {entries : List (String × α)}
    {results : List (String × β)}
    (h : mapEntries f entries = some results) :
    (entries.map Prod.snd).mapM f = some (results.map Prod.snd) := by
  rw [mapM_eq_some_iff, forall₂_map_left_iff, forall₂_map_right_iff]
  exact (mapEntries_eq_some_iff.1 h).imp fun _ _ h => h.2

theorem items?_of_project {f : Value → Option Value} (hnull : v.isNull = false)
    (h : v.project f = some result) :
    ∃ items records, v.items? = some items ∧ items.mapM f = some records
      ∧ result.items? = some records := by
  rcases project_cases h with ⟨rfl, -⟩ | ⟨_, _, rfl, hresults, rfl⟩ | ⟨_, _, hitems, hrecords, rfl⟩
  · cases hnull
  · exact ⟨_, _, rfl, mapM_map_snd hresults, rfl⟩
  · exact ⟨_, _, items?_of_elements hitems, hrecords, rfl⟩

end Value

/-- The value of one of a field's arguments. -/
def Resolved.argument? (resolved : Resolved) (name : String) : Option Value :=
  resolved.arguments.bind fun b => b.2.get? name

/-- A list field that was declared with these stages and has something selected of its elements.
Its arguments, and those of the stages, are the same or have names that differ in more than case. -/
structure Expanded.Staged (e : Expanded) (stages : List Stage) (next : Nat) : Prop where
  built : ∃ (declaration : FieldDeclaration) (parent : Parameter) (n : Nat),
    e.field.definition = ((declaration.build parent).run n).1
      ∧ declaration.extensions = stages.map Stage.extension ∧ declaration.NamesApart
  list : e.field.definition.shape = .list
  selects : ∃ fields, e.selection = .selects fields ∧ fields ≠ []
  older : ∀ stage ∈ stages, stage.OlderThan next

namespace Expanded.Staged

variable {e : Expanded} {stages : List Stage} {next : Nat} (h : e.Staged stages next)

include h

theorem extensions_eq : e.field.definition.extensions = stages.map Stage.extension := by
  obtain ⟨declaration, parent, n, hbuilt, hstages, -⟩ := h.built
  rw [hbuilt, FieldDeclaration.extensions_build, hstages]

theorem plain {given : VariableValues} {record : Option (List (String × Value))}
    (hrecord : e.field.record? given = some record) (hstage : stage ∈ stages) {name : String}
    (hname : name ∈ stage.reads) : (e.field.hookArguments record).Plain name := by
  obtain ⟨declaration, parent, n, hbuilt, hstages, happart⟩ := h.built
  rw [← stage.map_name_arguments] at hname
  obtain ⟨argument, hargument, rfl⟩ := mem_map.1 hname
  have hdeclared : argument.name ∈ declaration.argumentNames := by
    refine declaration.mem_argumentNames ?_ hargument
    rw [hstages]
    exact mem_map_of_mem hstage
  refine HookArguments.plain_of_declares (hbuilt ▸ declaration.argumentsTyped_build parent n)
    hrecord ?_
  rw [hbuilt]
  exact FieldDeclaration.declares_build parent n hdeclared fun other hother =>
    happart other hother _ hdeclared

end Expanded.Staged

namespace Compiler

variable {compiler : Compiler} {e : Expanded} {context : Expr} {scope : Scope} {m m₁ m' : Memory}
  {compiled : Compiled}
  {stages : List Stage} {resolved : Resolved} {services : Provider} {env : Environment}
  {source : Expr} {element : Parameter}

theorem forced?_projectList_eq :
    (projectList scope source element fields).forced? services env
      = (source.value? services env).bind fun v =>
          v.project fun item => fields.toRecord.forced? services (env.bind element item) :=
  @forced?_projectList services env scope source element none fields source nofun

/-- The selected fields of an element, with the positions that stages add. -/
def numberedFields (stages : List Stage) (pre : PreSelection)
    (selection : CompiledSelection) : SelectionMap :=
  selection.fields.insertEach (Stage.positionKeys stages).reverse (Stage.indexOf pre.element)

/-- A list field with stages is compiled to a projection over the collection of `pre`; the selection
is compiled for the original elements. -/
structure ProjectsOver (compiler : Compiler) (e : Expanded) (scope : Scope) (stages : List Stage)
    (compiled : Compiled) (pre : PreSelection) (selection : CompiledSelection) : Prop where
  selects : ∃ inner m₁ m₂, Gives (compiler.selectOf e pre.elementContext inner) m₁ selection m₂
    ∧ inner.mode = .full
  expression : compiled.expression
    = projectList scope pre.collection pre.element (numberedFields stages pre selection)

/-- The hooks that a list field with stages runs over data that was not fetched. -/
structure RunsHooks (e : Expanded) (stages : List Stage) (m : Memory) (resolved : Resolved)
    (hooks : HookContext) (arguments : HookArguments) (pre : PreSelection) : Prop where
  context : hooks.Fresh arguments m.next
  values : arguments.value? = resolved.argument?
  plain : ∀ stage ∈ stages, ∀ name ∈ stage.reads, arguments.Plain name
  binds : ∀ {env : Environment}, (∀ b ∈ resolved.arguments, env b.1 = some b.2) → hooks.BoundIn env
  run : ∃ element m₁ m₂, (∀ q ∈ hooks.arguments, q.id < Journal.next (Memory.toJournal m₁))
    ∧ m.next ≤ m₁.next
    ∧ Gives (runPreSelection hooks (stages.map Stage.extension)
      ⟨resolved.expression, element, .parameter element⟩)
        m₁ pre m₂

theorem staged_of_compileField (hstaged : e.Staged stages m.next) (hmode : scope.mode = .full)
    (hdirect : readBack? e.field context scope = none)
    (hresolved : Gives (resolve e.field compiler.values context scope) m resolved m₁)
    (h : Gives (compiler.compileField e.field (compiler.selectOf e) context scope) m compiled m') :
    ∃ hooks arguments pre selection, RunsHooks e stages m resolved hooks arguments pre
      ∧ ProjectsOver compiler e scope stages compiled pre selection := by
  obtain ⟨-, _, _, hresolved', h⟩ := compileField_gives.1 h
  obtain ⟨hresolved', rfl⟩ := Prod.mk.inj (hresolved'.symm.trans hresolved)
  obtain rfl := Except.ok.inj hresolved'
  obtain ⟨_, hback, -⟩ | ⟨-, hbuild⟩ := resolve_gives.1 hresolved
  · rw [hdirect] at hback
    cases hback
  obtain ⟨arguments, resolver, hbind, -, rfl, -⟩ := build_gives.1 hbuild
  obtain ⟨-, record, hrecord, rfl, rfl⟩ := bindArguments_gives_iff.1 hbind
  rw [compileResolved_eq, hstaged.list] at h
  obtain ⟨ty, element, pre, m₂, selection, m₃, _, -, -, hpre, hselect, helements, h⟩ :=
    compileList_gives.1 h
  have hscope : (withArguments scope (bound e.field record m.next)).2.mode = .full := by
    cases record <;> exact hmode
  rw [elementFields_full hscope] at helements
  obtain rfl := Except.ok.inj helements
  obtain ⟨fields, hselects, hfields⟩ := hstaged.selects
  have hnonempty : selection.fields.isEmpty = false := by
    rw [selectOf, hselects] at hselect
    rw [isEmpty_compileSelection hselect hscope]
    exact isEmpty_eq_false_iff.2 hfields
  rw [hnonempty, if_neg Bool.false_ne_true] at h
  obtain ⟨post, hpost, rfl⟩ := h
  rw [hstaged.extensions_eq] at hpre hpost
  have hreverse : Stage.positionKeys stages.reverse = (Stage.positionKeys stages).reverse :=
    filterMap_reverse
  have hindexed :
      (Stage.positionKeys stages).reverse ≠ [] → Stage.Indexed pre.element := fun hkeys =>
    Stage.indexed_of_run rfl hpre (.inr fun hnil => hkeys (by rw [hnil, reverse_nil]))
  rw [← map_reverse, Stage.runPostSelection_gives rfl (hreverse ▸ hindexed), hreverse] at hpost
  obtain ⟨rfl, -⟩ := hpost
  refine ⟨_, e.field.hookArguments record, pre, selection, ⟨⟨rfl, sees_bound _, ?_⟩, ?_,
    fun stage hstage name hname => hstaged.plain hrecord hstage hname, boundIn_of_bound _,
      ⟨_, _, _, ?_, ?_, hpre⟩⟩,
    ⟨_, _, _, hselect, hscope⟩, ?_⟩
  · intro q hq
    obtain ⟨b, hb, rfl⟩ := Option.map_eq_some_iff.1 hq
    exact Nat.le_of_eq (id_eq_of_bound b hb).symm
  · cases record <;> rfl
  · intro q hq
    obtain ⟨b, hb, rfl⟩ := Option.map_eq_some_iff.1 hq
    exact Nat.lt_succ_of_lt (id_bound _ _ _ b hb)
  · exact Nat.le_succ_of_le (Nat.le_add_right _ _)
  · cases record <;> rfl

theorem ProjectsOver.items {pre : PreSelection} {selection : CompiledSelection}
    (h : ProjectsOver compiler e scope stages compiled pre selection)
    {F : List Value → List Value → Prop}
    (hthrough : ∀ {w'}, pre.collection.value? services env = some w' →
      ∃ w, source.value? services env = some w ∧ w.Through F w')
    (hv : source.value? services env = some v) (hnull : v.isNull = false)
    (hresult : compiled.expression.forced? services env = some result) :
    ∃ xs items records : List Value, v.items? = some xs ∧ F xs items
      ∧ (items.mapM fun item => (numberedFields stages pre selection).toRecord.forced? services
          (env.bind pre.element item)) = some records
      ∧ result.items? = some records := by
  rw [h.expression, forced?_projectList_eq] at hresult
  obtain ⟨w, hw, hresult⟩ := Option.bind_eq_some_iff.1 hresult
  obtain ⟨_, hv', hthrough⟩ := hthrough hw
  obtain rfl := Option.some.inj (hv.symm.trans hv')
  obtain ⟨items, records, hitems, hrecords, hresult⟩ :=
    Value.items?_of_project (hthrough.null.trans hnull) hresult
  obtain ⟨xs, hxs, hF⟩ := hthrough.items items hitems
  exact ⟨xs, items, records, hxs, hF, hrecords, hresult⟩

theorem original?_parameter {collection : Expr} (item : Value) :
    (PreSelection.mk collection element (.parameter element)).original? services env
      item = some item := by
  rw [PreSelection.original?, Expr.value?_parameter, Environment.bind_self]

/-- **Extensions apply in the order of their declaration.**  The elements of the collection that the
selection is projected over stand for original elements, and these are the collection that the field
resolves to, after each stage in turn. -/
theorem stages_in_order (hstaged : e.Staged stages m.next) (hmode : scope.mode = .full)
    (hdirect : readBack? e.field context scope = none)
    (hresolved : Gives (resolve e.field compiler.values context scope) m resolved m₁)
    (h : Gives (compiler.compileField e.field (compiler.selectOf e) context scope) m compiled m') :
    ∃ pre selection, ProjectsOver compiler e scope stages compiled pre selection
      ∧ ∀ (services : Provider) (env : Environment) (v result : Value),
        (∀ b ∈ resolved.arguments, env b.1 = some b.2) →
          resolved.expression.value? services env = some v →
        v.isNull = false → compiled.expression.forced? services env = some result →
        ∃ xs items records : List Value, v.items? = some xs
          ∧ items.mapM (pre.original? services env)
              = some (Stage.applyAll services env resolved.argument? id stages xs)
          ∧ (items.mapM fun item => (numberedFields stages pre selection).toRecord.forced? services
              (env.bind pre.element item)) = some records
          ∧ result.items? = some records := by
  obtain ⟨hooks, arguments, pre, selection, hhooks, hprojects⟩ :=
    staged_of_compileField hstaged hmode hdirect hresolved h
  refine ⟨pre, selection, hprojects, fun services env v result henv hv hnull hresult => ?_⟩
  obtain ⟨element, m₂, m₃, hold, hm, hrun⟩ := hhooks.run
  obtain ⟨-, -, hthrough⟩ := @Stage.run_stages services _ _ _ _ _ _ _ _ hhooks.context hold hm
    .parameter hstaged.older hhooks.plain hrun
  obtain ⟨xs, items, records, hxs, hcarries, hrecords, hresult⟩ :=
    hprojects.items (hthrough (hhooks.binds henv)) hv hnull hresult
  rw [hhooks.values] at hcarries
  exact ⟨xs, items, records, hxs,
    mapM_eq_some_iff.2 (hcarries xs (List.forall₂_same.2 fun x _ => original?_parameter x)),
    hrecords, hresult⟩

end Compiler

/-! People of whom those of some age are kept, the oldest first, a page at a time. -/

namespace Roster

def element : Parameter := ⟨0, "element", .object "Person"⟩

def minimum : Parameter := ⟨1, "minimum", .int⟩

def age : Expr := .member (.parameter element) "age" .int

def ofAge :
    Stage := .filter ⟨"minAge", .int, none, false⟩ element minimum
      (.binary .ge age (.parameter minimum))

def byAge : Stage := .sort element age

def context : Parameter := ⟨2, "ctx", .object "Query"⟩

def person : Parameter := ⟨3, "person", .object "Person"⟩

def people (stages : List Stage) : FieldDeclaration where
  name := "people"
  attached := stages.map fun stage => .extension stage.extension
  resolve context _ := return .member (.parameter context) "people" (.list (.object "Person"))

theorem extensions_people (stages : List Stage) :
    (people stages).extensions = stages.map Stage.extension := by
  simp [FieldDeclaration.extensions, people, filterMap_map, Attachment.extension?,
    Function.comp_def]

/-- The field `people` with these arguments, of which the names are selected. -/
def names (stages : List Stage) (arguments : List (String × Value)) : Expanded :=
  .mk ⟨"people", (((people stages).build context).run 4).1,
    arguments.map fun a => (a.1, .literal a.2)⟩ .direct []
    fun _ => .selects
      [.mk ⟨"name", (((FieldDeclaration.member "name" .string).build person).run 5).1,
        []⟩ .direct []
      fun _ => .selects []]

def compiler : Compiler := ⟨⟨[], []⟩, {}⟩

def scope : Scope := ⟨.full, false, true, .root "people", [context], 1⟩

/-- The compilation of a field of the query. -/
def compiles (e : Expanded) : Compile Compiled :=
  compiler.compileField e.field (compiler.selectOf e) (.parameter context) scope

def everyone : Value :=
  .list ([("Bob", 12), ("Ada", 36), ("Eve", 41), ("Cid", 20)].map fun person =>
    .object [("name", .string person.1), ("age", .int person.2)])

/-- The people, and the arguments under the number that the compiler draws for them. -/
def environment (arguments : List (String × Value)) : Environment := fun p =>
  if p = context then some (.object [("people", everyone)])
  else if p.id = 6 then some (.object arguments) else none

/-- What the field of the query evaluates to. -/
def answer? (e : Expanded) (arguments : List (String × Value)) : Option Value :=
  (outcome (compiles e) { next := 6 }).1.toOption.bind fun compiled =>
    compiled.expression.forced? .empty (environment arguments)

theorem exists_of_answer? {e : Expanded} {arguments : List (String × Value)} {text : String}
    (h : (answer? e arguments).map Value.text = some text) :
    ∃ compiled m' result, Gives (compiles e) { next := 6 } compiled m'
      ∧ compiled.expression.forced? .empty (environment arguments) = some result
      ∧ result.text = text := by
  obtain ⟨result, hresult, htext⟩ := Option.map_eq_some_iff.1 h
  obtain ⟨compiled, hcompiled, hresult⟩ := Option.bind_eq_some_iff.1 hresult
  obtain ⟨m', hgives⟩ := exists_gives_iff.2 hcompiled
  exact ⟨compiled, m', result, hgives, hresult, htext⟩

theorem staged {stages : List Stage} {arguments : List (String × Value)}
    (happart : (people stages).NamesApart)
    (holder : ∀ stage ∈ stages, stage.OlderThan 6) : (names stages arguments).Staged stages 6 where
  built := ⟨people stages, context, 4, rfl, extensions_people stages, happart⟩
  list := rfl
  selects := ⟨_, rfl, cons_ne_nil _ _⟩
  older := holder

def stages : List Stage := [.position "seat", ofAge, byAge, .page none (some 10)]

def arguments : List (String × Value) :=
  [("minAge", .int 18), ("descending", .boolean true), ("skip", .int 1), ("take", .int 2)]

end Roster

open Roster in
/-- The oldest of the adults is on the page before this one, and the seats are those of the whole
roster. -/
theorem roster_in_order :
    (names stages arguments).Staged stages 6
      ∧ readBack? (names stages arguments).field (.parameter context) scope = none
      ∧ ∃ resolved m₁ compiled m' result,
        Gives (resolve (names stages arguments).field compiler.values
          (.parameter context) scope) { next := 6 } resolved m₁
        ∧ Gives (compiles (names stages arguments)) { next := 6 } compiled m'
        ∧ resolved.expression.value? .empty (environment arguments) = some everyone
        ∧ compiled.expression.forced? .empty (environment arguments) = some result
        ∧ result.text = "[\x7bname: \"Ada\", seat: 1\x7d, \x7bname: \"Cid\", seat: 3\x7d]"
        ∧ ∃ (pre : PreSelection) (xs items records : List Value), everyone.items? = some xs
          ∧ items.mapM (pre.original? .empty (environment arguments))
              = some (Stage.applyAll .empty (environment arguments) resolved.argument? id stages xs)
          ∧ (Stage.applyAll .empty (environment arguments) resolved.argument? id stages xs).map
            Value.text
              = ["\x7bname: \"Ada\", age: 36\x7d", "\x7bname: \"Cid\", age: 20\x7d"]
          ∧ result.items? = some records := by
  have hanswer : (answer? (names stages arguments) arguments).map Value.text
      = some "[\x7bname: \"Ada\", seat: 1\x7d, \x7bname: \"Cid\", seat: 3\x7d]" := by
    decide +kernel
  obtain ⟨compiled, m', result, hcompiled, hresult, htext⟩ := exists_of_answer? hanswer
  have hresolved : Gives
      (resolve (names stages arguments).field compiler.values (.parameter context) scope)
        { next := 6 }
      ⟨.member (.parameter context) "people" (.list (.object "Person")), false,
        bound (names stages arguments).field (some arguments) 6⟩ { next := 7 } := rfl
  have hbound : ∀ b ∈ bound (names stages arguments).field (some arguments) 6,
      environment arguments b.1 = some b.2 := by
    rintro b ⟨⟩
    rfl
  have hstaged : (names stages arguments).Staged stages 6 := staged (by decide +kernel) (by decide)
  obtain ⟨pre, selection, -, hvalues⟩ := Compiler.stages_in_order hstaged rfl rfl
    hresolved hcompiled
  obtain ⟨xs, items, records, hxs, hitems, -, hrecords⟩ :=
    hvalues .empty (environment arguments) everyone result hbound rfl rfl hresult
  obtain rfl := Option.some.inj hxs
  refine ⟨hstaged, rfl, _, _, compiled, m', result, hresolved, hcompiled, rfl, hresult, htext, pre,
    _, items, records, hxs, hitems, ?_, hrecords⟩
  simp only [stages, Stage.applyAll, foldl_cons, foldl_nil, ofAge, byAge, Stage.apply,
    ← Value.insertionSort_eq_ranked]
  decide +kernel

end QueryProjection
