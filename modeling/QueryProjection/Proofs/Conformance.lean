import QueryProjection.Proofs.Compile.Fields
import QueryProjection.Proofs.Execute.Outcome
import QueryProjection.Proofs.Expr.Free
import QueryProjection.Proofs.Extension
import QueryProjection.Proofs.Selected

/-!
# A response has exactly the fields that were asked for

The data pass adds members to every record: what services and extensions depend on, under the names
of the members or under keys made up for them.  None of that may be seen in the response.  The
reason is a matter of form.  Whatever the full pass compiles a field to is a record of the selected
fields, under their response keys, inside a projection; where the values come from does not matter
for the keys.

* `Fills R fields entries` says that entries have the response keys of a selection set and under
  each of them what `R` allows for the last field with that key;
* `Conforms` says of a value that it has exactly the fields that an expanded field selects, all the
  way down, and `Renders` says of an expression that it has the form for that;
* `Compiler.renders_of_compileExpanded` is about the full pass, `Renders.conforms` about evaluation;
* `Executor.response_fills_selection` is the result for a whole response.

## Why the form is the invariant

`Renders` leaves the source of a projection open.  So it is the same for a field that is resolved
from its template, for one that is read back from fetched data and for one that is moved from a
fragment, since these differ in the source only; and nothing has to be known of data, services or
the first pass.  Of extensions it is enough that they add no members to a record (`Windows`).  Null
conforms to every field, because a projection of null is null.
-/

namespace QueryProjection

open Extension List

/-! ## Selection sets and entries -/

section Fills

variable {α β : Type}

/-- The entries have the response keys of the fields, up to case, with the first spelling and in the
order of first appearance. -/
def HasKeys (fields : List Expanded) (entries : List (String × α)) : Prop :=
  entries.map Prod.fst = Merge.firstSpellings (fields.map fun field => field.field.responseKey)

/-- The field that an entry under this key stands for: the last one with the key. -/
def StandsFor (fields : List Expanded) (key : String) (field : Expanded) : Prop :=
  Merge.last? key (fields.map Expanded.entry) = some field

theorem StandsFor.mem {fields : List Expanded} {key : String} {field : Expanded}
    (h : StandsFor fields key field) : field ∈ fields := by
  obtain ⟨_, hentry, -⟩ := Merge.mem_of_last? h
  obtain ⟨_, hmem, heq⟩ := mem_map.1 hentry
  exact (Prod.mk.inj heq).2 ▸ hmem

/-- The entries have the response keys of the fields, and each is one that `R` allows for the field
it stands for. -/
structure Fills (R : Expanded → α → Prop) (fields : List Expanded)
    (entries : List (String × α)) : Prop where
  keys : HasKeys fields entries
  values : ∀ key a field, (key, a) ∈ entries → StandsFor fields key field → R field a

variable {R : Expanded → α → Prop} {fields : List Expanded} {entries : List (String × α)}

theorem HasKeys.nodup (h : HasKeys fields entries) : (entries.map Prod.fst).Nodup := by
  rw [h]
  exact Merge.nodup_firstSpellings _

theorem HasKeys.eq_nil (h : HasKeys fields entries) (hempty : entries = []) : fields = [] := by
  cases fields with
  | nil => rfl
  | cons f rest =>
    rw [HasKeys, hempty, map_cons, Merge.firstSpellings] at h
    cases h

/-- Merging what is made of each field, in order, fills the selection set. -/
theorem fills_merge (made : List (Expanded × α))
    (h : ∀ e ∈ made, R e.1 e.2) :
    Fills R (made.map Prod.fst)
      (Merge.merge (made.map fun e => (e.1.field.responseKey, e.2))) := by
  -- Fields and entries are two views of the same list of pairs by response key.
  let pairs := made.map fun e => (e.1.field.responseKey, e)
  have hfields : (made.map Prod.fst).map Expanded.entry = pairs.map (Prod.map id Prod.fst) := by
    simp [pairs, Expanded.entry]
  have hentries : (made.map fun e => (e.1.field.responseKey, e.2))
      = pairs.map (Prod.map id Prod.snd) := by
    simp [pairs]
  constructor
  · rw [HasKeys, Merge.keys_merge, map_map, map_map]
    rfl
  · intro key a field hmem hlast
    rw [hentries, Merge.mem_merge, Merge.last?_map] at hmem
    rw [StandsFor, hfields, Merge.last?_map] at hlast
    obtain ⟨e, he, rfl⟩ := Option.map_eq_some_iff.1 hmem.2
    rw [he, Option.map_some, Option.some.injEq] at hlast
    subst hlast
    obtain ⟨k, hk, -⟩ := Merge.mem_of_last? he
    obtain ⟨e', he', heq⟩ := mem_map.1 hk
    obtain rfl : e' = e := (Prod.mk.inj heq).2
    exact h e' he'

end Fills

/-! ## Values -/

variable {α β : Type} {entries : List (String × Expr)} {record : Expr} {fields : List Expanded}

theorem exists_map_of_forall {g : α → β} {Q : α → Prop} {ws : List β}
    (h : ∀ w ∈ ws, ∃ a, w = g a ∧ Q a) : ∃ as : List α, ws = as.map g ∧ ∀ a ∈ as, Q a := by
  induction ws with
  | nil => exact ⟨[], rfl, forall_mem_nil _⟩
  | cons w ws ih =>
    obtain ⟨a, rfl, ha⟩ := h w mem_cons_self
    obtain ⟨as, rfl, has⟩ := ih fun w hw => h w (mem_cons_of_mem _ hw)
    exact ⟨a :: as, rfl, forall_mem_cons.2 ⟨ha, has⟩⟩

/-- The value has exactly the fields that the expanded field selects.  A field that selects nothing
may have any value, and so may a plain one; null is allowed everywhere. -/
inductive Conforms : Expanded → Value → Prop
  | leaf {e : Expanded} {v : Value} (shape : e.field.definition.shape = .leaf) : Conforms e v
  | unselected {e : Expanded} {v : Value} (selection : e.selection = .selects []) : Conforms e v
  | null {e : Expanded} : Conforms e .null
  /-- An object is filled by the selected fields. -/
  | object {e : Expanded} {fields : List Expanded} {members : List (String × Value)}
      (shape : e.field.definition.shape = .object) (selection : e.selection = .selects fields)
      (keys : HasKeys fields members)
      (values : ∀ key v field, (key, v) ∈ members → StandsFor fields key field →
        Conforms field v) :
      Conforms e (.object members)
  /-- Each element of a list is. -/
  | list {e : Expanded} {fields : List Expanded} {items : List (List (String × Value))}
      (shape : e.field.definition.shape = .list) (selection : e.selection = .selects fields)
      (keys : ∀ members ∈ items, HasKeys fields members)
      (values : ∀ members ∈ items, ∀ key v field, (key, v) ∈ members →
        StandsFor fields key field → Conforms field v) :
      Conforms e (.list (items.map .object))
  /-- Each value of a map is. -/
  | map {e : Expanded} {fields : List Expanded} {items : List (String × List (String × Value))}
      (shape : e.field.definition.shape = .list) (selection : e.selection = .selects fields)
      (keys : ∀ item ∈ items, HasKeys fields item.2)
      (values : ∀ item ∈ items, ∀ key v field, (key, v) ∈ item.2 →
        StandsFor fields key field → Conforms field v) :
      Conforms e (.object (items.map fun item => (item.1, .object item.2)))

/-! ## Expressions -/

/-- A record of these entries, up to the types in its shape. -/
def RecordOf (entries : List (String × Expr)) (record : Expr) : Prop :=
  ∃ shape : Shape, shape.map Prod.fst = entries.map Prod.fst
    ∧ record = .record shape (entries.map Prod.snd)

/-- The expression is made for the selection of an expanded field: a record of what is made for the
selected fields, inside a projection. -/
inductive Renders : Expanded → Expr → Prop
  | leaf {e : Expanded} {x : Expr} (shape : e.field.definition.shape = .leaf) : Renders e x
  | unselected {e : Expanded} {x : Expr} (selection : e.selection = .selects []) : Renders e x
  | object {e : Expanded} {fields : List Expanded} {entries : List (String × Expr)}
      {source record : Expr} {element : Parameter} (shape : e.field.definition.shape = .object)
      (selection : e.selection = .selects fields) (keys : HasKeys fields entries)
      (values : ∀ key x field, (key, x) ∈ entries → StandsFor fields key field → Renders field x)
      (record_of : RecordOf entries record) : Renders e (.projectOne source element record)
  | list {e : Expanded} {fields : List Expanded} {entries : List (String × Expr)}
      {source record : Expr} {element : Parameter} (shape : e.field.definition.shape = .list)
      (selection : e.selection = .selects fields) (keys : HasKeys fields entries)
      (values : ∀ key x field, (key, x) ∈ entries → StandsFor fields key field → Renders field x)
      (record_of : RecordOf entries record) : Renders e (.projectEach source element record)
  | forced {e : Expanded} {x : Expr} (renders : Renders e x) : Renders e (.materialize x)

theorem RecordOf.replaceUnder (h : RecordOf entries record) (picks : Parameter → Bool)
    (target : Expr) (bound : List Parameter) :
    RecordOf (entries.map (Prod.map id (Expr.replaceUnder picks target bound)))
      (Expr.replaceUnder picks target bound record) := by
  obtain ⟨shape, names, rfl⟩ := h
  refine ⟨shape, by rw [names, map_map]; rfl, ?_⟩
  rw [Expr.replaceUnder, Expr.replaceUnderAll_eq_map, map_map, map_map]
  rfl

theorem HasKeys.map {entries : List (String × α)} (h : HasKeys fields entries) (f : α → β) :
    HasKeys fields (entries.map (Prod.map id f)) := by
  rw [HasKeys, ← h, map_map]
  rfl

namespace Renders

variable {e : Expanded} {x : Expr} {services : Provider} {env : Environment} {v : Value}

theorem replaceUnder (h : Renders e x) (picks : Parameter → Bool) (target : Expr)
    (bound : List Parameter) : Renders e (Expr.replaceUnder picks target bound x) := by
  induction h generalizing bound with
  | leaf shape => exact .leaf shape
  | unselected selection => exact .unselected selection
  | forced _ ih => exact .forced (ih bound)
  | object shape selection keys _ record_of ih =>
    refine .object shape selection (keys.map _) ?_ (record_of.replaceUnder picks target _)
    intro key y field hmem hstands
    obtain ⟨⟨k, x⟩, hx, heq⟩ := mem_map.1 hmem
    cases heq
    exact ih k x field hx hstands _
  | list shape selection keys _ record_of ih =>
    refine .list shape selection (keys.map _) ?_ (record_of.replaceUnder picks target _)
    intro key y field hmem hstands
    obtain ⟨⟨k, x⟩, hx, heq⟩ := mem_map.1 hmem
    cases heq
    exact ih k x field hx hstands _

theorem rebase {y : Expr} (h : Renders e x) {policy : TypeMatching} {old : Parameter} {new : Expr}
    {scope : List Parameter} {path : FieldPath}
    (hy : (x.rebase policy old new scope path).result = .ok y) : Renders e y := by
  have hmoved : Renders e (x.replace (.identity old) new) := h.replaceUnder _ _ _
  unfold Expr.rebase at hy
  dsimp only at hy
  split at hy
  · cases hy
    exact hmoved
  · cases policy <;> cases hy <;> exact hmoved.replaceUnder _ _ _

theorem forced_entries (keys : HasKeys fields entries) (record_of : RecordOf entries record)
    (hv : record.forced? services env = some v) :
    ∃ members, v = .object members
      ∧ mapEntries (Expr.forced? services env) entries = some members := by
  obtain ⟨shape, names, rfl⟩ := record_of
  rw [Expr.forced?_record names keys.nodup] at hv
  obtain ⟨members, hmembers, rfl⟩ := Option.map_eq_some_iff.1 hv
  exact ⟨members, rfl, hmembers⟩

/-- **Evaluation gives what was asked for.**  If an expression is made for a field, its value has
exactly the fields that the field selects. -/
theorem conforms (h : Renders e x) (hv : x.forced? services env = some v) : Conforms e v := by
  induction h generalizing env v with
  | leaf shape => exact .leaf shape
  | unselected selection => exact .unselected selection
  | forced _ ih => exact ih (Expr.forced?_materialize _ ▸ hv)
  | @object e fields entries source record element shape selection keys _ record_of ih =>
    rw [Expr.forced?_projectOne] at hv
    obtain ⟨u, -, hv⟩ := Option.bind_eq_some_iff.1 hv
    split at hv
    · cases hv
      exact .null
    · obtain ⟨members, rfl, hmembers⟩ := forced_entries keys record_of hv
      refine .object shape selection ((keys_of_mapEntries hmembers).trans keys) ?_
      intro key w field hmem hstands
      obtain ⟨y, hy, hyw⟩ := mem_of_mapEntries hmembers hmem
      exact ih key y field hy hstands hyw
  | @list e fields entries source record element shape selection keys _ record_of ih =>
    rw [Expr.forced?_projectEach] at hv
    obtain ⟨u, -, hv⟩ := Option.bind_eq_some_iff.1 hv
    have helement : ∀ item w, record.forced? services (env.bind element item) = some w →
        ∃ members, w = .object members ∧ Fills Conforms fields members := by
      intro item w hw
      obtain ⟨members, rfl, hmembers⟩ := forced_entries keys record_of hw
      refine ⟨members, rfl, (keys_of_mapEntries hmembers).trans keys, ?_⟩
      intro key z field hmem hstands
      obtain ⟨y, hy, hyz⟩ := mem_of_mapEntries hmembers hmem
      exact ih key y field hy hstands hyz
    rcases Value.project_cases hv with ⟨-, rfl⟩ | ⟨ms, results, -, hresults, rfl⟩
      | ⟨items, results, -, hresults, rfl⟩
    · exact .null
    · have hall : ∀ r ∈ results, ∃ item : String × List (String × Value),
          r = (item.1, .object item.2) ∧ Fills Conforms fields item.2 := by
        rintro ⟨key, w⟩ hw
        obtain ⟨item, -, hitem⟩ := mem_of_mapEntries hresults hw
        obtain ⟨members, rfl, hfills⟩ := helement item w hitem
        exact ⟨(key, members), rfl, hfills⟩
      obtain ⟨items, rfl, hitems⟩ := exists_map_of_forall hall
      exact .map shape selection (fun item h => (hitems item h).keys)
        fun item h => (hitems item h).values
    · have hall :
          ∀ r ∈ results, ∃ members, r = .object members ∧ Fills Conforms fields members := by
        intro w hw
        obtain ⟨item, -, hitem⟩ := mem_of_mapM hresults hw
        exact helement item w hitem
      obtain ⟨items, rfl, hitems⟩ := exists_map_of_forall hall
      exact .list shape selection (fun members h => (hitems members h).keys)
        fun members h => (hitems members h).values

end Renders

/-! ## The full pass -/

namespace Compiler

variable {compiler : Compiler} {context : Expr} {scope : Scope} {m m' : Memory}

theorem fills_of_compileSelection {R : Expanded → Expr → Prop} (hmode : scope.mode = .full)
    {selection : CompiledSelection} (hR : ∀ f ∈ fields, ∀ {scope' m compiled m'},
      Gives (compiler.compileExpanded context scope' f) m compiled m' → scope'.mode = .full →
        R f compiled.expression)
    (h : Gives (compiler.compileSelection context scope (.selects fields)) m selection m') :
    Fills R fields selection.fields.fields := by
  obtain ⟨made, -, rfl, -, -, hfields, hmade⟩ :=
    compileSelection_full (I := fun _ => True) hmode (fun _ _ _ _ _ _ _ => trivial) trivial h
  rw [hfields]
  have hfills := fills_merge (R := R) (made.map fun e => (e.1, e.2.expression)) ?_
  · simpa [map_map, Function.comp_def] using hfills
  · intro e he
    obtain ⟨e', he', rfl⟩ := mem_map.1 he
    obtain ⟨m, m', -, hc⟩ := hmade e' he'
    exact hR e'.1 (mem_map_of_mem he') hc hmode

theorem recordOf_toRecord (fields : SelectionMap) : RecordOf fields.fields fields.toRecord :=
  ⟨_, by simp, rfl⟩

variable {e : Expanded}

theorem renders_of_compileResolved {resolved : Resolved} {compiled : Compiled}
    (hmode : scope.mode = .full) (hwindows : e.field.definition.Hooks Windows)
    (hbelow : ∀ fields, e.selection = .selects fields → ∀ f ∈ fields,
      ∀ {context scope m compiled m'},
        Gives (compiler.compileExpanded context scope f) m compiled m' → scope.mode = .full →
          Renders f compiled.expression)
    (h : Gives (compileResolved e.field (compiler.selectOf e) resolved scope) m compiled m') :
    Renders e compiled.expression := by
  have hmode' : (withArguments scope resolved.arguments).2.mode = .full := by
    unfold withArguments
    split <;> exact hmode
  -- The selection below is compiled in some context, in the same mode.
  have hselect : ∀ {context} {scope : Scope} {m selection m'},
      Gives (compiler.selectOf e context scope) m selection m' → scope.mode = .full →
      ∃ fields, e.selection = .selects fields ∧ Fills Renders fields selection.fields.fields := by
    intro context scope m selection m' hs hmode
    obtain ⟨fields, -, -, hsel, -, -⟩ := compileSelection_gives.1 hs
    rw [selectOf, hsel] at hs
    exact ⟨fields, hsel, fills_of_compileSelection hmode (fun f hf => hbelow fields hsel f hf) hs⟩
  rw [compileResolved_eq] at h
  split at h
  · rename_i hshape
    exact .leaf hshape
  · rename_i hshape
    obtain ⟨-, element, selection, -, hs, rfl⟩ := compileObject_gives.1 h
    obtain ⟨fields, hsel, hfills⟩ := hselect hs hmode'
    dsimp only [projectObject]
    split
    · rename_i hempty
      exact .unselected (hsel.trans (by rw [hfills.keys.eq_nil (isEmpty_iff.1 hempty)]))
    · exact .object hshape hsel hfills.keys hfills.values (recordOf_toRecord _)
  · rename_i hshape
    obtain ⟨ty, element, pre, m₁, selection, m₂, fields', -, -, -, hs, hf, hrest⟩ :=
      compileList_gives.1 h
    obtain ⟨fields, hsel, hfills⟩ := hselect hs hmode'
    obtain rfl : selection.fields = fields' := by
      simpa [elementFields, hmode', pure, Except.pure] using hf
    split at hrest
    · rename_i hempty
      exact .unselected (hsel.trans (by rw [hfills.keys.eq_nil (isEmpty_iff.1 hempty)]))
    · obtain ⟨post, hpost, rfl⟩ := hrest
      obtain ⟨rfl, -⟩ := (runPostSelection_gives fun x hx =>
        hwindows hshape x (mem_reverse.1 hx)).1 hpost
      have hprojected : Renders e
          (.projectEach pre.collection pre.element selection.fields.toRecord) :=
        .list hshape hsel hfills.keys hfills.values (recordOf_toRecord _)
      dsimp only [projectList]
      split
      · exact .forced hprojected
      · exact hprojected

/-- **The full pass makes for a field an expression of exactly what it selects.** -/
theorem renders_of_compileExpanded
    (hwindows : e.Every fun field _ => field.definition.Hooks Windows) :
    ∀ {context scope m compiled m'},
      Gives (compiler.compileExpanded context scope e) m compiled m' → scope.mode = .full →
        Renders e compiled.expression := by
  induction e using Expanded.induct with
  | field e ih =>
    intro context scope m compiled m' h hmode
    obtain ⟨_, hown⟩ := hwindows.holds
    have hfield : ∀ {context} {scope : Scope} {m compiled m'},
        Gives (compiler.compileField e.field (compiler.selectOf e) context scope) m compiled m' →
          scope.mode = .full → Renders e compiled.expression := by
      intro context scope m compiled m' h hmode
      obtain ⟨-, resolved, m₁, -, h⟩ := compileField_gives.1 h
      exact renders_of_compileResolved hmode hown
        (fun fields hsel f hf => ih fields hsel f hf (hwindows.of_selects hsel hf)) h
    rw [compileExpanded_eq] at h
    obtain ⟨-, h⟩ | ⟨_, _, own, compiled', m₁, run, -, -, -, hc, rfl, hrun, -, -⟩ :=
      compileFrom_gives.1 h
    · exact hfield h hmode
    · exact (hfield hc hmode).rebase hrun

end Compiler

/-! ## Responses -/

namespace Executor

variable {executor : Executor} {compiler : Compiler} {data : Value}

theorem conforms_of_executeRoot {root : RootField}
    (hwindows : root.field.Every fun field _ => field.definition.Hooks Windows)
    {v : Value} {m m' : Memory}
    (h : Gives (executor.executeRoot compiler root data) m v m') : Conforms root.field v := by
  obtain ⟨fetch, m₁, -, ⟨fetched, rfl, -, h⟩ | ⟨-, h⟩⟩ := exists_executeRoot_iff.1 ⟨m', h⟩
  · obtain ⟨_, compiled, m₂, -, hc, hv⟩ := exists_runFetched_iff.1 h
    obtain ⟨_, hown⟩ := hwindows.holds
    have hrenders : Renders root.field compiled.expression :=
      Compiler.renders_of_compileResolved rfl hown
        (fun fields hsel f hf => Compiler.renders_of_compileExpanded (hwindows.of_selects hsel hf))
        hc
    exact hrenders.conforms hv
  · obtain ⟨compiled, m₂, hc, hv⟩ := exists_runDirect_iff.1 h
    exact (Compiler.renders_of_compileExpanded hwindows hc rfl).conforms hv

theorem forall₂_executeRoots (executor : Executor) (compiler : Compiler) (data : Value)
    {roots : List RootField}
    (hwindows : ∀ root ∈ roots,
      root.field.Every fun field _ => field.definition.Hooks Windows)
    (memory : Memory) :
    Forall₂ (fun root entry => entry.1 = root.responseKey ∧ Conforms root.field entry.2) roots
      (executor.executeRoots compiler data roots memory).1.data := by
  induction roots generalizing memory with
  | nil => exact .nil
  | cons root rest ih =>
    rcases h : outcome (executor.executeRoot compiler root data) memory with ⟨result, memory'⟩
    rw [executeRoots_cons rest h]
    have hrest := ih (fun r hr => hwindows r (mem_cons_of_mem _ hr)) memory'
    cases result with
    | ok v => exact .cons ⟨rfl, conforms_of_executeRoot (hwindows root mem_cons_self) h⟩ hrest
    | error e => exact .cons ⟨rfl, .null⟩ hrest

/-- **A response has exactly the fields that were asked for**, down to the last object in it: each
response key once, up to case, with the first spelling and in the order of first appearance, and
under it a value for the last field with that key.  A field that fails is null. -/
theorem response_fills_selection (executor : Executor) (document : Document)
    (supplied : Variables) (data : Value) (fields : List Expanded)
    (hfields : (Expansion.ofDocument document supplied).expandAll [] document.selections
      = .ok fields)
    (hwindows : document.Every fun field _ => field.definition.Hooks Windows) :
    Fills Conforms fields (executor.execute document supplied data).1.data := by
  obtain ⟨roots, hroots, hmerge⟩ := Compiler.rootFields_of_expandAll hfields
  rw [execute_eq_executeRoots hroots]
  have hall := forall₂_executeRoots executor
    ⟨⟨document.declarations, supplied⟩, executor.settings⟩ data
    (fun root hroot =>
      Expansion.every_of_expandAll hwindows hfields _ (Compiler.mem_of_merge hmerge hroot))
    { next := executor.schema.next }
  constructor
  · exact (map_eq_map_of_forall₂ hall fun _ _ h => h.1).trans (Compiler.keys_of_merge hmerge)
  · intro key v field hmem hstands
    obtain ⟨root, hroot, rfl, hconforms⟩ := exists_mem_of_forall₂ hall hmem
    have hlast := (Compiler.last?_of_merge hmerge hroot).symm.trans hstands
    rw [Option.some.injEq] at hlast
    exact hlast ▸ hconforms

/-! Friends of a person, sorted by a member that is not selected, and greeted by a service that
reads another one. -/

namespace Friends

def context : Parameter := ⟨0, "ctx", .object "Query"⟩

def person : Parameter := ⟨1, "person", .object "Person"⟩

def noArguments : Parameter := ⟨2, "args", .record []⟩

def direction : Parameter := ⟨3, "args_friends", .record [("descending", .boolean)]⟩

def byAge : Extension :=
  .sort fun element => return .member element "age" .int

/-- A field that reads the member of this name. -/
def plain (name : String) (ty : Ty) : FieldDefinition :=
  ⟨name, none, person, .member (.parameter person) name ty, noArguments, [], [], []⟩

def friends : FieldDefinition :=
  ⟨"friends", none, context, .member (.parameter context) "friends" (.list (.object "Person")),
    direction, byAge.arguments.map fun argument => (argument.name, argument), [], [byAge]⟩

def greeting : FieldDefinition :=
  ⟨"greeting", none, person,
    .serviceCall "Greeter" "greet" [.member (.parameter person) "nick" .string] .string,
    noArguments, [], ["Greeter"], []⟩

def greeter : Executor where
  schema := ⟨"Query", context, [], 4⟩
  services := Services.provider ⟨[("Greeter::greet", fun arguments => pure (.list arguments))]⟩

/-- A query for `friends { greeting who: id WHO: name }`. -/
def document : Document where
  selections :=
    [.field ⟨"friends", friends, []⟩ []
      [.field ⟨"greeting", greeting, []⟩ [] [],
       .field ⟨"who", plain "id" .id, []⟩ [] [],
       .field ⟨"WHO", plain "name" .string, []⟩ [] []]]

def friend (name nick : String) (age : Int64) : Value :=
  .object [("name", .string name), ("nick", .string nick), ("age", .int age)]

def everyone : Value :=
  .object [("friends", .list [friend "Ada" "A" 36, friend "Bob" "B" 27])]

end Friends

open Friends in
theorem friends_fill_selection :
    ∃ fields, (Expansion.ofDocument document []).expandAll [] document.selections = .ok fields
      ∧ (document.Every fun field _ => field.definition.Hooks Windows)
      ∧ Fills Conforms fields (greeter.execute document [] everyone).1.data
      ∧ (greeter.execute document [] everyone).1.data.map (fun entry => entry.2.text)
          = ["[\x7bgreeting: [\"B\"], who: \"Bob\"\x7d, \x7bgreeting: [\"A\"], who: \"Ada\"\x7d]"]
    := by
  have hwindows : document.Every fun field _ => field.definition.Hooks Windows := by
    refine ⟨?_, fun f hf => nomatch hf⟩
    have hnone : ∀ definition : FieldDefinition, definition.extensions = [] →
        definition.Hooks Windows :=
      fun definition h _ x hx => absurd (h ▸ hx) not_mem_nil
    refine ⟨⟨fun _ x hx => ?_, ⟨hnone _ rfl, trivial⟩, ⟨hnone _ rfl, trivial⟩,
      ⟨hnone _ rfl, trivial⟩, trivial⟩, trivial⟩
    exact mem_singleton.1 hx ▸ .sort _
  exact ⟨_, rfl, hwindows,
    response_fills_selection greeter document [] everyone _ rfl hwindows, by decide +kernel⟩

end Executor
end QueryProjection
