import QueryProjection.Proofs.Compile.Comparison
import QueryProjection.Proofs.Compile.Supply

/-!
# Fields of an operation do not affect each other

All fields of an operation are compiled with one memory, which survives both passes and earlier
failures.  What keeps the fields apart is that everything about the memory that matters is kept by
path: compiling a field at a path reads and writes the keys of fetched members at that path and
below it, and nowhere else.

* `Local R path x` says so of a computation: from memories that `R` relates it ends the same way,
  and outside the path it leaves the memory as it was;
* `Compiler.local_compileRoot` is one pass over a field, `Executor.local_executeRoot` the whole of
  both passes;
* `Executor.executeRoots_eq_alone`: executing fields one after the other gives for each of them what
  the field gives alone.

A pass depends on the next number too (`Memory.SameFrom`), but executing a field does not
(`Memory.SameBelow`), because each pass starts to number anew.  That is why `Local` has a relation
for a parameter.  Both halves of it are needed: the frame of the fields before makes the memory of a
field as good as an empty one, and the field then ends as it does from that.

A hook may look at the journal, so it has to be assumed that its result does not depend on the
events in it (`Hook.Pure`).
-/

namespace QueryProjection

open Compiler

/-! ## Paths -/

variable {key : String} {other : FieldPath}

theorem FieldPath.below_root_iff :
    (FieldPath.root key).Below other ↔ ∃ rest, other.keys = key :: rest :=
  exists_congr fun _ => eq_comm

theorem FieldPath.not_below_root {key' : String} (h : key ≠ key')
    (hb : (FieldPath.root key).Below other) : ¬ (FieldPath.root key').Below other := by
  rw [FieldPath.below_root_iff] at hb ⊢
  obtain ⟨rest, hk⟩ := hb
  rintro ⟨rest', hk'⟩
  rw [hk] at hk'
  exact h (List.cons.inj hk').1

/-! ## Computations that stay below a path -/

section Local

variable {ε α β : Type} {R : Memory → Memory → Prop} {path : FieldPath}

/-- From memories that `R` relates the computation ends the same way and leaves memories that `R`
relates, and it changes no keys of fetched members outside the path. -/
structure Local (R : Memory → Memory → Prop) (path : FieldPath)
    (x : ExceptT ε (StateM Memory) α) : Prop where
  same : ∀ m n, R m n →
    (outcome x m).1 = (outcome x n).1 ∧ R (outcome x m).2 (outcome x n).2
  frame : ∀ m other, ¬ path.Below other →
    (outcome x m).2.fetched.get other = m.fetched.get other

theorem local_pure (a : α) : Local R path (pure a : ExceptT ε (StateM Memory) α) :=
  ⟨fun _ _ h => ⟨rfl, h⟩, fun _ _ _ => rfl⟩

theorem local_throw (e : ε) : Local R path (throw e : ExceptT ε (StateM Memory) α) :=
  ⟨fun _ _ h => ⟨rfl, h⟩, fun _ _ _ => rfl⟩

/-- A sequence stays below a path if both parts do; the second part needs to only for what the first
part can give. -/
theorem local_bind {x : ExceptT ε (StateM Memory) α} {f : α → ExceptT ε (StateM Memory) β}
    (hx : Local R path x) (hf : ∀ m a m', Gives x m a m' → Local R path (f a)) :
    Local R path (x >>= f) := by
  constructor
  · intro m n hmn
    obtain ⟨hres, hmem⟩ := hx.same m n hmn
    simp only [outcome_bind]
    rcases hm : outcome x m with ⟨r, m'⟩
    rcases hn : outcome x n with ⟨r', n'⟩
    rw [hm, hn] at hres hmem
    obtain rfl : r = r' := hres
    cases r with
    | error e => exact ⟨rfl, hmem⟩
    | ok a => exact (hf m a m' hm).same m' n' hmem
  · intro m other hother
    have hframe := hx.frame m other hother
    rw [outcome_bind]
    rcases hm : outcome x m with ⟨r, m'⟩
    rw [hm] at hframe
    cases r with
    | error e => exact hframe
    | ok a => exact ((hf m a m' hm).frame m' other hother).trans hframe

end Local

/-- Two memories have the same keys of fetched members at a path and below it. -/
def Memory.SameBelow (path : FieldPath) (m n : Memory) : Prop :=
  ∀ other, path.Below other → m.fetched.get other = n.fetched.get other

/-- The same, and both memories would number the next parameter alike. -/
structure Memory.SameFrom (path : FieldPath) (m n : Memory) : Prop where
  next : m.next = n.next
  below : Memory.SameBelow path m n

/-- The result of the hook and the numbers it uses do not depend on the events so far. -/
def Hook.Pure {α : Type} (hook : Hook α) : Prop :=
  ∀ j k : Journal, j.next = k.next →
    (outcome hook j).1 = (outcome hook k).1 ∧ (outcome hook j).2.next = (outcome hook k).2.next

/-- Both hooks of the extension are pure. -/
structure Extension.Pure (extension : Extension) : Prop where
  preSelection : ∀ context input, (extension.preSelection context input).Pure
  postSelection : ∀ context input, (extension.postSelection context input).Pure

namespace Compile

variable {α : Type} {path : FieldPath}

/-- A compilation that stays below a path. -/
abbrev LocalAt (path : FieldPath) (x : Compile α) : Prop :=
  Local (Memory.SameFrom path) path x

theorem local_ofFresh (x : Fresh α) : LocalAt path (ofFresh x) := by
  constructor
  · intro m n h
    rw [outcome_ofFresh, outcome_ofFresh, h.next]
    exact ⟨rfl, rfl, h.below⟩
  · exact fun _ _ _ => rfl

theorem local_ofRun (run : Run CompileError α) : LocalAt path (ofRun run) := by
  constructor
  · intro m n h
    rw [outcome_ofRun, outcome_ofRun]
    exact ⟨rfl, h.next, h.below⟩
  · intro m other _
    rw [outcome_ofRun]

theorem local_ofHook (at' : FieldPath) (extension : String) {hook : Hook α} (h : hook.Pure) :
    LocalAt path (ofHook at' extension hook) := by
  constructor
  · intro m n hmn
    rw [outcome_ofHook, outcome_ofHook]
    obtain ⟨hres, hnext⟩ := h m.toJournal n.toJournal hmn.next
    exact ⟨by rw [hres], hnext, hmn.below⟩
  · intro m other _
    rw [outcome_ofHook]

variable {at' : FieldPath}

theorem local_rememberFetched (hat : path.Below at') (name key : String) :
    LocalAt path (rememberFetched at' name key) := by
  constructor
  · intro m n h
    rw [outcome_rememberFetched, outcome_rememberFetched]
    refine ⟨rfl, h.next, fun other hother => ?_⟩
    simp only [FetchedKeys.get_insert, h.below other hother]
  · intro m other hother
    rw [outcome_rememberFetched]
    have hne : at' ≠ other := fun heq => hother (heq ▸ hat)
    simp [FetchedKeys.get_insert, hne]

theorem local_getFetched (hat : path.Below at') {f : List (String × String) → Compile α}
    (hf : ∀ keys, LocalAt path (f keys)) : LocalAt path (do f ((← get).fetched.get at')) := by
  constructor
  · intro m n h
    simp only [outcome_bind, outcome_get, h.below at' hat]
    exact (hf _).same m n h
  · intro m other hother
    simp only [outcome_bind, outcome_get]
    exact (hf _).frame m other hother

end Compile

open Compile

/-! ## Compiling a field -/

/-- That a compilation stays below the path. -/
def Compile.staying (path : FieldPath) : Comparison where
  Rel x _ := LocalAt path x
  At := path.Below
  at_child key h := h.child key
  rel_pure := local_pure
  rel_bind := local_bind
  rel_throw _ _ := local_throw _
  rel_ofFresh := local_ofFresh
  rel_getFetched h hf := local_getFetched h hf
  rel_rememberFetched name key h := local_rememberFetched h name key

theorem Compiler.local_compileRoot (compiler : Compiler) (schema : Schema) {root : RootField}
    (hpure : root.field.Every fun field _ => ∀ x ∈ field.definition.extensions, x.Pure)
    (mode : Mode) (source : RootSource) :
    LocalAt (.root root.responseKey) (compiler.compileRoot schema root mode source) := by
  refine Comparison.rel_compileRoot (R := staying (.root root.responseKey)) (k := compiler)
    (A := fun e _ scope => (FieldPath.root root.responseKey).Below scope.path
      ∧ e.Every fun field _ => ∀ x ∈ field.definition.extensions, x.Pure) rfl ?_ schema
    (fun _ _ hscope _ _ => ⟨hscope ▸ .refl _, hpure⟩) mode source
  rintro e context scope ⟨hpath, he⟩
  obtain ⟨_, hown⟩ := he.holds
  refine ⟨hpath, fun _ x hx => ?_, rfl, fun _ _ _ => local_ofRun _, fun _ => local_throw _, ?_⟩
  · exact ⟨fun _ _ _ => local_ofHook _ _ ((hown x hx).preSelection _ _),
      fun _ _ _ => local_ofHook _ _ ((hown x hx).postSelection _ _)⟩
  · exact fun hs f hf _ _ h => ⟨(h.path ▸ hpath).child _, he.of_selects hs hf⟩

/-! ## Executing -/

namespace Executor

/-- An execution that stays below a path.  Each pass starts to number its parameters anew, so the
numbers used before do not matter. -/
abbrev LocalAt {α : Type} (path : FieldPath) (x : Execute α) : Prop :=
  Local (Memory.SameBelow path) path x

variable {α : Type} {path : FieldPath}

theorem local_compiling (next : Nat) {x : Compile α} (hx : Compile.LocalAt path x) :
    LocalAt path (compiling next x) := by
  constructor
  · intro m n h
    rw [outcome_compiling, outcome_compiling]
    obtain ⟨hres, hmem⟩ := hx.same { m with next } { n with next } ⟨rfl, h⟩
    exact ⟨by rw [hres], hmem.below⟩
  · intro m other hother
    rw [outcome_compiling]
    exact hx.frame _ other hother

theorem local_evaluate (executor : Executor) (at' : FieldPath) (env : Environment) (e : Expr) :
    LocalAt path (executor.evaluate at' env e) := by
  constructor
  · intro m n h
    rw [outcome_evaluate, outcome_evaluate]
    exact ⟨rfl, h⟩
  · intro m other _
    rw [outcome_evaluate]

variable {executor : Executor} {compiler : Compiler} {root : RootField} {data : Value}

section Root

variable (hpure : root.field.Every fun field _ => ∀ x ∈ field.definition.extensions, x.Pure)

include hpure

theorem local_runDirect :
    LocalAt (.root root.responseKey) (executor.runDirect compiler root data) := by
  refine local_bind (local_compiling _ (local_compileRoot compiler _ hpure _ _))
    fun _ compiled _ _ => ?_
  cases compiled with
  | none => exact local_pure _
  | some compiled => exact local_evaluate executor _ _ _

theorem local_runFetched (fetch : Compiled) :
    LocalAt (.root root.responseKey) (executor.runFetched compiler root fetch data) := by
  refine local_bind (local_evaluate executor _ _ _) fun _ fetched _ _ =>
    local_bind (local_compiling _ (local_compileRoot compiler _ hpure _ _))
      fun _ compiled _ _ => ?_
  cases compiled with
  | none => exact local_pure _
  | some compiled => exact local_evaluate executor _ _ _

theorem local_executeRoot :
    LocalAt (.root root.responseKey) (executor.executeRoot compiler root data) := by
  refine local_bind (local_compiling _ (local_compileRoot compiler _ hpure _ _))
    fun _ fetch _ _ => ?_
  cases fetch with
  | none => exact local_runDirect hpure
  | some fetch =>
    dsimp only
    split
    · exact local_runFetched hpure fetch
    · exact local_runDirect hpure

end Root

/-- What a field of the operation gives when nothing was compiled before it. -/
def alone (executor : Executor) (compiler : Compiler) (data : Value) (root : RootField) :
    Except FieldError Value :=
  (outcome (executor.executeRoot compiler root data) { next := executor.schema.next }).1

/-- The entry of a field of the operation in the response; null if the field fails. -/
def entryAlone (executor : Executor) (compiler : Compiler) (data : Value) (root : RootField) :
    String × Value :=
  (root.responseKey, (executor.alone compiler data root).toOption.getD .null)

/-- The error of a field of the operation, if it fails. -/
def errorAlone (executor : Executor) (compiler : Compiler) (data : Value) (root : RootField) :
    Option FieldError :=
  match executor.alone compiler data root with
  | .ok _ => none
  | .error e => some e

/-- Executing fields of different keys from a memory that holds nothing about any of them gives for
each what the field gives alone. -/
theorem executeRoots_eq_alone {roots : List RootField}
    (hpure : ∀ root ∈ roots,
      root.field.Every fun field _ => ∀ x ∈ field.definition.extensions, x.Pure)
    (hkeys : (roots.map RootField.responseKey).Nodup) {memory : Memory}
    (hfresh : ∀ root ∈ roots,
      memory.SameBelow (.root root.responseKey) { next := executor.schema.next }) :
    (executor.executeRoots compiler data roots memory).1
      = { data := roots.map (executor.entryAlone compiler data)
          errors := roots.filterMap (executor.errorAlone compiler data) } := by
  induction roots generalizing memory with
  | nil => rfl
  | cons root rest ih =>
    have hlocal : LocalAt (.root root.responseKey) (executor.executeRoot compiler root data) :=
      local_executeRoot (hpure root List.mem_cons_self)
    obtain ⟨hroot, hkeys⟩ := List.nodup_cons.1 hkeys
    rcases h : outcome (executor.executeRoot compiler root data) memory with ⟨result, memory'⟩
    -- The field itself sees what a fresh memory holds ...
    have halone : executor.alone compiler data root = result := by
      have hsame := (hlocal.same _ _ (hfresh root List.mem_cons_self)).1
      rw [h] at hsame
      exact hsame.symm
    -- ... and leaves everything about the other fields alone.
    have hleft : ∀ r ∈ rest,
        memory'.SameBelow (.root r.responseKey) { next := executor.schema.next } := by
      intro r hr other hother
      have hne : r.responseKey ≠ root.responseKey := fun heq =>
        hroot (heq ▸ List.mem_map_of_mem hr)
      have hframe := hlocal.frame memory other (FieldPath.not_below_root hne hother)
      rw [h] at hframe
      exact hframe.trans (hfresh r (List.mem_cons_of_mem _ hr) other hother)
    rw [executeRoots_cons rest h, ih (fun r hr => hpure r (List.mem_cons_of_mem _ hr)) hkeys hleft]
    cases result with
    | ok value => simp [entryAlone, errorAlone, halone, Except.toOption]
    | error e => simp [entryAlone, errorAlone, halone, Except.toOption]

/-- **Fields of an operation are isolated.**  The response has one entry for each response key, up
to case, which stands for the last field with that key.  It holds what that field gives when nothing
was compiled before it, or null if that fails.  The errors are those of the fields that fail alone,
in order. -/
theorem execute_isolates_fields (executor : Executor) (document : Document) (supplied : Variables)
    (data : Value) (roots : List RootField)
    (hroots : rootFields (.ofDocument document supplied) document = .ok roots)
    (hpure : document.Every fun field _ => ∀ x ∈ field.definition.extensions, x.Pure) :
    let compiler : Compiler := ⟨⟨document.declarations, supplied⟩, executor.settings⟩
    let response := (executor.execute document supplied data).1
    ∃ fields, (Expansion.ofDocument document supplied).expandAll [] document.selections = .ok fields
      ∧ response.data.map Prod.fst
          = Merge.firstSpellings (fields.map fun field => field.field.responseKey)
      ∧ (∀ root ∈ roots,
          Merge.last? root.responseKey (fields.map Expanded.entry) = some root.field)
      ∧ response.data = roots.map (executor.entryAlone compiler data)
      ∧ response.errors = roots.filterMap (executor.errorAlone compiler data) := by
  intro compiler response
  obtain ⟨fields, hfields, hmerge⟩ := rootFields_eq_ok hroots
  have hkeys := keys_of_merge hmerge
  have heq : response = { data := roots.map (executor.entryAlone compiler data)
                          errors := roots.filterMap (executor.errorAlone compiler data) } := by
    refine (execute_eq_executeRoots hroots).trans (executeRoots_eq_alone ?_ ?_ ?_)
    · intro root hroot
      exact Expansion.every_of_expandAll hpure hfields _ (mem_of_merge hmerge hroot)
    · rw [hkeys]
      exact Merge.nodup_firstSpellings _
    · exact fun _ _ _ _ => rfl
  refine ⟨fields, hfields, ?_, fun root => last?_of_merge hmerge, by rw [heq], by rw [heq]⟩
  rw [heq, ← hkeys, List.map_map]
  rfl

/-! A person who is greeted by a service, under two keys; under the first one a later field that
lacks an argument takes its place. -/

namespace Greeting

def context : Parameter := ⟨0, "ctx", .object "Query"⟩

def person : Parameter := ⟨1, "person", .object "Person"⟩

def noArguments : Parameter := ⟨2, "args", .record []⟩

def me : FieldDefinition :=
  ⟨"me", none, context, .member (.parameter context) "me" (.object "Person"), noArguments, [], [],
    []⟩

def lookup : FieldDefinition :=
  ⟨"lookup", none, context, .member (.parameter context) "me" .string, noArguments,
    [("id", ⟨"id", .id, none, true⟩)], [], []⟩

def greeting : FieldDefinition :=
  ⟨"greeting", none, person,
    .serviceCall "Greeter" "greet" [.member (.parameter person) "name" .string] .string,
    noArguments, [], ["Greeter"], []⟩

def greeter : Executor where
  schema := ⟨"Query", context, [], 3⟩
  services := Services.provider ⟨[("Greeter::greet", fun arguments => pure (.list arguments))]⟩

/-- A query for `a: me { greeting } b: me { greeting } A: lookup`. -/
def document : Document where
  selections :=
    [.field ⟨"a", me, []⟩ [] [.field ⟨"greeting", greeting, []⟩ [] []],
     .field ⟨"b", me, []⟩ [] [.field ⟨"greeting", greeting, []⟩ [] []],
     .field ⟨"A", lookup, []⟩ [] []]

def ada : Value := .object [("me", .object [("name", .string "Ada")])]

end Greeting

open Greeting in
theorem execute_isolates_greetings :
    ∃ roots, rootFields (.ofDocument document []) document = .ok roots
      ∧ (document.Every fun field _ => ∀ x ∈ field.definition.extensions, x.Pure)
      ∧ (greeter.execute document [] ada).1.data
          = roots.map (greeter.entryAlone ⟨⟨[], []⟩, {}⟩ ada)
      ∧ (greeter.execute document [] ada).1.data.map Prod.fst = ["a", "b"]
      ∧ (greeter.execute document [] ada).1.errors.map FieldError.path
          = [⟨["a"]⟩] := by
  have hpure : document.Every fun field _ => ∀ x ∈ field.definition.extensions, x.Pure := by
    refine ⟨?_, fun f hf => nomatch hf⟩
    simp [document, me, lookup, greeting, Selection.EveryIn, Selection.Every]
  refine ⟨_, rfl, hpure, ?_, by decide +kernel, by decide +kernel⟩
  obtain ⟨-, -, -, -, hdata, -⟩ :=
    execute_isolates_fields greeter document [] ada _ rfl hpure
  exact hdata

end Executor
end QueryProjection
