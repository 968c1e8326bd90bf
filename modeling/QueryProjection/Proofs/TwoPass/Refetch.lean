import QueryProjection.Proofs.Expansion
import QueryProjection.Proofs.TwoPass.Fetched
import QueryProjection.Proofs.TwoPass.Service

/-!
# Reading back what was fetched

The data pass compiles a field to an expression for the data that the full pass needs.  The full
pass reads the field back from that data and evaluates the service fields below it.  Where both
passes give a value, it is what the field answers: `Compiler.answer_of_refetch`.

* `Compiler.FetchesField` and `Compiler.RereadsField` say what the two passes have done with a
  field, and `Compiler.Fetches` and `Compiler.Rereads` what they have done with a selection;
* `Compiler.answer_of_plain`, `Compiler.answer_of_service` and `Compiler.record_of_refetch` compare
  a member of the record of an element, and the record as a whole, with what is answered;
* `Expanded.Numberable` is what is assumed of the fields selected of numbered elements.

## Why these are the invariants

Between the passes nothing is left of the data pass but a value and the keys that it remembered, so
`Compiler.RereadsField` knows the fetched value by its type and the memory by what it has below the
path.  The memory need not be the same at the path itself, nor in its numbers: the full pass draws
its own, and `Memory.SameInside` is what compiling siblings in between leaves alone.

What a field answers is taken for what it resolves to in the data, `origin x`, while the full pass
sees only what was fetched for that, `y`; so the induction on the tree carries both values.  A
record has a member for each plain field that is the last one of its key, the members that service
fields read, and the position.  A field whose place was taken by a later one is not there, which is
why `Compiler.Fetches` is about the members of the finished record.
-/

namespace QueryProjection

open Expanded Expr Interpretation List SelectionMap

/-! ## Numbered elements -/

/-- What is assumed of the fields that are selected of numbered elements.  One of them has something
to be fetched, so that there is a record for the position.  And the key of the position is none
under which something is fetched for a service field. -/
structure Expanded.Numberable (key : String) (fields : List Expanded) : Prop where
  kept : fields ≠ [] → ∃ f ∈ fields, f.field.definition.requiresService = true →
    f.field.definition.context ∈ f.field.definition.resolve.freeParameters
  apart : ∀ f ∈ fields, f.field.definition.requiresService = true → ∀ path chains,
    f.field.definition.resolve.dependencies (.identity f.field.definition.context) path
      = .ok chains →
      ∀ d ∈ chains, ∀ i, Text.sameIgnoringCase key (fetchedKey d.1 i) = false

/-- Wherever the elements of a list are numbered below the field, the fields that are selected of
them allow it. -/
def Interpretation.Numbers (I : Interpretation) (e : Expanded) : Prop :=
  ∀ x : Expanded, x.Within e → ∀ key ∈ I.key? x.field, ∀ fields, x.selection = .selects fields →
    Expanded.Numberable key fields

variable {f : Expanded} {fields : List Expanded} {key : Option String} {path other : FieldPath}
  {n : Memory}

theorem Interpretation.Numbers.of_selects {I : Interpretation} {e : Expanded} (h : I.Numbers e)
    (hsel : e.selection = .selects fields) (hf : f ∈ fields) : I.Numbers f :=
  fun x hx => h x (.under hsel hf hx)

namespace Compiler

theorem last?_slots (k : String) : Merge.last? k (slots responseKey key fields)
    = if key.any (Text.sameIgnoringCase · k) then some none
      else (Merge.last? k (fields.map entry)).map some := by
  have hentries : (fields.map fun f => (f.responseKey, some f))
      = (fields.map entry).map (Prod.map id some) := by
    rw [map_map]
    rfl
  rw [slots, Merge.last?_append, hentries, Merge.last?_map]
  cases key with
  | none => rfl
  | some k' =>
    unfold Merge.last? Merge.first?
    cases hk : Text.sameIgnoringCase k' k <;> simp [hk]

theorem lastIn_of_mem_slots {k : String}
    (h : (k, some f) ∈ Merge.merge (slots responseKey key fields)) :
    f.LastIn fields ∧ ∀ k' ∈ key, Text.sameIgnoringCase k' f.field.responseKey = false := by
  obtain ⟨-, hlast⟩ := Merge.mem_merge.1 h
  rw [last?_slots] at hlast
  split at hlast
  · cases hlast
  · rename_i hposition
    obtain ⟨f', hf', heq⟩ := Option.map_eq_some_iff.1 hlast
    obtain rfl := Option.some.inj heq
    obtain ⟨hlastIn, hsame⟩ := lastIn_of_last? hf'
    refine ⟨hlastIn, fun k' hk' => Bool.eq_false_iff.2 fun h => hposition ?_⟩
    exact (Option.any_eq_true _ _).2 ⟨k', hk', Merge.sameIgnoringCase_trans h hsame⟩

end Compiler

/-! ## What is remembered -/

theorem FieldPath.ne_of_child_below {key : String} (h : (path.child key).Below other) :
    other ≠ path := by
  rintro rfl
  have hlength := List.IsPrefix.length_le h
  rw [FieldPath.keys_child, length_append] at hlength
  exact absurd hlength (Nat.not_succ_le_self _)

/-- The two memories know the same keys for the fields below a path. -/
def Memory.SameInside (path : FieldPath) (n m : Memory) : Prop :=
  ∀ other, path.Below other → other ≠ path → n.fetched.get other = m.fetched.get other

theorem Memory.SameInside.get {m : Memory} (h : Memory.SameInside path n m) {key : String}
    (hother : (path.child key).Below other) : n.fetched.get other = m.fetched.get other :=
  h other (((FieldPath.Below.refl path).child key).trans hother)
    (FieldPath.ne_of_child_below hother)

namespace Compiler

/-! ## What the full pass finds -/

variable {compiler : Compiler} {I : Interpretation} {next : Nat}

/-- The data pass has compiled a field in the context of an object with the value `x`, and what it
fetches for the field has the value `y`. -/
structure FetchesField (compiler : Compiler) (I : Interpretation) (next : Nat) (e : Expanded)
    (context : Expr) (scope : Scope) (m m' : Memory) (fetch : Compiled)
    (origin : Value → Option Value) (env : Environment) (x y : Value) : Prop where
  gives : Gives (compiler.compileExpanded context scope e) m fetch m'
  mode : scope.mode = .dataOnly
  bare : context.ty.Bare
  reads : ∃ c ∈ scope.parameters, context.ReadsOf c
  sources : I.Sources next context e.field origin
  old : next ≤ m.next
  runs : I.Runs next context x fetch.constants env
  eager : x.Eager
  value : fetch.expression.forced? I.services env = some y

/-- The full pass has compiled the field over what was fetched for it, of this type and with the
value `y`, and what it has compiled has the value `v`.  The schema's own parameters may have no
values. -/
structure RereadsField (compiler : Compiler) (I : Interpretation) (next : Nat) (base : Environment)
    (e : Expanded) (scope : Scope) (m' : Memory) (ty : Ty) (y : Value) (source : Expr)
    (scope' : Scope) (n n' : Memory) (compiled : Compiled) (env' : Environment)
    (v : Value) : Prop where
  gives : Gives (compileResolved e.field (compiler.selectOf e) ⟨source, true, none⟩ scope')
    n compiled n'
  mode : scope'.mode = .full
  path : scope'.path = scope.path
  ty : source.ty = ty
  old : next ≤ n.next
  fetched : Memory.SameInside scope.path n m'
  runs : { I with base }.Runs next source y compiled.constants env'
  value : compiled.expression.forced? I.services env' = some v

/-- Where the data pass and the full pass over what it has fetched give values, that of the full
pass is what the field answers. -/
def Refetches (compiler : Compiler) (I : Interpretation) (next : Nat) (base : Environment)
    (e : Expanded) : Prop :=
  ∀ {context : Expr} {scope scope' : Scope} {m m' n n' : Memory} {fetch compiled : Compiled}
    {origin : Value → Option Value} {env env' : Environment} {x y v : Value} {source : Expr},
    FetchesField compiler I next e context scope m m' fetch origin env x y →
    RereadsField compiler I next base e scope m' fetch.expression.ty y source scope' n n' compiled
      env' v →
    (origin x).bind (I.below e.field (I.answers e.selection)) = some v

/-- The data pass has made a record of a selection of an object with the value `x`, and that record
has the value `y`.  In the record every field is found that the selection has, unless the position
is there. -/
structure Fetches (compiler : Compiler) (I : Interpretation) (next : Nat) (selected : List Expanded)
    (context : Expr) (scope : Scope) (m m' : Memory) (selection : CompiledSelection)
    (env : Environment) (x : Value) (key : Option String) (map : SelectionMap)
    (y : Value) : Prop where
  regular : ∀ f ∈ selected, f.Every (SelectedField.Regular I.services compiler.values next)
  mode : scope.mode = .dataOnly
  selects : Gives (compiler.compileSelection context scope (.selects selected)) m selection m'
  runs : I.Runs next context x selection.constants env
  eager : x.Eager
  distinct : map.Distinct
  find : ∀ {k : String} {f : String × Expr}, (∀ k' ∈ key, Text.sameIgnoringCase k' k = false) →
    selection.fields.field? k = some f → map.field? k = some f
  value : map.toRecord.forced? I.services env = some y

/-- The full pass compiles a field of a record that was fetched, which the parameter stands for. -/
structure Rereads (next : Nat) (map : SelectionMap) (scope : Scope) (m' : Memory) (el : Parameter)
    (scope' : Scope) (n : Memory) : Prop where
  ty : el.ty = map.toRecord.ty
  old : next ≤ el.id
  new : el.id < n.next
  mode : scope'.mode = .full
  path : scope'.path = scope.path
  changed : scope'.contextChanged = true
  fetched : Memory.SameInside scope.path n m'

section Found

variable {T : Ty → Prop} {selected : List Expanded} {context : Expr} {scope scope' : Scope}
  {m m' : Memory} {selection : CompiledSelection} {map : SelectionMap} {el : Parameter}
  (hrereads : Rereads next map scope m' el scope' n)

include hrereads

/-- Compiling a field in full draws numbers and leaves what was remembered alone. -/
theorem Rereads.kept {key : String} {n₁ n₂ : Memory}
    (honward : n₁.Onward (scope'.field key).mode (scope'.field key).path n₂)
    (hn₁ : el.id < n₁.next ∧ Memory.SameInside scope.path n₁ m') :
    el.id < n₂.next ∧ Memory.SameInside scope.path n₂ m' :=
  ⟨Nat.lt_of_lt_of_le hn₁.1 honward.next, fun other hbelow hne =>
    (honward.fetched other (.inl hrereads.mode)).trans (hn₁.2 other hbelow hne)⟩

variable (hdrawn : ∀ f ∈ selected, compiler.Draws T f)
  (hselects : Gives (compiler.compileSelection context scope (.selects selected)) m selection m')
  (hmode : scope.mode = .dataOnly) (hlast : f.LastIn selected)

include hdrawn hselects hmode hlast

/-- **A plain field is found** in the record under its key, and what was remembered for the fields
below it is still known. -/
theorem Rereads.plain (hplain : f.field.definition.requiresService = false)
    (hfind : ∀ {g}, selection.fields.field? f.field.responseKey = some g →
      map.field? f.field.responseKey = some g) :
    ∃ fetch m₁ m₂ spelling, m.next ≤ m₁.next
      ∧ Gives (compiler.compileExpanded context (scope.field f.field.responseKey) f) m₁ fetch m₂
      ∧ selection.constants.Includes fetch.constants
      ∧ map.field? f.field.responseKey = some (spelling, fetch.expression)
      ∧ Resolve.readBack? f.field (.parameter el) (scope'.field f.field.responseKey)
          = some (.member (.parameter el) spelling fetch.expression.ty)
      ∧ (scope'.field f.field.responseKey).path = (scope.field f.field.responseKey).path
      ∧ Memory.SameInside (scope.field f.field.responseKey).path n m₂ := by
  have hdefers : defers scope.mode f.field = false := by
    rw [hmode, defers, hplain]
    rfl
  obtain ⟨fetch, m₁, m₂, hm₁, hfetch, hincludes, ⟨spelling, hfield⟩, hkeys⟩ :=
    selected_of_compileSelection hdrawn hselects hlast hdefers
  have hfield := hfind hfield
  refine ⟨fetch, m₁, m₂, spelling, hm₁, hfetch, hincludes, hfield, ?_,
    congrArg (FieldPath.child · f.field.responseKey) hrereads.path, fun other hbelow hne =>
      (hrereads.fetched.get hbelow).trans (hkeys other hbelow hne)⟩
  have hchanged : (scope'.field f.field.responseKey).contextChanged = true := hrereads.changed
  rw [Resolve.readBack?, hchanged, hplain]
  exact recordMember?_of_field? hrereads.ty hfield

/-- **What a service field reads is found** in the record, under the keys that are remembered for
it. -/
theorem Rereads.service {c : Parameter} (hreads : context.ReadsOf c)
    (hservice : f.field.definition.requiresService = true) :
    ∃ chains, f.field.definition.resolve.dependencies (.identity f.field.definition.context)
        (scope'.field f.field.responseKey).path = .ok chains
      ∧ ∀ d ∈ chains, ∃ k, (∃ i, Text.sameIgnoringCase k (fetchedKey d.1 i) = true)
        ∧ ((∀ {g}, selection.fields.field? k = some g → map.field? k = some g) →
          (parameter el).recordMember? ((Assoc.find? d.1
              (n.fetched.get (scope'.field f.field.responseKey).path)).getD d.1)
            = some (.member (.parameter el) k d.2.chain.ty)
          ∧ map.field? k = some (k, d.2.chain.replace (.identity d.2.root) context)) := by
  have hdefers : defers scope.mode f.field = true := by
    rw [hmode, defers, hservice]
    rfl
  obtain ⟨_, hdependencies, hfound⟩ := fetched_of_compileSelection hdrawn hselects hlast hdefers
  obtain ⟨chains, hchains, hok⟩ := bind_eq_ok_iff.1 hdependencies
  obtain rfl := Except.ok.inj hok
  have hnodup : ((chains.map fun d => (d.1, d.2.chain.replace (.identity d.2.root) context)).map
      Prod.fst).Nodup := by
    rw [map_map]
    exact nodup_of_dependencies hchains
  have hpath : (scope'.field f.field.responseKey).path = scope.path.child f.field.responseKey :=
    congrArg (FieldPath.child · f.field.responseKey) hrereads.path
  rw [hpath, hrereads.fetched.get (.refl _)]
  refine ⟨chains, hchains, fun d hd => ?_⟩
  have hchain := chainOn_of_dependencies hchains d hd
  obtain ⟨k, found, hk, hfield, hsame, htried⟩ := hfound hnodup _ (mem_map_of_mem hd)
  obtain rfl := ((hchain.readsOf .parameter).replace hreads).eq_of_same hsame
  refine ⟨k, htried, fun hfind => ⟨?_, hfind hfield⟩⟩
  rw [hk, Option.getD_some, ← (hchain.replace context).2]
  exact recordMember?_of_field? hrereads.ty (hfind hfield)

end Found

section Member

variable {selected : List Expanded} {context : Expr} {scope : Scope} {m m' : Memory}
  {selection : CompiledSelection} {env : Environment} {x y : Value} {key : Option String}
  {map : SelectionMap}
  (hfetches : Fetches compiler I next selected context scope m m' selection env x key map y)

include hfetches

theorem Fetches.drawn : ∀ f ∈ selected, compiler.Draws Ty.IsRecord f :=
  fun f hf => drawn_of_compileExpanded ((hfetches.regular f hf).sound.imp fun _ _ h => h.draws)

theorem Fetches.position {k spelling : String} {element : Parameter}
    (hspelling : map.field? k = some (spelling, .member (.parameter element) "index" .int))
    {z : Value} (hz : env element = some z) (hfits : (View.of key).Fits z) {source : Expr}
    {env' : Environment} (hy : source.value? I.services env' = some y) {b : Value}
    (hb : (member source spelling .int).forced? I.services env' = some b) :
    (readMember "index" z).value? = some b := by
  obtain ⟨w, hw, hread⟩ :=
    readMember_of_field? hfetches.distinct hfetches.value hspelling
  have heager : y.Eager := by
    obtain ⟨u, -, hu⟩ := Option.bind_eq_some_iff.1 hfetches.value
    exact Value.eager_of_force hu
  rw [forced?_member_of_eager hy heager, hread] at hb
  rw [forced?_member_of_eager ((value?_parameter element).trans hz) hfits.eager] at hw
  exact hw.trans hb

variable {el : Parameter} {scope' : Scope} {n n' : Memory}
  (hrereads : Rereads next map scope m' el scope' n) {f : Expanded} (hlast : f.LastIn selected)
  {compiled : Compiled}
  (hcompiled : Gives (compiler.compileExpanded (.parameter el)
    (scope'.field f.field.responseKey) f) n compiled n')
  {base env' : Environment}
  (hruns : { I with base }.Runs next (.parameter el) y compiled.constants env') {v : Value}
  (hv : compiled.expression.forced? I.services env' = some v)

include hrereads hlast hcompiled hruns hv

variable {c : Parameter}

theorem answer_of_plain (hI : I.Regular) (hvalues : I.values = compiler.values)
    (hplain : f.field.definition.requiresService = false)
    (hkey : ∀ k' ∈ key, Text.sameIgnoringCase k' f.field.responseKey = false)
    (hbare : context.ty.Bare) (hreads : context.ReadsOf c) (hc : c ∈ scope.parameters)
    (hold : next ≤ c.id) (hnext : next ≤ m.next) (ih : Refetches compiler I next base f) :
    I.answer f x = some v := by
  obtain ⟨fetch, m₁, m₂, spelling, hm₁, hfetch, hincludes, hfield, hback, hpath, hsame⟩ :=
    hrereads.plain hfetches.drawn hfetches.selects hfetches.mode hlast hplain (hfetches.find hkey)
  obtain ⟨w, hw, hread⟩ := readMember_of_field? hfetches.distinct hfetches.value hfield
  have hshape : (parameter el).ty.shape?.isSome = true := by rw [ty, hrereads.ty]; rfl
  obtain ⟨selections, hown⟩ := (hfetches.regular f hlast.mem).holds
  have hvalue : (member (.parameter el) spelling fetch.expression.ty).value? I.services env'
      = some w := by
    rw [value?_member, hruns.context, Option.bind_some, hread]
    rfl
  rw [I.answer_eq]
  exact ih
    { gives := hfetch
      mode := hfetches.mode
      bare := hbare
      reads := ⟨c, hc, hreads⟩
      sources := sources_of_le hI (hvalues ▸ hown) hreads hold
      old := Nat.le_trans hnext hm₁
      runs := ⟨hfetches.runs.base, hfetches.runs.context,
        fun p u hu => hfetches.runs.constants p u (hincludes p u hu)⟩
      eager := hfetches.eager
      value := hw }
    { gives := compileResolved_of_readBack hshape hback hcompiled
      mode := hrereads.mode
      path := hpath
      ty := rfl
      old := Nat.le_trans hrereads.old (Nat.le_of_lt hrereads.new)
      fetched := hsame
      runs := ⟨hruns.base, hvalue, hruns.constants⟩
      value := hv }

theorem answer_of_service (hI : I.Regular) (hvalues : I.values = compiler.values)
    (hbase : ∀ p u, base p = some u → I.base p = some u)
    (hservice : f.field.definition.requiresService = true) (hreads : context.ReadsOf c)
    (hapart : ∀ k ∈ key, Numberable k selected) : I.answer f x = some v := by
  obtain ⟨chains, hchains, hfound⟩ :=
    hrereads.service hfetches.drawn hfetches.selects hfetches.mode hlast hreads hservice
  -- What was fetched for a chain is what the chain evaluates to.
  have hall : Resolve.Fetched I.services el
      (n.fetched.get (scope'.field f.field.responseKey).path) x y chains := by
    intro d hd
    have hchain := chainOn_of_dependencies hchains d hd
    obtain ⟨k, ⟨i, htried⟩, hk⟩ := hfound d hd
    have hother : ∀ k' ∈ key, Text.sameIgnoringCase k' k = false := by
      intro k' hk'
      have hne := (hapart k' hk').apart f hlast.mem hservice _ chains hchains d hd i
      rw [Bool.eq_false_iff] at hne ⊢
      exact fun h => hne (Merge.sameIgnoringCase_trans h htried)
    obtain ⟨hmember, hfield⟩ := hk (hfetches.find hother)
    obtain ⟨w, hw, hread⟩ := readMember_of_field? hfetches.distinct hfetches.value hfield
    refine ⟨k, w, hmember, hread, fun env₀ hroot => ?_⟩
    rw [forced?, (hchain.readsOf .parameter).value?_replace
      (hfetches.runs.context.trans hroot.symm)] at hw
    obtain ⟨w', hw', hforce⟩ := Option.bind_eq_some_iff.1 hw
    have heager : w'.Eager := by
      refine eager_of_value? hI.services (hchain.readsOf .parameter).built (fun p hp u hu => ?_) hw'
      rw [(hchain.readsOf .parameter).mem_freeParameters_iff.1 hp, hroot] at hu
      exact Option.some.inj hu ▸ hfetches.eager
    rw [Value.force_eq_self w' heager] at hforce
    rw [hw', hforce]
  have hregular : { I with base }.Regular :=
    ⟨hI.services, fun p u hu => hI.base p u (hbase p u hu), hI.number, hI.window⟩
  have hshape : el.ty.shape?.isSome = true := by rw [hrereads.ty]; rfl
  have hchanged : (scope'.field f.field.responseKey).contextChanged = true := hrereads.changed
  have hmode : (scope'.field f.field.responseKey).mode = .full := hrereads.mode
  have hanswer := forced?_of_service hservice hshape hchanged hrereads.old hrereads.new
    hcompiled (y := y) (fun chains' hchains' => by
      obtain rfl := Except.ok.inj (hchains.symm.trans hchains')
      exact hall) hruns hregular hvalues (hfetches.regular f hlast.mem) hmode hfetches.eager
  rw [hv] at hanswer
  exact answer_mono { I with base } hbase
    ((hfetches.regular f hlast.mem).imp fun _ _ h => h.definition.resolve) hanswer.symm

theorem answer_of_member (hI : I.Regular) (hvalues : I.values = compiler.values)
    (hbase : ∀ p u, base p = some u → I.base p = some u) (hapart : ∀ k ∈ key, Numberable k selected)
    (hkey : ∀ k' ∈ key, Text.sameIgnoringCase k' f.field.responseKey = false)
    (hbare : context.ty.Bare) (hreads : context.ReadsOf c) (hc : c ∈ scope.parameters)
    (hold : next ≤ c.id) (hnext : next ≤ m.next) (ih : Refetches compiler I next base f) :
    I.answer f x = some v := by
  cases hservice : f.field.definition.requiresService with
  | true =>
    exact answer_of_service hfetches hrereads hlast hcompiled hruns hv hI hvalues hbase hservice
      hreads hapart
  | false =>
    exact answer_of_plain hfetches hrereads hlast hcompiled hruns hv hI hvalues hservice hkey hbare
      hreads hc hold hnext ih

end Member

variable {base env' : Environment} {selected : List Expanded} {scope scope' : Scope} {m m' : Memory}
  {selection : CompiledSelection} {y : Value} {e : Expanded}

/-- **The record of an element.**  What the full pass makes of the record that was fetched for an
element is what the selected fields answer for its object, with its position. -/
theorem record_of_refetch (hI : I.Regular) (hvalues : I.values = compiler.values)
    (hbase : ∀ p u, base p = some u → I.base p = some u) (hne : selected ≠ [])
    (hkey : ∀ k ∈ key, Numberable k selected) {ty : Ty} (hty : ty.Bare)
    {element : Parameter} (helement : element.ty = (View.of key).elementTy ty)
    (hold : next ≤ element.id) (hmem : element ∈ scope.parameters) (hnext : next ≤ m.next)
    {env : Environment} {x z : Value} {map : SelectionMap}
    (hfetches : Fetches compiler I next selected ((View.of key).context ty element) scope
      m m' selection env x key map y) {spelling : String} (hspelling : ∀ k ∈ key,
      map.field? k = some (spelling, .member (.parameter element) "index" .int))
    (hz : env element = some z) (hfits : (View.of key).Fits z)
    (hitem : (View.of key).item z = some x) (ih : ∀ f ∈ selected, Refetches compiler I next base f)
    {el : Parameter} {n' : Memory} (hrereads : Rereads next map scope m' el scope' n)
    {selection' : CompiledSelection}
    (hselect : Gives (compiler.compileSelection (.parameter el) scope' (.selects selected)) n
      selection' n') (hruns : { I with base }.Runs next (.parameter el) y selection'.constants env')
    {v : Value}
    (hv : (finish true key el selection'.fields).toRecord.forced? I.services env' = some v) :
    (mapEntries (I.fill (View.of key) z) (Merge.merge (slots responseKey key selected))).map
      .object = some v := by
  -- The full pass draws numbers and leaves what was remembered alone.
  have hempty := isEmpty_compileSelection hselect hrereads.mode
  obtain ⟨made, n₁, rfl, hfields, hassemble, hrecord, hmade⟩ := compileSelection_full
    (I := fun n => el.id < n.next ∧ Memory.SameInside scope.path n m') hrereads.mode
    (fun f hf {_ _ _} hc hn => hrereads.kept (hfetches.drawn f hf hc).1 hn)
    ⟨hrereads.new, hrereads.fetched⟩ hselect
  have hincludes := includes_of_assemble (drawn_of_compileFields hfetches.drawn hfields).2 hassemble
  have hbare : ((View.of key).context ty element).ty.Bare := by
    rw [View.ty_context helement]
    exact hty
  have hanswers : ∀ e ∈ made, e.1.LastIn (made.map Prod.fst) →
      (∀ k' ∈ key, Text.sameIgnoringCase k' e.1.field.responseKey = false) → ∀ {b},
      e.2.expression.forced? I.services env' = some b → I.answer e.1 x = some b := by
    intro e he hlast hother b hb
    obtain ⟨n₂, n₃, ⟨hnew, hsame⟩, hc⟩ := hmade e he
    exact answer_of_member hfetches { hrereads with new := hnew, fetched := hsame } hlast hc
      ⟨hruns.base, hruns.context, fun p u hu =>
        hruns.constants p u (hincludes _ (mem_map_of_mem he) p u hu)⟩ hb hI hvalues hbase hkey
      hother hbare (View.readsOf_context _ _ _) hmem hold hnext (ih e.1 (mem_map_of_mem he))
  have hread : ∀ k ∈ key, (parameter el).recordMember? (if true = true then k else "index")
      = some (.member (.parameter el) spelling .int) := by
    intro k hk
    have hel : (parameter el).ty = map.toRecord.ty := hrereads.ty
    rw [if_pos rfl]
    exact recordMember?_of_field? hel (hspelling k hk)
  rw [forced?_finish hrecord (hempty.trans (by simpa using hne)) hread] at hv
  obtain ⟨members, hmembers, rfl⟩ := Option.map_eq_some_iff.1 hv
  rw [slots_map, ← Merge.map_merge, mapEntries_map, mapEntries_le (fun e he b hb => ?_) hmembers]
  · rfl
  rcases e with ⟨k, _ | e⟩
  · obtain ⟨k', hk'⟩ := mem_key_of_mem_slots he
    exact hfetches.position (hspelling k' hk') hz hfits hruns.context hb
  · have hslot : (k, some e.1)
        ∈ Merge.merge (slots responseKey key (made.map Prod.fst)) := by
      rw [slots_map, ← Merge.map_merge]
      exact mem_map_of_mem (f := Prod.map id (Option.map Prod.fst)) he
    obtain ⟨hlast, hother⟩ := lastIn_of_mem_slots hslot
    rw [Option.map_some, fill, hitem, Option.bind_some]
    exact hanswers e (mem_of_mem_slots he) hlast hother hb

/-- If something is to be fetched for a selection, then there are fields. -/
theorem isEmpty_of_numberable {key : String} (h : Numberable key selected)
    (hne : selected ≠ []) {context : Expr}
    (hselect : Gives (compiler.compileSelection context scope (.selects selected)) m selection m') :
    selection.fields.isEmpty = false := by
  rw [Bool.eq_false_iff]
  intro hempty
  obtain ⟨f, hf, hreads⟩ := h.kept hne
  obtain ⟨hdefers, hdependencies⟩ := deferred_of_isEmpty hselect hempty f hf
  have hservice : f.field.definition.requiresService = true := (Bool.and_eq_true_iff.1 hdefers).2
  obtain ⟨chains, hchains, hok⟩ := bind_eq_ok_iff.1 hdependencies
  rw [map_eq_nil_iff.1 (Except.ok.inj hok)] at hchains
  exact not_mem_freeParameters_of_dependencies hchains (hreads hservice)

section Parts

variable {bound : Option (Parameter × Value)} {source : Expr} {fetch : Compiled} {a : Anatomy}
  (ha : Anatomy.Of I e.field (compiler.selectOf e) bound source scope m m' fetch a)

include ha

theorem Anatomy.Of.key?_eq_none (hnumbers : I.Numbers e) (hsel : e.selection = .selects selected)
    (hne : selected ≠ []) (hempty : a.fields.isEmpty = true) : I.key? e.field = none := by
  cases hk : I.key? e.field with
  | none => rfl
  | some k =>
    have hselects := ha.selects
    rw [selectOf, hsel] at hselects
    have hsome := isEmpty_of_numberable (hnumbers e .here k hk selected hsel) hne hselects
    rw [← ha.isEmpty, hempty] at hsome
    cases hsome

theorem Anatomy.Of.distinct : (finish false (I.key? e.field) a.element a.fields).Distinct := by
  obtain ⟨_, _, _, -, -, hassemble⟩ := compileSelection_gives.1 ha.selects
  exact distinct_finish (ha.adds.distinct (distinct_of_assemble hassemble)) _ _ _

theorem Anatomy.Of.exists_position (hempty : a.fields.isEmpty = false) :
    ∃ spelling, ∀ k ∈ I.key? e.field, (finish false (I.key? e.field) a.element a.fields).field? k
      = some (spelling, .member (.parameter a.element) "index" .int) := by
  have helement := ha.element_ty
  cases hk : I.key? e.field with
  | none => exact ⟨"", nofun⟩
  | some k =>
    rw [hk] at helement
    obtain ⟨spelling, hspelling⟩ :=
      a.fields.exists_field?_insert k (.member (.parameter a.element) "index" .int)
    refine ⟨spelling, fun k' hk' => ?_⟩
    obtain rfl := Option.some.inj hk'
    rw [finish, hempty, if_neg Bool.false_ne_true, numberFields, Option.elim_some,
      if_neg Bool.false_ne_true, (Extension.recordMember?_indexed helement).1]
    exact hspelling

end Parts

theorem below_of_nil (hshape : e.field.definition.shape ≠ .leaf)
    (hsel : e.selection = .selects []) {window : Value → Option Value}
    (hwindow : I.window? e.field = some window) {s u : Value} (hu : window s = some u) :
    I.below e.field (I.answers e.selection) s = some u := by
  rw [below, if_neg hshape, hsel, answers, Option.bind_some, hwindow, Option.bind_some, hu,
    Option.bind_some, answerAll, isEmpty_nil, if_pos rfl]

theorem below_eq_each (hshape : e.field.definition.shape ≠ .leaf)
    (hsel : e.selection = .selects selected) (hne : selected ≠ []) {window : Value → Option Value}
    (hwindow : I.window? e.field = some window) {s u : Value} (hu : window s = some u) :
    I.below e.field (I.answers e.selection) s
      = u.each e.field.definition.shape
          (project? (I.members e.field (I.answerAll selected))) := by
  rw [below, if_neg hshape, hsel, answers, Option.bind_some, hwindow,
    Option.bind_some, hu, Option.bind_some, I.isEmpty_answerAll, if_neg (by simpa using hne)]

section Passes

variable {context source : Expr} {fetch compiled : Compiled} {origin : Value → Option Value}
  {env : Environment} {x v : Value} {m₀ n' : Memory} {p : Placement} {a : Anatomy}

theorem FetchesField.eager_value
    (h : FetchesField compiler I next e context scope m m' fetch origin env x y) : y.Eager := by
  obtain ⟨u, -, hu⟩ := Option.bind_eq_some_iff.1 h.value
  exact Value.eager_of_force hu

theorem answer_of_leaf
    (hfetches : FetchesField compiler I next e context scope m m' fetch origin env x y)
    (hp : Placement.Of I next compiler e context scope m m' fetch p)
    (hrereads : RereadsField compiler I next base e scope m' fetch.expression.ty y source scope'
      n n' compiled env' v) (hshape : e.field.definition.shape = .leaf) :
    (origin x).bind (I.below e.field (I.answers e.selection)) = some v := by
  have hy := hfetches.value
  have hv := hrereads.value
  obtain ⟨hleaf, -⟩ := (compileResolved_leaf hshape).1 hp.gives
  obtain ⟨rfl, -⟩ := (compileResolved_leaf hshape).1 hrereads.gives
  rw [hp.compiled_eq, hleaf, Expr.forced?, hp.value hfetches.sources.value hfetches.runs] at hy
  obtain ⟨s, hs, hy⟩ := Option.bind_eq_some_iff.1 hy
  rw [Value.force_eq_self s (hfetches.sources.eager hfetches.eager hs)] at hy
  rw [Expr.forced?_of_eager hrereads.runs.context hfetches.eager_value] at hv
  rw [hs, Option.bind_some, Interpretation.below, if_pos hshape, hy, hv]

variable (hI : I.Regular) (hreg : e.Every (SelectedField.Regular I.services compiler.values next))
  (hshape : e.field.definition.shape ≠ .leaf)

include hI hreg hshape

/-- What a field with a selection has fetched is made of what its extensions leave. -/
theorem FetchesField.opens
    (hfetches : FetchesField compiler I next e context scope m m' fetch origin env x y)
    (hp : Placement.Of I next compiler e context scope m m' fetch p)
    (ha : Anatomy.Of I e.field (compiler.selectOf e) (p.bound e.field) p.source
      (ownScope scope p.own) (p.memory m) m' p.compiled a) :
    ∃ s u, origin x = some s ∧ a.window s = some u
      ∧ u.EachOf e.field.definition.shape (View.of (I.key? e.field)).Fits
      ∧ (if a.fields.isEmpty then some u else u.each e.field.definition.shape fun z =>
          (finish false (I.key? e.field) a.element a.fields).toRecord.forced? I.services
            (env.bind a.element z)) = some y := by
  obtain ⟨selections, hfield⟩ := hreg.holds
  have hy := hfetches.value
  rw [hp.compiled_eq, ha.forced?_moved (soundBelow hreg.sound) hp.own_old hshape hp.bound_ne
    (p.id_bound e.field m) (hp.constants_eq ▸ hfetches.runs.constants),
    hp.value hfetches.sources.value hfetches.runs] at hy
  obtain ⟨s, hs, hy⟩ := Option.bind_eq_some_iff.1 hy
  obtain ⟨u, hu, hy⟩ := Option.bind_eq_some_iff.1 hy
  obtain ⟨heager, hfits⟩ := Interpretation.fits_of_window? hI hfield.definition ha.window
    (hfetches.sources.eager hfetches.eager hs) hu
  rw [Value.force_eq_self u heager] at hy
  exact ⟨s, u, hs, hu, hfits, hy⟩

/-- The full pass applies the selection to the objects that were fetched. -/
theorem RereadsField.opens {ty : Ty} (hy : y.Eager)
    (hrereads : RereadsField compiler I next base e scope m' ty y source scope' n n' compiled
      env' v) (hsel : e.selection = .selects selected) :
    ∃ ty' element selection, element = placeholder e.field ty' n.next
      ∧ objectTy? e.field.definition.shape ty = some ty'
      ∧ Gives (compiler.compileSelection (.parameter element)
          (objectScope scope' ⟨source, true, none⟩ element) (.selects selected))
          { n with next := n.next + 1 } selection n'
      ∧ (∀ p w, selection.constants.get? p = some w → env' p = some w)
      ∧ (if selected.isEmpty then some y else y.each e.field.definition.shape fun r =>
          (finish true (I.key? e.field) element selection.fields).toRecord.forced? I.services
            (env'.bind element r)) = some v := by
  obtain ⟨selections, hfield⟩ := hreg.holds
  have hv := hrereads.value
  obtain ⟨ty', _, selection, hty, rfl, hselect, rfl⟩ := (compileResolved_materialized hshape
    (hI.numberedBy hfield.definition) hrereads.mode).1 hrereads.gives
  have hdrawn := (selectsDrawn_of_sound (soundBelow hreg.sound) hselect).2
  rw [selectOf, hsel] at hselect
  have hnone : ∀ q ∈ (none : Option Parameter), q ∉ (finish true (I.key? e.field)
      (placeholder e.field ty' n.next) selection.fields).toRecord.freeParameters :=
    fun q hq => absurd hq (Option.not_mem_none q)
  have hread : (source.moved none source).value? I.services env' = some y := hrereads.runs.context
  have hv := (forced?_projected source hnone hshape).symm.trans hv
  rw [hread, Option.bind_some, isEmpty_finish, isEmpty_compileSelection hselect hrereads.mode,
    Value.force_eq_self y hy] at hv
  exact ⟨ty', _, selection, rfl, hrereads.ty ▸ hty, hselect, fun p w hw =>
    hrereads.runs.constants p w (Constants.includes_extend_right hdrawn.nodup p w hw), hv⟩

section Objects

variable (hvalues : I.values = compiler.values)
  (hbase : ∀ p u, base p = some u → I.base p = some u) (hsel : e.selection = .selects selected)
  (hne : selected ≠ []) {el : Parameter} {selection : CompiledSelection}
  (hselect : Gives (compiler.compileSelection (.parameter el) scope' (.selects selected)) n
    selection n') (henv : ∀ p, p.id < next → env' p = base p)
  (hconstants : ∀ p w, selection.constants.get? p = some w → env' p = some w)

include hvalues hbase hsel hne hselect henv hconstants

/-- **A selection of service fields that read nothing.**  Nothing was fetched but the objects
themselves, and the full pass compiles the selection as if there had been no data pass. -/
theorem below_of_bare {window : Value → Option Value} (hwindow : I.window? e.field = some window)
    {s u : Value} (hu : window s = some u)
    (hfits : u.EachOf e.field.definition.shape (View.of (I.key? e.field)).Fits)
    (hkey : I.key? e.field = none)
    (hbare : el.ty.Bare) (hmode : scope'.mode = .full) (hmem : el ∈ scope'.parameters)
    (hold : next ≤ el.id) (hnew : el.id < n.next)
    (hv : u.each e.field.definition.shape (fun z =>
      selection.fields.toRecord.forced? I.services (env'.bind el z)) = some v) :
    I.below e.field (I.answers e.selection) s = some v := by
  have hregular : { I with base }.Regular :=
    ⟨hI.services, fun p u hu => hI.base p u (hbase p u hu), hI.number, hI.window⟩
  have hkey' : { I with base }.key? e.field = none := hkey
  have hselected :
      ∀ f ∈ selected, f.Every (SelectedField.Regular I.services compiler.values next) :=
    fun f hf => hreg.of_selects hsel hf
  have hdrawn : selection.constants.Drawn Ty.IsRecord n.next n'.next :=
    (selectsDrawn_of_sound (soundBelow hreg.sound) ((selectOf_gives hsel).2 hselect)).2
  refine below_le { I with base } (J := I) rfl rfl (fun fields hfields f hf x w hw => ?_) ?_
  · obtain rfl := ExpandedSelection.selects.inj (hsel.symm.trans hfields)
    exact answer_mono { I with base } hbase
      ((hselected f hf).imp fun _ _ h => h.definition.resolve) hw
  · have hwindow' : { I with base }.window? e.field = some window := hwindow
    rw [below_eq_each hshape hsel hne hwindow' hu]
    refine (Value.each_congr hfits fun z hz => ?_).trans hv
    rw [project?_members, hkey']
    rw [hkey] at hz
    have hcontext : Gives (compiler.compileSelection ((View.of none).context el.ty el) scope'
        (.selects selected)) n selection n' := hselect
    have hrecord := forced?_compileSelection hregular hvalues hne hbare rfl hcontext hselected
      (fun f hf => forced?_compileExpanded hregular hvalues (hselected f hf)) hmode hmem hold
      (Nat.le_trans hold (Nat.le_of_lt hnew)) (runs_bind hold hnew hdrawn henv hconstants z) hz
    rw [finish_none] at hrecord
    exact hrecord.symm

omit hshape in
/-- **A selection with a record.**  The full pass reads the fields back from the record that was
fetched for an object. -/
theorem record_of_rereads
    (hfetches : FetchesField compiler I next e context scope m m₀ fetch origin env x y)
    (hp : Placement.Of I next compiler e context scope m m₀ fetch p)
    (ha : Anatomy.Of I e.field (compiler.selectOf e) (p.bound e.field) p.source
      (ownScope scope p.own) (p.memory m) m₀ p.compiled a) (hempty : a.fields.isEmpty = false)
    (hnumberable : ∀ k ∈ I.key? e.field, Numberable k selected)
    (ih : ∀ f ∈ selected, Refetches compiler I next base f)
    (hrecords : Rereads next (finish false (I.key? e.field) a.element a.fields) a.scope m₀ el
      scope' n) {z r w : Value} (hz : (View.of (I.key? e.field)).Fits z)
    (hr : (finish false (I.key? e.field) a.element a.fields).toRecord.forced? I.services
      (env.bind a.element z) = some r)
    (hw : (finish true (I.key? e.field) el selection.fields).toRecord.forced? I.services
      (env'.bind el r) = some w) :
    project? (I.members e.field (I.answerAll selected)) z = some w := by
  have hold := ha.element_old
  have hnew := ha.element_new
  have hnext : next ≤ (p.memory m).next :=
    Nat.le_trans hfetches.old (Nat.le_trans hp.number (Nat.le_add_right _ _))
  have hid : next ≤ a.element.id := Nat.le_trans hnext hold
  have hselects := ha.selects
  rw [selectOf, hsel] at hselects
  have hbare : a.ty.Bare := under_objectTy? (outputType?_of_selects hreg.sound hsel hne)
    (hp.under (fun _ => rfl) hfetches.bare) ha.objectTy
  have hdrawn : selection.constants.Drawn Ty.IsRecord n.next n'.next :=
    (selectsDrawn_of_sound (soundBelow hreg.sound) ((selectOf_gives hsel).2 hselect)).2
  obtain ⟨o, ho, heager⟩ := hz.item
  have hruns : I.Runs next ((View.of (I.key? e.field)).context a.ty a.element) o
      a.selection.constants (env.bind a.element z) := by
    refine { runs_bind hid hnew (ha.drawn (soundBelow hreg.sound)) hfetches.runs.base
      (fun q u hq => hfetches.runs.constants q u (hp.constants_eq ▸
        (ha.includes (soundBelow hreg.sound) (p.id_bound e.field m)).1 q u hq)) z
      with context := ?_ }
    rw [View.value?_context, env.bind_self]
    exact ho
  have hmem : a.element ∈ a.scope.parameters := by
    rw [ha.parameters]
    exact mem_cons_self
  obtain ⟨spelling, hspelling⟩ := ha.exists_position hempty
  rw [project?_members]
  exact record_of_refetch hI hvalues hbase hne hnumberable hbare ha.element_ty hid hmem
    (Nat.le_trans hid (Nat.le_of_lt hnew))
    { regular := fun f hf => hreg.of_selects hsel hf
      mode := ha.mode.trans ((mode_ownScope scope p.own).trans hfetches.mode)
      selects := hselects
      runs := hruns
      eager := heager
      distinct := ha.distinct
      find := fun hother hfind => field?_finish hother (ha.adds.field? hfind) _ _
      value := hr }
    hspelling (env.bind_self _ z) hz ho ih hrecords hselect
    (runs_bind hrecords.old hrecords.new hdrawn henv hconstants r) hw

end Objects

variable (hfetches : FetchesField compiler I next e context scope m m' fetch origin env x y)
  (hp : Placement.Of I next compiler e context scope m m' fetch p)
  (ha : Anatomy.Of I e.field (compiler.selectOf e) (p.bound e.field) p.source
    (ownScope scope p.own) (p.memory m) m' p.compiled a)
  (hrereads : RereadsField compiler I next base e scope m' fetch.expression.ty y source scope'
    n n' compiled env' v)

include hfetches hp ha hrereads

theorem answer_of_nil (hsel : e.selection = .selects []) :
    (origin x).bind (I.below e.field (I.answers e.selection)) = some v := by
  obtain ⟨s, u, hs, hu, -, hy⟩ := hfetches.opens hI hreg hshape hp ha
  obtain ⟨_, _, _, -, -, -, -, hv⟩ := hrereads.opens hI hreg hshape hfetches.eager_value hsel
  have hselects := ha.selects
  rw [selectOf, hsel] at hselects
  rw [ha.isEmpty, isEmpty_of_selects_nil hselects, if_pos rfl] at hy
  rw [isEmpty_nil, if_pos rfl] at hv
  rw [hs, Option.bind_some, below_of_nil hshape hsel ha.window hu, hy, hv]

variable (hvalues : I.values = compiler.values)
  (hbase : ∀ p u, base p = some u → I.base p = some u) (hnumbers : I.Numbers e)
  (hsel : e.selection = .selects selected) (hne : selected ≠ [])

include hvalues hbase hnumbers hsel hne

/-- If nothing was fetched but the objects, the full pass starts from them. -/
theorem answer_of_bare (hempty : a.fields.isEmpty = true) :
    (origin x).bind (I.below e.field (I.answers e.selection)) = some v := by
  obtain ⟨s, u, hs, hu, hfits, hy⟩ := hfetches.opens hI hreg hshape hp ha
  obtain ⟨ty, element, selection, rfl, hty, hselect, hconstants, hv⟩ :=
    hrereads.opens hI hreg hshape hfetches.eager_value hsel
  have hkey := ha.key?_eq_none hnumbers hsel hne hempty
  have hunder := hp.under_moved (fun _ => rfl) hfetches.bare
  rw [← ha.ty_moved hp.bound_ne hempty hkey] at hunder
  rw [hp.compiled_eq] at hty
  have hbare : (placeholder e.field ty n.next).ty.Bare :=
    under_objectTy? (outputType?_of_selects hreg.sound hsel hne) hunder hty
  have hmode : (objectScope scope' ⟨source, true, none⟩ (placeholder e.field ty n.next)).mode
      = .full := hrereads.mode
  rw [hempty, if_pos rfl] at hy
  obtain rfl := Option.some.inj hy
  rw [if_neg (by simpa using hne), hkey] at hv
  simp only [finish_none] at hv
  rw [hs, Option.bind_some]
  exact below_of_bare hI hreg hshape hvalues hbase hsel hne hselect hrereads.runs.base hconstants
    ha.window hu hfits hkey hbare hmode mem_cons_self hrereads.old (Nat.lt_succ_self n.next) hv

/-- If records were fetched, the full pass reads them back. -/
theorem answer_of_records (hempty : a.fields.isEmpty = false)
    (ih : ∀ f ∈ selected, Refetches compiler I next base f) :
    (origin x).bind (I.below e.field (I.answers e.selection)) = some v := by
  obtain ⟨s, u, hs, hu, hfits, hy⟩ := hfetches.opens hI hreg hshape hp ha
  obtain ⟨ty, element, selection, rfl, hty, hselect, hconstants, hv⟩ :=
    hrereads.opens hI hreg hshape hfetches.eager_value hsel
  rw [hp.compiled_eq, ha.objectTy?_moved (soundBelow hreg.sound) hp.own_old hshape hempty
    context] at hty
  have hpath : a.scope.path = scope.path := ha.path.trans (path_ownScope scope p.own)
  have hrecords : Rereads next (finish false (I.key? e.field) a.element a.fields) a.scope m'
      (placeholder e.field ty n.next)
      (objectScope scope' ⟨source, true, none⟩ (placeholder e.field ty n.next))
      { n with next := n.next + 1 } :=
    { ty := (Option.some.inj hty).symm
      old := hrereads.old
      new := Nat.lt_succ_self n.next
      mode := hrereads.mode
      path := hrereads.path.trans hpath.symm
      changed := Bool.or_true _
      fetched := hpath ▸ hrereads.fetched }
  rw [hempty, if_neg Bool.false_ne_true] at hy
  rw [if_neg (by simpa using hne)] at hv
  rw [hs, Option.bind_some, below_eq_each hshape hsel hne ha.window hu]
  refine Value.each_each hfits hy hv (fun z r hr => ?_) fun z hz r w hr hw => ?_
  · -- A record is not null.
    rw [forced?_toRecord ha.distinct] at hr
    obtain ⟨members, -, rfl⟩ := Option.map_eq_some_iff.1 hr
    rfl
  · exact record_of_rereads hI hreg hvalues hbase hsel hne hselect hrereads.runs.base
      hconstants hfetches hp ha hempty (fun k hk => hnumbers e .here k hk selected hsel) ih hrecords
      hz hr hw

end Passes

/-- **Reading back what was fetched.**  Where the data pass and the full pass over what it has
fetched give values, that of the full pass is what the field answers. -/
theorem answer_of_refetch (hI : I.Regular) (hvalues : I.values = compiler.values)
    (hbase : ∀ p u, base p = some u → I.base p = some u)
    (hreg : e.Every (SelectedField.Regular I.services compiler.values next))
    (hnumbers : I.Numbers e) : Refetches compiler I next base e := by
  induction e using Expanded.induct with
  | field e ih =>
    intro context scope scope' m m' n n' fetch compiled origin env env' x y v source
      hfetches hrereads
    obtain ⟨c, hc, hreads⟩ := hfetches.reads
    obtain ⟨p, hp⟩ := placement_of_compileExpanded hvalues hreg.sound hfetches.bare hreads hc
      hfetches.old hfetches.gives
    obtain ⟨selections, hfield⟩ := hreg.holds
    by_cases hshape : e.field.definition.shape = .leaf
    · exact answer_of_leaf hfetches hp hrereads hshape
    obtain ⟨a, ha⟩ := anatomy_of_compileResolved hI hfield.definition hshape hp.record
      (p.id_bound e.field m) hp.gives
    obtain ⟨selected, hsel, -⟩ := ha.exists_selects
    by_cases hne : selected = []
    · subst hne
      exact answer_of_nil hI hreg hshape hfetches hp ha hrereads hsel
    cases hempty : a.fields.isEmpty with
    | true =>
      exact answer_of_bare hI hreg hshape hfetches hp ha hrereads hvalues hbase hnumbers hsel hne
        hempty
    | false =>
      exact answer_of_records hI hreg hshape hfetches hp ha hrereads hvalues hbase hnumbers hsel hne
        hempty fun f hf =>
          ih selected hsel f hf (hreg.of_selects hsel hf) (hnumbers.of_selects hsel hf)

end Compiler
end QueryProjection
