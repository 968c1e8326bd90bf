import QueryProjection.Proofs.TwoPass.Source

/-!
# What a selection is applied to

A field that resolves to an object, or to a collection of objects, is compiled to a projection: the
extensions of the field are applied to what it resolves to, and the record of the selection is read
from each object.  An extension that numbers adds the position to the record.

* `Compiler.anatomy_of_compileResolved` takes a field apart that was built from its resolver;
* `Compiler.compileResolved_materialized` is about a field that was read back from fetched data;
* `Compiler.forced?_projected` evaluates a projection, also when it is moved from the context of a
  fragment.

`Compiler.Anatomy` has the parts of a compiled field, and `Compiler.Anatomy.Of` what later modules
may use of them.  It is the same for objects and lists and with or without positions, so that the
cases are dealt with here and nowhere else.  Of the extensions it keeps their meaning, of the
selection where it was compiled and what came of it, and of numbers only which are older.
-/

namespace QueryProjection

open List

open Expr Resolve

/-! ## Moving projections -/

namespace Expr

variable {own : Option Parameter} {context : Expr}

theorem moved_calls {cs : List (Method × List Expr)}
    (h : ∀ q ∈ own, ∀ c ∈ cs, ∀ a ∈ c.2, q ∉ a.freeParameters) (e : Expr) :
    (e.calls cs).moved own context = (e.moved own context).calls cs := by
  cases own with
  | none => rfl
  | some q =>
    induction cs generalizing e with
    | nil => rfl
    | cons c cs ih =>
      have harguments : replaceUnderAll (Replacement.identity q).picks context [] c.2
          = c.2 := by
        rw [replaceUnderAll_eq_map]
        refine map_congr_left (fun a ha => ?_) |>.trans (map_id c.2)
        exact replace_of_not_mem (h q rfl c mem_cons_self a ha) _
      have hcall : (call c.1 e c.2).moved (some q) context
          = .call c.1 (e.moved (some q) context) c.2 := by
        show call _ _ (replaceUnderAll _ _ _ _) = _
        rw [harguments]
        rfl
      calc ((call c.1 e c.2).calls cs).moved (some q) context
          = ((call c.1 e c.2).moved (some q) context).calls cs :=
            ih _ fun p hp d hd => h p hp d (mem_cons_of_mem c hd)
        _ = ((e.moved (some q) context).calls (c :: cs)) := by rw [hcall]; rfl

variable {element : Parameter} {body : Expr}

theorem replaceUnder_body {q : Parameter} (h : q ∉ body.freeParameters) (target : Expr) :
    replaceUnder (Replacement.identity q).picks target [element] body = body :=
  replaceUnder_of_not_mem body [element] fun hq =>
    h (mem_freeParameters.2 ((mem_freeOccurrences body [element]).1 hq).1)

theorem moved_projectOne (h : ∀ q ∈ own, q ∉ body.freeParameters) (source : Expr) :
    (projectOne source element body).moved own context
      = .projectOne (source.moved own context) element body := by
  cases own with
  | none => rfl
  | some q =>
    show projectOne _ _ (replaceUnder _ _ _ _) = _
    rw [replaceUnder_body (h q rfl)]
    rfl

theorem moved_projectEach (h : ∀ q ∈ own, q ∉ body.freeParameters) (source : Expr) :
    (projectEach source element body).moved own context
      = .projectEach (source.moved own context) element body := by
  cases own with
  | none => rfl
  | some q =>
    show projectEach _ _ (replaceUnder _ _ _ _) = _
    rw [replaceUnder_body (h q rfl)]
    rfl

theorem moved_materialize (inner : Expr) :
    (materialize inner).moved own context = .materialize (inner.moved own context) := by
  cases own <;> rfl

end Expr

variable {p : Parameter} {ty : Ty}

theorem SelectionMap.mem_freeParameters_toRecord {fields : SelectionMap} :
    p ∈ fields.toRecord.freeParameters ↔ ∃ f ∈ fields.fields, p ∈ f.2.freeParameters := by
  rw [toRecord, mem_freeParameters_record]
  simp only [mem_map, exists_exists_and_eq_and]

namespace Compiler

/-- The type of the objects that a field of this shape and type resolves to. -/
def objectTy? (shape : FieldShape) (ty : Ty) : Option Ty :=
  match shape with
  | .leaf => none
  | .object => if ty.isComposite then some ty else none
  | .list => ty.element?

theorem under_objectTy? {definition : FieldDefinition} (hout : definition.outputType?.isSome = true)
    {R : Ty → Prop} {a : Ty} (h : Ty.Under R a definition.resolve.ty)
    (hty : objectTy? definition.shape a = some ty) : R ty := by
  unfold FieldDefinition.outputType? at hout
  unfold FieldDefinition.shape at hty
  have helement : ∀ {inner : Ty}, inner.objectName?.isSome = true →
      (∃ inner', a.element? = some inner' ∧ Ty.Under R inner' inner) →
      objectTy? (if inner.isComposite then .list else .leaf) a = some ty → R ty := by
    rintro inner hname ⟨inner', hinner', hunder⟩ hty
    cases inner with
    | object name =>
      obtain rfl := Option.some.inj (hinner'.symm.trans hty)
      exact hunder
    | _ => cases hname
  cases hresolve : definition.resolve.ty with
  | object name =>
    rw [hresolve] at h hty
    change (if a.isComposite then some a else none) = some ty at hty
    split at hty
    · obtain rfl := Option.some.inj hty
      exact h
    · cases hty
  | list inner | map inner =>
    rw [hresolve] at h hty hout
    exact helement hout h hty
  | _ =>
    rw [hresolve] at hout
    cases hout

/-- The fields read from each object of a source; without fields the source itself. -/
def projected (shape : FieldShape) (scope : Scope) (source : Expr) (element : Parameter)
    (fields : SelectionMap) : Expr :=
  if fields.isEmpty then source
  else match shape with
  | .list => projectList scope source element fields
  | _ => .projectOne source element fields.toRecord

section Projected

variable {services : Provider} {env : Environment} {shape : FieldShape} {scope : Scope}
  {source : Expr} {element : Parameter} {own : Option Parameter} {fields : SelectionMap}
  (context : Expr) (h : ∀ q ∈ own, q ∉ fields.toRecord.freeParameters)

include h

theorem forced?_projectList :
    ((projectList scope source element fields).moved own context).forced? services env
      = ((source.moved own context).value? services env).bind fun v =>
          v.project fun item => fields.toRecord.forced? services (env.bind element item) := by
  unfold projectList
  dsimp only
  split
  · rw [moved_materialize, forced?_materialize, moved_projectEach h, forced?_projectEach]
  · rw [moved_projectEach h, forced?_projectEach]

theorem forced?_projected (hshape : shape ≠ .leaf) :
    ((projected shape scope source element fields).moved own context).forced? services env
      = ((source.moved own context).value? services env).bind fun v =>
          if fields.isEmpty then v.force
          else v.each shape fun item => fields.toRecord.forced? services
            (env.bind element item) := by
  unfold projected
  split
  · rfl
  · cases shape with
    | leaf => exact absurd rfl hshape
    | object =>
      rw [moved_projectOne h, forced?_projectOne]
      rfl
    | list => exact forced?_projectList context h

theorem objectTy?_projected (hshape : shape ≠ .leaf) (hempty : fields.isEmpty = false) :
    objectTy? shape ((projected shape scope source element fields).moved own context).ty
      = some fields.toRecord.ty := by
  have helement : ∀ source : Expr,
      (projectEach source element fields.toRecord).ty.element? = some fields.toRecord.ty := by
    intro source
    rw [ty]
    split <;> rfl
  unfold projected
  rw [hempty, if_neg Bool.false_ne_true]
  cases shape with
  | leaf => exact absurd rfl hshape
  | object =>
    rw [moved_projectOne h]
    rfl
  | list =>
    unfold projectList
    dsimp only
    split
    · rw [moved_materialize, moved_projectEach h]
      exact helement _
    · rw [moved_projectEach h]
      exact helement _

end Projected

/-! ## Members that extensions read -/

section ElementFields

variable {field : SelectedField} {scope : Scope} {ty : Ty} {pre : PreSelection}
  {fields fields' : SelectionMap}

theorem adds_elementFields (h : elementFields field scope ty pre fields = .ok fields') :
    fields.Adds (fun e => ∀ p ∈ e.freeParameters,
      p ∈ pre.elementContext.freeParameters) fields' := by
  unfold elementFields at h
  split at h
  · obtain ⟨read, hread, heq⟩ := bind_eq_ok_iff.1 h
    cases heq
    refine adds_addElementDependencies (fun d hd p hp => ?_) fields
    rcases mem_freeParameters_replace hp with ⟨hp, hne⟩ | hp
    · have hchain := chainOn_of_dependencies hread d hd
      exact absurd (mem_freeParameters_parameter.1 (hchain.mem_freeParameters_iff.1 hp)) hne
    · exact hp
  · cases h
    exact .refl _ _

end ElementFields

/-! ## Positions -/

end Compiler

/-- The extensions that are run for the field add the position of each element under this key. -/
def FieldDefinition.NumberedBy (services : Provider) (definition : FieldDefinition)
    (key : Option String) : Prop :=
  (definition.shape = .list → Extension.Arranged services definition.extensions key)
    ∧ (definition.shape ≠ .list → key = none)

theorem Interpretation.Regular.numberedBy {I : Interpretation} (hI : I.Regular) {next : Nat}
    {field : SelectedField} (hd : field.definition.Regular I.services next) :
    field.definition.NumberedBy I.services (I.key? field) := by
  unfold key?
  refine ⟨fun hlist => ?_, fun hlist => if_neg hlist⟩
  rw [if_pos hlist]
  exact hI.number (hd.extensions hlist)

namespace Compiler

/-- The fields of an element with its position; over fetched data the position is read back. -/
def numberFields (materialized : Bool) (key : Option String) (element : Parameter)
    (fields : SelectionMap) : SelectionMap :=
  key.elim fields fun key =>
    ((Expr.parameter element).recordMember? (if materialized then key else "index")).elim fields
      (fields.insert key)

variable {context : HookContext} {post : PostSelection} {m m' : Memory} {key : Option String}
  {fields : SelectionMap} {element : Parameter} {materialized : Bool} {n next : Nat} {source : Expr}
  {I : Interpretation} {field : SelectedField} {record : Option (List (String × Value))}
  {scope : Scope}

theorem runPostSelection_append_gives {first second : List Extension} {post' : PostSelection} :
    Gives (runPostSelection context (first ++ second) post) m post' m'
      ↔ ∃ post₁ m₁, Gives (runPostSelection context first post) m post₁ m₁
          ∧ Gives (runPostSelection context second post₁) m₁ post' m' := by
  have happend : runPostSelection context (first ++ second) post
      = runPostSelection context first post >>= runPostSelection context second := by
    induction first generalizing post with
    | nil => exact (pure_bind _ _).symm
    | cons x rest ih => simp only [cons_append, runPostSelection, bind_assoc, ih]
  rw [happend, gives_bind]

theorem runPostSelection_arranged {services : Provider} {extensions : List Extension}
    (h : Extension.Arranged services extensions key) :
    Gives (runPostSelection context extensions.reverse ⟨fields, element⟩) m post m'
      ↔ post = ⟨numberFields context.materialized key element fields, element⟩ ∧ m' = m := by
  have hwindows : ∀ {xs : List Extension}, (∀ x ∈ xs, x.Window services) →
      ∀ x ∈ xs.reverse, x.Windows := fun hxs x hx => (hxs x (mem_reverse.1 hx)).windows
  cases key with
  | none => exact runPostSelection_gives (hwindows h)
  | some key =>
    obtain ⟨before, after, rfl, hbefore, hafter⟩ := h
    have hposition : (Extension.position key).postSelection context ⟨fields, element⟩
        = pure ⟨numberFields context.materialized (some key) element fields, element⟩ := by
      unfold Extension.position numberFields
      dsimp only [Option.elim]
      cases recordMember? (.parameter element)
        (if context.materialized then key else "index") <;> rfl
    rw [reverse_append, reverse_cons, append_assoc, runPostSelection_append_gives]
    simp only [runPostSelection_gives (hwindows hafter), singleton_append,
      runPostSelection_cons_gives, runPostSelection_gives (hwindows hbefore), existsAndEq,
      hposition, gives_pure, true_and, and_true]

/-- The fields of an element as they are projected. -/
def finish (materialized : Bool) (key : Option String) (element : Parameter)
    (fields : SelectionMap) : SelectionMap :=
  if fields.isEmpty then fields else numberFields materialized key element fields

@[simp] theorem finish_none (materialized : Bool) (element : Parameter) (fields : SelectionMap) :
    finish materialized none element fields = fields :=
  ite_self _

theorem finish_cases (materialized : Bool) (key : Option String) (element : Parameter)
    (fields : SelectionMap) : finish materialized key element fields = fields
      ∨ fields.isEmpty = false ∧ ∃ k ∈ key, ∃ position,
        (parameter element).recordMember? (if materialized then k else "index") = some position
          ∧ finish materialized key element fields = fields.insert k position := by
  cases key with
  | none => exact .inl (finish_none _ _ _)
  | some k =>
    unfold finish numberFields
    cases hempty : fields.isEmpty with
    | true => exact .inl rfl
    | false =>
      cases hposition : (parameter element).recordMember? (if materialized then k else "index") with
      | none =>
        refine .inl ?_
        rw [if_neg Bool.false_ne_true, Option.elim_some, hposition]
        rfl
      | some position =>
        refine .inr ⟨rfl, k, rfl, position, hposition, ?_⟩
        rw [if_neg Bool.false_ne_true, Option.elim_some, hposition]
        rfl

theorem isEmpty_finish (materialized : Bool) (key : Option String) (element : Parameter)
    (fields : SelectionMap) :
    (finish materialized key element fields).isEmpty = fields.isEmpty := by
  rcases finish_cases materialized key element fields with h | ⟨hempty, k, -, position, -, h⟩
  · rw [h]
  · obtain ⟨spelling, hfield⟩ := fields.exists_field?_insert k position
    rw [h, hempty, SelectionMap.isEmpty, Bool.eq_false_iff, ne_eq, List.isEmpty_iff]
    exact ne_nil_of_mem (mem_of_find?_eq_some hfield)

theorem fields_finish {entries : List (String × Expr)}
    (hfields : fields.fields = Merge.merge entries) (hne : fields.isEmpty = false) {position : Expr}
    (hposition : ∀ k ∈ key, (parameter element).recordMember? (if materialized then k else "index")
      = some position) :
    (finish materialized key element fields).fields
      = Merge.merge (entries ++ key.toList.map fun k => (k, position)) := by
  rw [finish, hne, if_neg Bool.false_ne_true]
  cases key with
  | none => exact hfields.trans (by rw [Option.toList_none, map_nil, append_nil])
  | some k =>
    rw [numberFields, Option.elim_some, hposition k rfl, Option.elim_some,
      SelectionMap.fields_insert, hfields]
    exact (Merge.merge_append_singleton entries (k, position)).symm

theorem free_of_finish (h : p ∈ (finish materialized key element fields).toRecord.freeParameters) :
    p = element ∨ ∃ f ∈ fields.fields, p ∈ f.2.freeParameters := by
  obtain ⟨f, hf, hp⟩ := SelectionMap.mem_freeParameters_toRecord.1 h
  rcases finish_cases materialized key element fields with h | ⟨-, k, -, position, hposition, h⟩
  · exact .inr ⟨f, h ▸ hf, hp⟩
  · rw [h, SelectionMap.fields_insert] at hf
    rcases Merge.mem_write hf with hf | hf
    · exact .inr ⟨f, hf, hp⟩
    · rw [hf] at hp
      exact .inl ((Expr.ReadsOf.parameter.recordMember? hposition).mem_freeParameters_iff.1 hp)

theorem field?_finish {k : String} (hk : ∀ k' ∈ key, Text.sameIgnoringCase k' k = false)
    {f : String × Expr} (h : fields.field? k = some f) (materialized : Bool) (element : Parameter) :
    (finish materialized key element fields).field? k = some f := by
  rcases finish_cases materialized key element fields with h' | ⟨-, k', hk', position, -, h'⟩
  · rw [h', h]
  · rw [h', SelectionMap.field?_insert_of_ne (hk k' hk'), h]

theorem distinct_finish (h : fields.Distinct) (materialized : Bool) (key : Option String)
    (element : Parameter) : (finish materialized key element fields).Distinct := by
  rcases finish_cases materialized key element fields with h' | ⟨-, k, -, position, -, h'⟩
  · rw [h']
    exact h
  · rw [h']
    exact h.insert k position

theorem id_elementOf (element : Parameter) {k : Nat} (hlt : element.id < n)
    (hk : key.isSome = true → element.id < k ∧ k < n) :
    element.id ≤ (elementOf key element k).id ∧ (elementOf key element k).id < n := by
  cases key with
  | none => exact ⟨Nat.le_refl _, hlt⟩
  | some key => exact ⟨Nat.le_of_lt (hk rfl).1, (hk rfl).2⟩

/-! ## The anatomy of a compiled field -/

section Anatomy

variable {field : SelectedField} {select : Select} {resolved : Resolved} {scope : Scope}
  {compiled : Compiled} {m m' : Memory} {services : Provider} {key : Option String}

theorem compileResolved_leaf (hshape : field.definition.shape = .leaf) :
    Gives (compileResolved field select resolved scope) m compiled m'
      ↔ compiled = ⟨resolved.expression, (withArguments scope resolved.arguments).1, false⟩
        ∧ m' = m := by
  rw [compileResolved_eq, hshape]
  exact gives_pure

variable {element : Parameter} {arguments : Option (Parameter × Value)} {pre : PreSelection}
  {ty : Ty} {fields fields' : SelectionMap}

theorem elementScope_eq {collection elementContext : Expr} :
    elementScope scope resolved element ⟨collection, element, elementContext⟩
      = objectScope scope resolved element := by
  unfold elementScope objectScope
  rw [bne_self_eq_false, Bool.or_false]

theorem changed_elementScope (h : scope.contextChanged = true) :
    (elementScope (withArguments scope arguments).2 resolved element pre).contextChanged
      = true := by
  have hchanged : (withArguments scope arguments).2.contextChanged = true := by
    cases arguments <;> exact h
  rw [elementScope, hchanged]
  rfl

/-- The first hooks of the extensions that are run for a field. -/
def hooksOf (field : SelectedField) (context : HookContext) (pre : PreSelection) :
    Compile PreSelection :=
  if field.definition.shape = .list then runPreSelection context field.definition.extensions pre
  else pure pre

/-- The fields of a selection together with the members that the extensions of the field read. -/
def readFields (field : SelectedField) (scope : Scope) (ty : Ty) (pre : PreSelection)
    (fields : SelectionMap) : Except CompileError SelectionMap :=
  if field.definition.shape = .list then elementFields field scope ty pre fields else .ok fields

/-- A field with windows and at most one extension that numbers: its selection is applied to what
the hooks leave. -/
theorem compileResolved_gives (hshape : field.definition.shape ≠ .leaf)
    (hkey : field.definition.NumberedBy services key) :
    Gives (compileResolved field select resolved scope) m compiled m'
      ↔ ∃ ty element pre m₁ selection fields,
          objectTy? field.definition.shape resolved.expression.ty = some ty
          ∧ element = placeholder field ty m.next
          ∧ Gives (hooksOf field (hookContext (withArguments scope resolved.arguments).2 resolved)
              ⟨resolved.expression, element, .parameter element⟩) { m with next := m.next + 1 }
              pre m₁
          ∧ Gives (select pre.elementContext
              (elementScope (withArguments scope resolved.arguments).2 resolved element pre)) m₁
              selection m'
          ∧ readFields field (withArguments scope resolved.arguments).2 ty pre selection.fields
              = .ok fields
          ∧ compiled = {
              expression := projected field.definition.shape
                (withArguments scope resolved.arguments).2 pre.collection pre.element
                (finish resolved.materialized key pre.element fields)
              constants := (withArguments scope resolved.arguments).1.extend selection.constants
              deferredServices := selection.deferredServices } := by
  rw [compileResolved_eq]
  unfold hooksOf readFields
  cases hs : field.definition.shape with
  | leaf => exact absurd hs hshape
  | object =>
    obtain rfl : key = none := hkey.2 (by rw [hs]; nofun)
    simp only [compileObject_gives, objectTy?, reduceCtorEq, if_false, gives_pure,
      finish_none, existsAndEq, Option.ite_none_right_eq_some, Option.some.injEq, elementScope_eq,
      Except.ok.injEq, true_and, and_true, exists_and_left]
    rfl
  | list =>
    simp only [compileList_gives, objectTy?, if_true,
      runPostSelection_arranged (hkey.1 hs), projected, isEmpty_finish]
    constructor
    · rintro ⟨ty, element, pre, m₁, selection, m₂, fields, hty, helement, hpre, hselect,
        hfields, hrest⟩
      split at hrest
      · rename_i hempty
        obtain ⟨rfl, rfl⟩ := hrest
        refine ⟨ty, element, pre, m₁, selection, fields, hty, helement, hpre, hselect, hfields, ?_⟩
        rw [if_pos hempty]
      · rename_i hempty
        obtain ⟨_, ⟨rfl, rfl⟩, rfl⟩ := hrest
        refine ⟨ty, element, pre, m₁, selection, fields, hty, helement, hpre, hselect, hfields, ?_⟩
        rw [if_neg hempty, finish, if_neg hempty]
        rfl
    · rintro ⟨ty, element, pre, m₁, selection, fields, hty, helement, hpre, hselect, hfields, rfl⟩
      refine ⟨ty, element, pre, m₁, selection, m', fields, hty, helement, hpre,
        hselect, hfields, ?_⟩
      split
      · exact ⟨rfl, rfl⟩
      · rename_i hempty
        refine ⟨_, ⟨rfl, rfl⟩, ?_⟩
        rw [finish, if_neg hempty]
        rfl

theorem next_of_hooksOf (hdraws : field.definition.Hooks Extension.Draws) {pre' : PreSelection}
    (h : Gives (hooksOf field context pre) m pre' m') : m.next ≤ m'.next := by
  unfold hooksOf at h
  split at h
  · rename_i hlist
    have honward : m.Onward .full .operation m' := onward_of_runPreSelection (hdraws hlist) h
    exact honward.next
  · exact (gives_pure.1 h).2 ▸ Nat.le_refl _

theorem readFields_full (hmode : scope.mode = .full) :
    readFields field scope ty pre fields = .ok fields := by
  unfold readFields
  rw [elementFields_full hmode, ite_self]

theorem adds_readFields (h : readFields field scope ty pre fields = .ok fields') :
    fields.Adds (fun e => ∀ p ∈ e.freeParameters,
      p ∈ pre.elementContext.freeParameters) fields' := by
  unfold readFields at h
  split at h
  · exact adds_elementFields h
  · cases h
    exact .refl _ _

theorem isEmpty_readFields (h : readFields field scope ty pre fields = .ok fields') :
    fields'.isEmpty = fields.isEmpty := by
  cases hempty : fields.isEmpty with
  | false =>
    rw [Bool.eq_false_iff]
    intro h'
    rw [(adds_readFields h).isEmpty h'] at hempty
    cases hempty
  | true =>
    unfold readFields at h
    rw [elementFields_empty hempty, ite_self] at h
    rw [← Except.ok.inj h, hempty]

/-- A field that has been read back: its selection is applied to what was read back, and extensions
do nothing more to it than to read the position back. -/
theorem compileResolved_materialized (hshape : field.definition.shape ≠ .leaf)
    (hkey : field.definition.NumberedBy services key) (hmode : scope.mode = .full) :
    Gives (compileResolved field select ⟨source, true, none⟩ scope) m compiled m'
      ↔ ∃ ty element selection, objectTy? field.definition.shape source.ty = some ty
          ∧ element = placeholder field ty m.next
          ∧ Gives (select (.parameter element) (objectScope scope ⟨source, true, none⟩ element))
              { m with next := m.next + 1 } selection m'
          ∧ compiled = {
              expression := projected field.definition.shape scope source element
                (finish true key element selection.fields)
              constants := Constants.extend {} selection.constants
              deferredServices := selection.deferredServices } := by
  have hhooks : ∀ {pre pre' : PreSelection} {m m' : Memory},
      Gives (hooksOf field (hookContext scope ⟨source, true, none⟩) pre) m pre' m'
        ↔ pre' = pre ∧ m' = m := by
    intro pre pre' m m'
    unfold hooksOf
    split
    · rename_i hlist
      exact runPreSelection_idle fun x hx => (hkey.1 hlist).preSelection_gives rfl x hx
    · exact gives_pure
  rw [compileResolved_gives hshape hkey]
  simp only [withArguments, hhooks, readFields_full hmode, existsAndEq, elementScope_eq,
    Except.ok.injEq, true_and]

theorem get?_withArguments (scope : Scope) :
    ∀ b ∈ arguments, (withArguments scope arguments).1.get? b.1 = some b.2 := by
  rintro b ⟨⟩
  simp [withArguments, Constants.insert, Constants.get?, Assoc.insert, Assoc.find?]

theorem includes_withArguments (scope : Scope) {T : Ty → Prop} {first last : Nat}
    {selected : Constants} (hselected : selected.Drawn T first last)
    (hold : ∀ b ∈ arguments, b.1.id < first) :
    ((withArguments scope arguments).1.extend selected).Includes selected
      ∧ ∀ b ∈ arguments,
        ((withArguments scope arguments).1.extend selected).get? b.1 = some b.2 := by
  refine ⟨Constants.includes_extend_right hselected.nodup, ?_⟩
  rintro b ⟨⟩
  refine Constants.includes_extend_left (fun p hp q hq => ?_) hselected.nodup b.1 b.2 ?_
  · obtain rfl :
      p = b.1 := by simpa [withArguments, Constants.insert, Assoc.keys, Assoc.insert] using hp
    exact Nat.lt_of_lt_of_le (hold b rfl) (hselected.range q hq).1
  · exact get?_withArguments scope b rfl

variable {I : Interpretation} {next : Nat} {record : Option (List (String × Value))} {n : Nat}

theorem sees_bound (source : Expr) :
    (hookContext scope ⟨source, false, bound field record n⟩).Sees
      (record.map fun values => (field.definition.argumentsParameter.ty, values)) where
  types := by cases record <;> rfl
  values := by cases record <;> rfl

theorem boundIn_of_bound (source : Expr) {env : Environment}
    (henv : ∀ b ∈ bound field record n, env b.1 = some b.2) :
    (hookContext scope ⟨source, false, bound field record n⟩).BoundIn env := by
  intro p hp
  cases record with
  | none => cases hp
  | some values =>
    cases hp
    exact henv _ rfl

end Anatomy

/-- The parts of a field that was built from its resolver and has a selection applied to it. -/
structure Anatomy where
  /-- The type of the objects. -/
  ty : Ty
  /-- What the extensions make of what the field resolves to. -/
  window : Value → Option Value
  /-- What the extensions call on what the field resolves to. -/
  calls : List (Method × List Expr)
  /-- The placeholder for an element. -/
  element : Parameter
  /-- The scope that the selection is compiled in. -/
  scope : Scope
  /-- The memory that the selection is compiled from. -/
  memory : Memory
  selection : CompiledSelection
  /-- The fields of the selection, and what the extensions read besides. -/
  fields : SelectionMap

/-- A field that was built from its resolver has these parts. -/
structure Anatomy.Of (I : Interpretation) (field : SelectedField) (select : Select)
    (bound : Option (Parameter × Value)) (source : Expr) (scope : Scope) (m m' : Memory)
    (compiled : Compiled) (a : Anatomy) : Prop where
  objectTy : objectTy? field.definition.shape source.ty = some a.ty
  window : I.window? field = some a.window
  free : ∀ c ∈ a.calls, ∀ e ∈ c.2, ∀ p ∈ e.freeParameters, p ∈ bound.map Prod.fst
  picks : I.key? field = none → ∀ c ∈ a.calls, c.1.picks = true
  calls : ∀ env : Environment, (∀ b ∈ bound, env b.1 = some b.2) → ∀ source : Expr,
    (source.calls a.calls).value? I.services env = (source.value? I.services env).bind a.window
  element_ty : a.element.ty = (View.of (I.key? field)).elementTy a.ty
  element_old : m.next ≤ a.element.id
  element_new : a.element.id < a.memory.next
  fetched : ∀ other, a.memory.fetched.get other = m.fetched.get other
  mode : a.scope.mode = scope.mode
  path : a.scope.path = scope.path
  depth : a.scope.depth = scope.depth
  parameters : a.scope.parameters = a.element :: ((bound.map Prod.fst).toList ++ scope.parameters)
  changed : scope.contextChanged = true → a.scope.contextChanged = true
  selects :
    Gives (select ((View.of (I.key? field)).context a.ty a.element) a.scope) a.memory a.selection m'
  adds : a.selection.fields.Adds (fun e => ∀ p ∈ e.freeParameters, p = a.element) a.fields
  isEmpty : a.fields.isEmpty = a.selection.fields.isEmpty
  full : scope.mode = .full → a.fields = a.selection.fields
  compiled_eq : compiled = {
    expression := projected field.definition.shape (withArguments scope bound).2
      (source.calls a.calls) a.element (finish false (I.key? field) a.element a.fields)
    constants := (withArguments scope bound).1.extend a.selection.constants
    deferredServices := a.selection.deferredServices }

/-- What the first hooks leave: calls of methods on the source, and the placeholder and the context
of an element. -/
theorem arranged_of_hooksOf (hI : I.Regular) (hd : field.definition.Regular I.services next)
    (hrecord : field.record? I.values = some record)
    (hty : objectTy? field.definition.shape source.ty = some ty) (helement : element.ty = ty)
    {m₁ : Memory} (hn : ∀ b ∈ bound field record n, b.1.id < m.next) {pre : PreSelection}
    (h : Gives (hooksOf field (hookContext scope ⟨source, false, bound field record n⟩)
      ⟨source, element, .parameter element⟩) m pre m₁) :
    ∃ f cs k, I.window? field = some f
      ∧ pre = ⟨source.calls cs, elementOf (I.key? field) element k,
          (View.of (I.key? field)).context ty (elementOf (I.key? field) element k)⟩
      ∧ (∀ c ∈ cs, ∀ e ∈ c.2, ∀ p ∈ e.freeParameters, p ∈ (bound field record n).map Prod.fst)
      ∧ (I.key? field = none → ∀ c ∈ cs, c.1.picks = true)
      ∧ (∀ env : Environment, (∀ b ∈ bound field record n, env b.1 = some b.2) →
          ∀ source : Expr,
            (source.calls cs).value? I.services env = (source.value? I.services env).bind f)
      ∧ m.next ≤ m₁.next ∧ ((I.key? field).isSome = true → m.next ≤ k ∧ k < m₁.next)
      ∧ ∀ other, m₁.fetched.get other = m.fetched.get other := by
  subst helement
  have hkey : I.key? field = if field.definition.shape = .list then
      I.number field.definition.extensions else none := rfl
  unfold hooksOf at h
  unfold Interpretation.window?
  by_cases hlist : field.definition.shape = .list
  · rw [if_pos hlist] at h hkey
    rw [hkey]
    have hdraws : ∀ x ∈ field.definition.extensions, x.Draws := fun x hx =>
      ((hI.number (hd.extensions hlist)).builtIn x hx).draws
    rw [hlist] at hty
    have hold : ∀ p ∈ (hookContext scope ⟨source, false, bound field record n⟩).arguments,
        p.id < m.next := by
      intro p hp
      obtain ⟨b, hb, rfl⟩ := Option.map_eq_some_iff.1 hp
      exact hn b hb
    obtain ⟨f, cs, k, hf, rfl, hk, hfree, hpicks, hcalls⟩ :=
      (hI.window (hd.extensions hlist)).acts rfl (sees_bound source) hty hold h
    have honward : m.Onward .full .operation m₁ := onward_of_runPreSelection hdraws h
    refine ⟨f, cs, k, ?_, rfl, hfree, hpicks,
      fun env henv => hcalls env (boundIn_of_bound source henv), honward.next, hk,
        fun other => honward.fetched other (.inl rfl)⟩
    rw [if_pos hlist, hrecord]
    exact hf
  · rw [if_neg hlist] at h hkey
    rw [hkey]
    obtain ⟨rfl, rfl⟩ := gives_pure.1 h
    exact ⟨some, [], 0, if_neg hlist, rfl, forall_mem_nil _,
      fun _ c hc => absurd hc not_mem_nil, fun env _ source => (Option.bind_fun_some _).symm,
      Nat.le_refl _, nofun, fun _ => rfl⟩

theorem elementTy_elementOf (key : Option String) (element : Parameter) (k : Nat) :
    (elementOf key element k).ty = (View.of key).elementTy element.ty := by
  cases key <;> rfl

/-- **A field that was built from its resolver**: its selection is applied to what the extensions
leave of the source. -/
theorem anatomy_of_compileResolved (hI : I.Regular) (hd : field.definition.Regular I.services next)
    (hshape : field.definition.shape ≠ .leaf) (hrecord : field.record? I.values = some record)
    {select : Select} {compiled : Compiled}
    (hn : ∀ b ∈ bound field record n, b.1.id < m.next)
    (h : Gives (compileResolved field select ⟨source, false, bound field record n⟩ scope) m
      compiled m') :
    ∃ a, Anatomy.Of I field select (bound field record n) source scope m m' compiled a := by
  obtain ⟨ty, _, pre, m₁, selection, fields, hty, rfl, hpre, hselect, hfields, rfl⟩ :=
    (compileResolved_gives hshape (hI.numberedBy hd)).1 h
  dsimp only at hpre hselect hfields
  obtain ⟨f, cs, k, hf, rfl, hfree, hpicks, hcalls, hm₁, hk, hfetched⟩ :=
    arranged_of_hooksOf hI hd hrecord hty rfl (fun b hb => Nat.lt_succ_of_lt (hn b hb)) hpre
  have hnew := id_elementOf (placeholder field ty m.next) (Nat.lt_of_succ_le hm₁) hk
  let element := elementOf (I.key? field) (placeholder field ty m.next) k
  let inner := elementScope (withArguments scope (bound field record n)).2
    ⟨source, false, bound field record n⟩ (placeholder field ty m.next)
    ⟨source.calls cs, element, (View.of (I.key? field)).context ty element⟩
  exact ⟨⟨ty, f, cs, element, inner, m₁, selection, fields⟩,
    { objectTy := hty
      window := hf
      free := hfree
      picks := hpicks
      calls := hcalls
      element_ty := elementTy_elementOf _ _ k
      element_old := hnew.1
      element_new := hnew.2
      fetched := hfetched
      mode := mode_withArguments scope _
      path := path_withArguments scope _
      depth := by cases record <;> rfl
      parameters := by cases record <;> rfl
      changed := changed_elementScope
      selects := hselect
      adds := (adds_readFields hfields).imp fun e he p hp =>
        (View.readsOf_context _ _ _).mem_freeParameters_iff.1 (he p hp)
      isEmpty := isEmpty_readFields hfields
      full := fun hmode => by
        rw [readFields_full ((mode_withArguments _ _).trans hmode)] at hfields
        exact (Except.ok.inj hfields).symm
      compiled_eq := rfl }⟩

end Compiler
end QueryProjection
