import QueryProjection.Proofs.Compile.Failure
import QueryProjection.Proofs.Isolation
import QueryProjection.Proofs.Rearranged.Document
import QueryProjection.Proofs.TwoPass.Refinement

/-!
# Responses to rearranged documents

The response to a document says for each field of the operation whether it failed, by the path of an
error, and what its value is if it did not: `Response.answer?`.  The responses to a document and to
a rearranged one have related answers, `Executor.answers_of_rearranged`.

A failed field is null in the data, and so may be one that is answered; only the errors tell them
apart.  An error is reported at its field or below it, and the fields of an operation have different
keys, so it tells which of them failed.  Which error it is may differ between the two documents,
because fields in another order fail in another order.
-/

namespace QueryProjection

open Expansion List

open FieldPath

/-! ## Where errors are reported -/

theorem ExpansionError.below_at (error : ExpansionError) (path : FieldPath) :
    path.Below (error.at path).path := by
  obtain ⟨key, cause⟩ := error
  cases key with
  | none => cases cause <;> exact .refl path
  | some key => cases cause <;> exact (FieldPath.Below.refl path).child key

namespace Executor

variable {executor : Executor} {compiler : Compiler} {root : RootField} {data : Value} {m : Memory}

theorem below_of_compiling (next : Nat) {mode : Mode} {source : RootSource} :
    FailsWith (fun e => (FieldPath.root root.responseKey).Below e.path)
      (compiling next (compiler.compileRoot executor.schema root mode source)) m := by
  intro e he
  have hfails : FailsWith (fun e => (FieldPath.root root.responseKey).Below e.path)
      (compiler.compileRoot executor.schema root mode source) { m with next } :=
    Compiler.failsWith_compileRoot (fun _ h _ => h)
      (fun _ _ error _ path hpath => hpath.trans (error.below_at path)) (.refl _)
  rw [outcome_compiling] at he
  cases hresult :
    (outcome (compiler.compileRoot executor.schema root mode source) { m with next }).1 with
  | ok a =>
    rw [hresult] at he
    cases he
  | error e' =>
    rw [hresult] at he
    cases he
    exact hfails e' hresult

theorem below_of_evaluate (env : Environment) (e : Expr) :
    FailsWith (fun e => (FieldPath.root root.responseKey).Below e.path)
      (executor.evaluate (.root root.responseKey) env e) m := by
  intro error herror
  rw [outcome_evaluate] at herror
  cases hresult : (executor.evaluation env e).result with
  | ok v =>
    rw [hresult] at herror
    cases herror
  | error e' =>
    rw [hresult] at herror
    cases herror
    exact .refl _

theorem below_of_runDirect :
    FailsWith (fun e => (FieldPath.root root.responseKey).Below e.path)
      (executor.runDirect compiler root data) m := by
  unfold runDirect
  refine FailsWith.bind (below_of_compiling _) fun compiled m₁ _ => ?_
  cases compiled with
  | none => exact failsWith_pure _ _
  | some compiled => exact below_of_evaluate _ _

theorem below_of_executeRoot :
    FailsWith (fun e => (FieldPath.root root.responseKey).Below e.path)
      (executor.executeRoot compiler root data) m := by
  unfold executeRoot
  refine FailsWith.bind (below_of_compiling _) fun fetch m₁ _ => ?_
  cases fetch with
  | none => exact below_of_runDirect
  | some fetch =>
    dsimp only
    split
    · unfold runFetched
      refine FailsWith.bind (below_of_evaluate _ _) fun fetched m₂ _ => ?_
      refine FailsWith.bind (below_of_compiling _) fun compiled m₃ _ => ?_
      cases compiled with
      | none => exact failsWith_pure _ _
      | some compiled => exact below_of_evaluate _ _
    · exact below_of_runDirect

end Executor

/-! ## Answers -/

namespace Response

/-- Whether an error is reported at the field of the operation with this key, or below it. -/
def fails (response : Response) (key : String) : Bool :=
  response.errors.any fun e => e.path.keys.head? == some key

/-- What the response has for the field of the operation with this key, if that did not fail. -/
def answer? (response : Response) (key : String) : Option Value :=
  if response.fails key then none else Assoc.find? key response.data

variable {response : Response} {key : String}

theorem fails_iff :
    response.fails key = true ↔ ∃ e ∈ response.errors, (root key).Below e.path := by
  rw [fails, any_eq_true]
  refine exists_congr fun e => and_congr_right fun _ => ?_
  rw [below_root_iff, beq_iff_eq, head?_eq_some_iff]

theorem answer?_of_notMem (h : key ∉ response.data.map Prod.fst) : response.answer? key = none := by
  have hfind : Assoc.find? key response.data = none := by
    refine Option.eq_none_iff_forall_ne_some.2 fun v hv => h ?_
    exact mem_map_of_mem (Assoc.mem_of_find? hv)
  rw [answer?, hfind, ite_self]

end Response

/-- The field of an operation that stands for an expanded field with a response key of its own. -/
def Expanded.root (e : Expanded) : RootField :=
  ⟨e.field.responseKey, e⟩

theorem Text.Apart.nodup {keys : List String} (h : Text.Apart keys) : keys.Nodup := by
  refine List.Pairwise.imp (fun {a b} hab heq => ?_) h
  rw [heq, Text.sameIgnoringCase_refl] at hab
  cases hab

variable {document : Document} {fields : List Expanded} {data : Value}

theorem Compiler.rootFields_of_apart {expansion : Expansion}
    (hfields : expansion.expandAll [] document.selections = .ok fields)
    (happart : Text.Apart (fields.map Expanded.responseKey)) :
    rootFields expansion document = .ok (fields.map Expanded.root) := by
  obtain ⟨roots, hroots, hmerge⟩ := rootFields_of_expandAll hfields
  have hkeys : (fields.map Expanded.entry).map Prod.fst = fields.map Expanded.responseKey := by
    rw [map_map]
    rfl
  rw [Merge.merge_of_apart (hkeys ▸ happart)] at hmerge
  refine hroots.trans (congrArg Except.ok ?_)
  have hinj : Function.Injective RootField.entry := by
    rintro ⟨key, field⟩ ⟨key', field'⟩ h
    cases h
    rfl
  refine map_injective_iff.2 hinj (hmerge.trans ?_)
  rw [map_map]
  rfl

namespace Executor

section Answers

variable {executor : Executor} {document : Document} {supplied : Variables} {data : Value}
  {fields : List Expanded}
  (hfields : (ofDocument document supplied).expandAll [] document.selections = .ok fields)
  (happart : Text.Apart (fields.map Expanded.responseKey))
  (hplain : ∀ f ∈ fields, f.Every fun field _ => field.definition.extensions = [])

include hfields happart hplain

theorem execute_eq_alone :
    (executor.execute document supplied data).1
      = { data := (fields.map Expanded.root).map
            (executor.entryAlone (executor.compilerFor document supplied) data)
          errors := (fields.map Expanded.root).filterMap
            (executor.errorAlone (executor.compilerFor document supplied) data) } := by
  refine (execute_eq_executeRoots (Compiler.rootFields_of_apart hfields happart)).trans
    (executeRoots_eq_alone (fun root hroot => ?_) ?_ fun _ _ _ _ => rfl)
  · obtain ⟨f, hf, rfl⟩ := mem_map.1 hroot
    exact (hplain f hf).imp fun _ _ hnil x hx => by
      rw [hnil] at hx
      cases hx
  · rw [map_map]
    exact happart.nodup

theorem answer?_eq_alone {f : Expanded} (hf : f ∈ fields) :
    (executor.execute document supplied data).1.answer? f.field.responseKey
      = (executor.alone (executor.compilerFor document supplied) data f.root).toOption := by
  have hresponse : (executor.execute document supplied data).1 = _ :=
    execute_eq_alone hfields happart hplain
  have hsame : ∀ f' ∈ fields, f'.field.responseKey = f.field.responseKey → f' = f := by
    intro f' hf' hkey
    exact inj_on_of_nodup_map happart.nodup hf' hf hkey
  have hfind : Assoc.find? f.field.responseKey (executor.execute document supplied data).1.data
      = some ((executor.alone (executor.compilerFor document supplied) data f.root).toOption.getD
          .null) := by
    rw [hresponse, map_map]
    refine Assoc.find?_of_mem ?_ (mem_map.2 ⟨f, hf, rfl⟩)
    rw [Assoc.keys, map_map]
    exact happart.nodup
  have hfails : (executor.execute document supplied data).1.fails f.field.responseKey = true
      ↔ ∃ e, executor.alone (executor.compilerFor document supplied) data f.root = .error e := by
    rw [Response.fails_iff, hresponse]
    constructor
    · rintro ⟨e, he, hbelow⟩
      obtain ⟨root, hroot, herror⟩ := mem_filterMap.1 he
      obtain ⟨f', hf', rfl⟩ := mem_map.1 hroot
      have halone :
          executor.alone (executor.compilerFor document supplied) data f'.root = .error e := by
        unfold errorAlone at herror
        split at herror
        · cases herror
        · rename_i h
          rw [h, Option.some.inj herror]
      have hbelow' : (root f'.field.responseKey).Below e.path := below_of_executeRoot e halone
      obtain ⟨_, hkeys⟩ := below_root_iff.1 hbelow
      obtain ⟨_, hkeys'⟩ := below_root_iff.1 hbelow'
      have hkey := (cons.inj (hkeys'.symm.trans hkeys)).1
      exact ⟨e, hsame f' hf' hkey ▸ halone⟩
    · rintro ⟨e, he⟩
      refine ⟨e, mem_filterMap.2 ⟨f.root, mem_map_of_mem hf, ?_⟩, below_of_executeRoot e he⟩
      rw [errorAlone, he]
  rw [Response.answer?, hfind]
  cases halone : executor.alone (executor.compilerFor document supplied) data f.root with
  | ok v =>
    rw [halone] at hfails
    rw [if_neg (fun h => by obtain ⟨e, he⟩ := hfails.1 h; cases he)]
    rfl
  | error e =>
    rw [halone] at hfails
    rw [if_pos (hfails.2 ⟨e, rfl⟩)]
    rfl

theorem data_eq_answers :
    (executor.execute document supplied data).1.data = fields.map fun f =>
      (f.field.responseKey,
        ((executor.execute document supplied data).1.answer? f.field.responseKey).getD .null) := by
  have hanswers : (fields.map fun f => (f.field.responseKey,
        ((executor.execute document supplied data).1.answer? f.field.responseKey).getD .null))
      = fields.map fun f => executor.entryAlone
        (executor.compilerFor document supplied) data f.root := by
    refine map_congr_left fun f hf => ?_
    rw [answer?_eq_alone hfields happart hplain hf]
    rfl
  rw [hanswers, execute_eq_alone hfields happart hplain, map_map]
  rfl

end Answers

theorem execute_of_error {executor : Executor} {supplied : Variables} {error : ExpansionError}
    (h : (ofDocument document supplied).expandAll [] document.selections = .error error) :
    (executor.execute document supplied data).1.data = [] := by
  have hroots : Compiler.rootFields (.ofDocument document supplied) document
      = .error (error.at .operation) := by
    rw [Compiler.rootFields, h]
  simp only [execute, hroots]

end Executor

/-- What is assumed of a schema without extensions: its parameters have the types and numbers that
they are built with, and its fields are regular. -/
structure Schema.Plain (services : Provider) (schema : Schema) : Prop where
  context_ty : schema.context.ty.IsObject
  context_id : schema.context.id < schema.next
  fields : ∀ definition, schema.Defines definition → definition.Regular services schema.next
  extensions : ∀ definition, schema.Defines definition → definition.extensions = []

namespace Executor

section Rearranged

variable {executor : Executor} (hschema : executor.schema.Plain executor.services)
  {document document' : Document} (hbound : document.Every (SelectedField.BoundIn executor.schema))
  {r : Rearrangement} (hrearranged : document.Rearranged r document') {supplied : Variables}
  (hunambiguous : document.Unambiguous supplied) (hunambiguous' : document'.Unambiguous supplied)

include hschema hbound

theorem simple_of_expandAll
    (hfields : (ofDocument document supplied).expandAll [] document.selections
      = .ok fields) :
    ∀ f ∈ fields, f.Every (SelectedField.Simple executor.services executor.schema.next) :=
  fun f hf => (every_of_expandAll hbound hfields f hf).imp fun _ _ h =>
    ⟨⟨hschema.fields _ h.defined, h.selections⟩, hschema.extensions _ h.defined⟩

include hrearranged

theorem simple_of_rearranged {fields' : List Expanded}
    (hfields' : (ofDocument document' supplied).expandAll [] document'.selections
      = .ok fields') :
    ∀ f ∈ fields', f.Every (SelectedField.Simple executor.services executor.schema.next) := by
  intro f' hf'
  obtain ⟨fields, _, hfields, hok, harranged⟩ | ⟨_, _, -, herror⟩ :=
    Option.rel_toOption (hrearranged.expandAll supplied)
  · obtain rfl := Except.ok.inj (hfields'.symm.trans hok)
    obtain ⟨f, hf, hmatched⟩ := harranged.exists_left hf'
    refine hmatched.every (fun hm h => ?_) (simple_of_expandAll hschema hbound hfields f hf)
    exact ⟨⟨hm.definition.symm ▸ h.definition, hm.definition.symm ▸ h.selections⟩,
      hm.definition.symm ▸ h.extensions⟩
  · rw [herror] at hfields'
    cases hfields'

include hunambiguous hunambiguous'

/-- **Responses to rearranged documents.**  Both documents cannot be expanded, or they expand to
matched fields with related answers. -/
theorem answers_of_rearranged {V : Expanded → Expanded → Value → Value → Prop} (hV : r.Relates V)
    (hservices : executor.services.Keep Value.Eager) (hdata : data.Eager) :
    Option.Rel (r.Arranged fun f f' => f.Matched r f' ∧ Option.Rel (V f f')
        ((executor.execute document supplied data).1.answer? f.field.responseKey)
        ((executor.execute document' supplied data).1.answer? f'.field.responseKey))
      ((ofDocument document supplied).expandAll [] document.selections).toOption
      ((ofDocument document' supplied).expandAll [] document'.selections).toOption := by
  obtain ⟨fields, fields', hfields, hfields', harranged⟩ | ⟨_, _, herror, herror'⟩ :=
    Option.rel_toOption (hrearranged.expandAll supplied)
  · obtain ⟨happart, hbelow⟩ := hunambiguous fields hfields
    obtain ⟨happart', hbelow'⟩ := hunambiguous' fields' hfields'
    have hsimple := simple_of_expandAll hschema hbound hfields
    have hsimple' := simple_of_rearranged hschema hbound hrearranged hfields'
    have hcompiler :
        executor.compilerFor document' supplied = executor.compilerFor document supplied := by
      rw [compilerFor, compilerFor, hrearranged.declarations]
    obtain ⟨I, hservices', hvalues, hbase, hI⟩ :=
      exists_interpretation hservices hdata (executor.compilerFor document supplied).values
    have halone :
        ∀ {f : Expanded}, f.Every (SelectedField.Simple executor.services executor.schema.next) →
          f.Unambiguous → ∀ v,
          (executor.alone (executor.compilerFor document supplied) data f.root).toOption = some v
            ↔ f.Answers (executor.compilerFor document supplied) I executor.schema.context v := by
      intro f hsimple hf v
      have hroot : f.root.field.Every (SelectedField.Simple I.services executor.schema.next) :=
        hservices'.symm ▸ hsimple
      rw [alone, ← exists_gives_iff]
      exact exists_gives_executeRoot_iff hschema.context_ty hschema.context_id hI
        hservices' hvalues hbase hroot hf
    rw [hfields, hfields']
    refine .some (harranged.imp_of_mem fun f hf f' hf' hmatched => ⟨hmatched, ?_⟩)
    rw [answer?_eq_alone hfields happart (fun f hf => (hsimple f hf).imp fun _ _ h =>
      h.extensions) hf, answer?_eq_alone hfields' happart'
        (fun f hf => (hsimple' f hf).imp fun _ _ h => h.extensions) hf',
      hcompiler]
    exact hmatched.answers hV (halone (hsimple f hf) (hbelow f hf))
      (halone (hsimple' f' hf') (hbelow' f' hf'))
  · rw [herror, herror']
    exact .none

end Rearranged

/-! ## An example -/

/-- A document that is read and passes a test. -/
theorem exists_of_parse {schema : Schema} {text : String} {passes : Document → Bool}
    (h : (Document.parse schema text none).toOption.any passes = true) :
    ∃ document, Document.parse schema text none = .ok document ∧ passes document = true := by
  cases hparse : Document.parse schema text none with
  | error error =>
    rw [hparse] at h
    cases h
  | ok document =>
    rw [hparse] at h
    exact ⟨document, rfl, h⟩

namespace Neighbours

/-- People are greeted, and there are no extensions. -/
def greeted : Executor := greeter [nick] []

def acquaintances : String :=
  "\x7b people \x7b called: name ...Greeted \x7d \x7d
   fragment Greeted on Person \x7b greeting friends \x7b greeting \x7d \x7d"

/-- The people with their greetings. -/
def greetings : String :=
  "\x7bpeople: [\x7bcalled: \"Bob\", greeting: [\"B\"], friends: null\x7d, \x7bcalled: \"Ada\", "
    ++ "greeting: [\"A\"], friends: [\x7bgreeting: [\"E\"]\x7d]\x7d]\x7d"

theorem plain_greeted : greeted.schema.Plain greeted.services :=
  have hregular : greeted.schema.Regular greeted.services :=
    regular_directory ⟨none, forall_mem_nil _⟩
      fun x hx => absurd hx not_mem_nil
  { context_ty := hregular.context_ty
    context_id := hregular.context_id
    fields := hregular.fields
    extensions := fun definition hd => by
      rcases cases_of_defines hd with rfl | ⟨member, ty, rfl⟩ | rfl <;> rfl }

end Neighbours

end Executor
end QueryProjection
