import QueryProjection.Proofs.Compile.Closed
import QueryProjection.Proofs.Grammar
import QueryProjection.Proofs.WellTyped

/-!
# What binding a document gives

Every field of a bound document is a field of the schema, and has selections below it only if its
type has fields: `Document.every_of_parse`.  The values of its arguments hold no lazy sequence, if
those that are supplied for variables hold none: `SelectedField.BoundIn.given`.
-/

namespace QueryProjection

open List SelectedField Selection WrittenSelection

/-- The field is one of an object type of the schema. -/
def Schema.Defines (schema : Schema) (definition : FieldDefinition) : Prop :=
  ∃ type ∈ schema.types, ∃ field ∈ type.2.fields, field.2 = definition

/-- The type is one of the object types of the schema. -/
def Schema.HasType (schema : Schema) (type : ObjectType) : Prop :=
  ∃ name, (name, type) ∈ schema.types

/-- What binding gives for a field and the selections below it. -/
structure SelectedField.BoundIn (schema : Schema) (field : SelectedField)
    (selections : List Selection) : Prop where
  defined : schema.Defines field.definition
  arguments : ∀ a ∈ field.arguments, a.2.Eager
  selections : selections ≠ [] → field.definition.outputType?.isSome = true

variable {document : Document} {schema : Schema}

namespace Binder

variable {schema : Schema}

variable {type : ObjectType} {definitions : Definitions} {name : Option String}

theorem hasType_of_objectType? {name : String} (h : schema.objectType? name = some type) :
    schema.HasType type :=
  ⟨name, Assoc.mem_of_find? h⟩

mutual

theorem every_of_binds : ∀ {parent : ObjectType} {written : WrittenSelection} {bound : Selection},
    Binds schema parent written bound → schema.HasType parent → written.Eager →
      bound.Every (BoundIn schema)
  | parent, _, _, .leaf own, ⟨_, hparent⟩, hw => by
    rw [Eager] at hw
    rw [Every]
    exact ⟨⟨⟨_, hparent, _, Assoc.mem_of_find? own, rfl⟩, hw.1, absurd rfl⟩, trivial⟩
  | parent, _, _, .field own _ ⟨_, hyields, houtput⟩ hbelow, ⟨_, hparent⟩, hw => by
    rw [Eager] at hw
    rw [Every]
    refine ⟨⟨⟨_, hparent, _, Assoc.mem_of_find? own, rfl⟩, hw.1, fun _ => ?_⟩,
      every_of_bindsAll hbelow (hasType_of_objectType? houtput) hw.2⟩
    rw [FieldDefinition.outputType?_eq_some_iff.2 hyields]
    rfl
  | _, _, _, .spread, _, _ => trivial
  | parent, .inline condition _ _, _, .inline henters hbelow, hparent, hw => by
    rw [Eager] at hw
    rw [Every]
    refine every_of_bindsAll hbelow ?_ hw
    cases condition with
    | none => exact henters ▸ hparent
    | some named => exact hasType_of_objectType? henters

theorem every_of_bindsAll : ∀ {parent : ObjectType} {written : List WrittenSelection}
    {bound : List Selection}, BindsAll schema parent written bound → schema.HasType parent →
      EagerAll written → EveryIn (BoundIn schema) bound
  | _, _, _, .nil, _, _ => trivial
  | _, _, _, .cons hfirst hrest, hparent, hw =>
    ⟨every_of_binds hfirst hparent hw.1, every_of_bindsAll hrest hparent hw.2⟩

end

/-- What is written in the definitions is eager. -/
structure Definitions.Eager (definitions : Definitions) : Prop where
  operations : ∀ o ∈ definitions.operations, (WrittenDefinition.operation o).Eager
  fragments : ∀ f ∈ definitions.fragments, (WrittenDefinition.fragment f).Eager

theorem Definitions.Eager.add {extended : Definitions} (hd : definitions.Eager)
    {written : WrittenDefinition} (hw : written.Eager)
    (h : definitions.add written = .ok extended) : extended.Eager := by
  have hoperation : ∀ {o : WrittenOperation}, (WrittenDefinition.operation o).Eager →
      { definitions with operations := definitions.operations ++ [o] }.Eager := fun ho =>
    ⟨fun o' ho' => (mem_append.1 ho').elim (hd.operations o') fun h =>
      mem_singleton.1 h ▸ ho, hd.fragments⟩
  cases written with
  | operation o =>
    simp only [Definitions.add] at h
    split at h
    · exact Except.ok.inj h ▸ hoperation hw
    · cases h
    · split at h
      · cases h
      · split at h
        · cases h
        · exact Except.ok.inj h ▸ hoperation hw
  | fragment f =>
    simp only [Definitions.add] at h
    split at h
    · cases h
    · refine Except.ok.inj h ▸ ⟨hd.operations, fun f' hf' => ?_⟩
      exact (mem_append.1 hf').elim (hd.fragments f') fun h => mem_singleton.1 h ▸ hw

theorem Definitions.eager_of_foldlM : ∀ (written : List WrittenDefinition) {definitions result :
    Definitions}, definitions.Eager → (∀ d ∈ written, d.Eager) →
      written.foldlM Definitions.add definitions = .ok result → result.Eager
  | [], definitions, result, hd, _, h => by
    cases h
    exact hd
  | first :: rest, definitions, result, hd, hw, h => by
    rw [foldlM_cons] at h
    obtain ⟨next, hnext, h⟩ := bind_eq_ok_iff.1 h
    exact eager_of_foldlM rest (hd.add (hw first mem_cons_self) hnext)
      (fun d hd => hw d (mem_cons_of_mem _ hd)) h

theorem Definitions.eager_of_ofList {written : List WrittenDefinition} (hw : ∀ d ∈ written, d.Eager)
    (h : Definitions.ofList written = .ok definitions) : definitions.Eager := by
  have hnone : ({} : Definitions).Eager :=
    ⟨forall_mem_nil _, forall_mem_nil _⟩
  obtain ⟨found, hfound, h⟩ := bind_eq_ok_iff.1 h
  dsimp only at h
  split at h
  · cases h
  · cases h
    exact eager_of_foldlM written hnone hw hfound

theorem mem_of_chooseOperation {operations : List WrittenOperation} {operation : WrittenOperation}
    (h : chooseOperation operations name = .ok operation) : operation ∈ operations := by
  unfold chooseOperation at h
  split at h
  · split at h
    · rename_i found hfound
      exact Except.ok.inj h ▸ mem_of_find?_eq_some hfound
    · cases h
  · split at h
    · exact Except.ok.inj h ▸ mem_cons_self
    · cases h
    · cases h

theorem every_of_bind (hd : definitions.Eager) (h : bind schema definitions name = .ok document) :
    document.Every (BoundIn schema) ∧ ∀ d ∈ document.declarations, d.Eager := by
  obtain ⟨operation, hoperation, hrest⟩ := bind_eq_ok_iff.1 h
  obtain ⟨hdeclarations, hwritten⟩ := hd.operations operation (mem_of_chooseOperation hoperation)
  by_cases hquery : operation.kind = .query
  · have haccepts : Accepts _ _ (bind schema definitions name) := accepts_bind hoperation hquery
    rw [h] at haccepts
    obtain ⟨-, -, hsame, ⟨root, hroot, hselections⟩, hfragments⟩ := haccepts
    refine ⟨⟨every_of_bindsAll hselections (hasType_of_objectType? hroot) hwritten, fun f hf => ?_⟩,
      hsame ▸ hdeclarations⟩
    obtain ⟨written, hmem, type, htype, below, rfl, hbelow⟩ := exists_mem_of_forall₂ hfragments hf
    exact every_of_bindsAll hbelow (hasType_of_objectType? htype) (hd.fragments written hmem)
  · rw [if_pos hquery] at hrest
    cases hrest

end Binder

/-- **Documents are bound against the schema.**  Every field of a document that was read is a field
of the schema, and has selections below it only if its type has fields; and what is written in it is
eager. -/
theorem Document.every_of_parse {text : String} {operation : Option String}
    (h : Document.parse schema text operation = .ok document) :
    document.Every (BoundIn schema) ∧ ∀ d ∈ document.declarations, d.Eager := by
  unfold Document.parse at h
  split at h
  · cases h
  · cases h
  · cases h
  · rename_i written hwritten
    obtain ⟨definitions, hdefinitions, h⟩ := bind_eq_ok_iff.1 h
    exact Binder.every_of_bind
      (Binder.Definitions.eager_of_ofList (Grammar.eager_of_parse hwritten) hdefinitions) h

/-- The values of the arguments of a bound field are eager, if the variables stand for eager
values. -/
theorem SelectedField.BoundIn.given {field : SelectedField} {selections : List Selection}
    (h : field.BoundIn schema selections) {values : VariableValues} (hvalues : values.Eager) :
    field.Given Value.Eager values :=
  fun a ha _ hv => VariableValues.eager_of_resolve hvalues a.2 (h.arguments a ha) hv

end QueryProjection
