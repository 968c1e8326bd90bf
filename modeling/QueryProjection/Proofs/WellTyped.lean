import QueryProjection.Document.Bind
import QueryProjection.Proofs.Assoc

/-!
# Binding accepts the well-typed documents

Binding looks every field up in the type it is selected on.  Whether it succeeds can be said without
it, by a walk through what is written (`WrittenSelection.WellTyped`), and so can what it gives
(`WrittenSelection.Binds`).  Binding goes below a field by its output type, while the compiler goes
by its shape; a field whose shape has nothing below is never bound with selections.

* `Binder.accepts_bindSelections` is the result for a selection set, `Binder.bind_iff_wellTyped`
  that for a document.

`WrittenSelection.WellTyped` has no result to speak of, so it can be read as the typing rules; what
binding gives is said apart from them.  A spread is well typed whatever it names.  The fragment may
be missing, which is found out when the spread is expanded, and if it is there, it is bound by
itself, once, on the type of its condition.
-/

namespace QueryProjection

open List

/-! ## What is well typed -/

/-- Values of the type are objects of the type of this name, or lists or dictionaries of them. -/
inductive Ty.Yields (name : String) : Ty → Prop
  | object : Yields name (.object name)
  | list : Yields name (.list (.object name))
  | map : Yields name (.map (.object name))

/-- The type of the schema that the selections of a field are on. -/
def Schema.Outputs (schema : Schema) (definition : FieldDefinition) (type : ObjectType) : Prop :=
  ∃ name, definition.resolve.ty.Yields name ∧ schema.objectType? name = some type

/-- The type that the selections of an inline fragment are on: that of its condition, or else the
type around it. -/
def Schema.Enters (schema : Schema) (parent : ObjectType) :
    Option (Location × String) → ObjectType → Prop
  | none, type => type = parent
  | some (_, name), type => schema.objectType? name = some type

namespace FieldDefinition

variable {definition : FieldDefinition} {name : String}

theorem outputType?_eq_some_iff :
    definition.outputType? = some name ↔ definition.resolve.ty.Yields name := by
  have hname : ∀ {ty : Ty}, ty.objectName? = some name ↔ ty = .object name := by
    intro ty
    cases ty <;> simp [Ty.objectName?]
  unfold outputType?
  constructor
  · cases definition.resolve.ty with
    | object => exact fun h => Option.some.inj h ▸ .object
    | list item => exact fun h => hname.1 h ▸ .list
    | map item => exact fun h => hname.1 h ▸ .map
    | _ => exact nofun
  · intro h
    generalize definition.resolve.ty = ty at h
    cases h <;> rfl

theorem shape_ne_leaf (h : definition.resolve.ty.Yields name) : definition.shape ≠ .leaf := by
  unfold shape
  generalize definition.resolve.ty = ty at h
  cases h <;> simp [Ty.isComposite]

end FieldDefinition

namespace WrittenSelection

mutual

/-- What is written is well typed on the type: the types it names are types of the schema, the
fields are fields of the types they are selected on, and what has fields of its own is of a type
that has some. -/
def WellTyped (schema : Schema) (parent : ObjectType) : WrittenSelection → Prop
  | .field _ _ name _ _ selections => ∃ definition, parent.field? name = some definition
      ∧ (selections ≠ [] → ∃ type, schema.Outputs definition type
        ∧ WellTypedAll schema type selections)
  | .spread _ _ => True
  | .inline condition _ selections => ∃ type, schema.Enters parent condition type
      ∧ WellTypedAll schema type selections

/-- The same for a selection set. -/
def WellTypedAll (schema : Schema) (parent : ObjectType) : List WrittenSelection → Prop
  | [] => True
  | first :: rest => first.WellTyped schema parent ∧ WellTypedAll schema parent rest

end

mutual

/-- The one is what the other is bound to: a field has the definition that its type gives for the
name, and the alias or else the name as its response key.  If it has selections, it is not of leaf
shape, and they are bound against its output type. -/
inductive Binds (schema : Schema) : ObjectType → WrittenSelection → Selection → Prop
  | leaf {parent : ObjectType} {definition : FieldDefinition} {location : Location}
      {key : Option String} {name : String} {arguments : List (String × ArgumentValue)}
      {directives : List Directive} (own : parent.field? name = some definition) :
      Binds schema parent (.field location key name arguments directives [])
        (.field ⟨key.getD name, definition, arguments⟩ directives [])
  | field {parent type : ObjectType} {definition : FieldDefinition} {location : Location}
      {key : Option String} {name : String} {arguments : List (String × ArgumentValue)}
      {directives : List Directive} {selections : List WrittenSelection} {below : List Selection}
      (own : parent.field? name = some definition) (shape : definition.shape ≠ .leaf)
      (outputs : schema.Outputs definition type) (bound : BindsAll schema type selections below) :
      Binds schema parent (.field location key name arguments directives selections)
        (.field ⟨key.getD name, definition, arguments⟩ directives below)
  | spread {parent : ObjectType} {name : String} {directives : List Directive} :
      Binds schema parent (.spread name directives) (.spread name directives)
  | inline {parent type : ObjectType} {condition : Option (Location × String)}
      {directives : List Directive} {selections : List WrittenSelection} {below : List Selection}
      (enters : schema.Enters parent condition type)
        (bound : BindsAll schema type selections below) :
      Binds schema parent (.inline condition directives selections)
        (.inline (condition.map fun _ => type.name) directives below)

/-- The same for a selection set. -/
inductive BindsAll (schema : Schema) : ObjectType → List WrittenSelection → List Selection → Prop
  | nil {parent : ObjectType} : BindsAll schema parent [] []
  | cons {parent : ObjectType} {first : WrittenSelection} {rest : List WrittenSelection}
      {bound : Selection} {others : List Selection} (head : Binds schema parent first bound)
      (tail : BindsAll schema parent rest others) :
      BindsAll schema parent (first :: rest) (bound :: others)

end

end WrittenSelection

open WrittenSelection

/-- The fragment is well typed on the type of its condition. -/
def WrittenFragment.WellTyped (schema : Schema) (fragment : WrittenFragment) : Prop :=
  ∃ type, schema.objectType? fragment.typeCondition = some type
    ∧ WellTypedAll schema type fragment.selections

/-- The one is what the other is bound to, against the type of its condition. -/
def WrittenFragment.Binds (schema : Schema) (fragment : WrittenFragment)
    (bound : String × Fragment) : Prop :=
  ∃ type, schema.objectType? fragment.typeCondition = some type
    ∧ ∃ below, bound = (fragment.name, ⟨fragment.name, type.name, below⟩)
      ∧ BindsAll schema type fragment.selections below

/-! ## What is accepted -/

namespace Binder

variable {schema : Schema} {α β γ : Type} {W V : Prop} {B : α → Prop} {C : β → Prop}
  {x : Except BindError α} {T : ObjectType → Prop} {found : Except BindError ObjectType}

/-- There is a result exactly if `W` holds, and `B` holds of it. -/
def Accepts (W : Prop) (B : α → Prop) : Except BindError α → Prop
  | .ok a => W ∧ B a
  | .error _ => ¬ W

/-- The type that is found is the one with the property, and none is found if none has it. -/
def Finds (T : ObjectType → Prop) : Except BindError ObjectType → Prop
  | .ok type => ∀ other, T other ↔ other = type
  | .error _ => ∀ other, ¬ T other

theorem Accepts.exists_iff (h : Accepts W B x) : (∃ a, x = .ok a) ↔ W := by
  cases x with
  | ok a => exact ⟨fun _ => h.1, fun _ => ⟨a, rfl⟩⟩
  | error e => exact ⟨nofun, fun hW => absurd hW h⟩

theorem Accepts.map {g : α → β} (hx : Accepts W B x) (hC : ∀ a, B a → C (g a)) :
    Accepts W C (x >>= fun a => pure (g a)) := by
  cases x with
  | ok a => exact ⟨hx.1, hC a hx.2⟩
  | error e => exact hx

theorem Accepts.and {y : Except BindError β} {g : α → β → γ} {D : γ → Prop} (hx : Accepts W B x)
    (hy : Accepts V C y) (hD : ∀ a b, B a → C b → D (g a b)) :
    Accepts (W ∧ V) D (x >>= fun a => y >>= fun b => pure (g a b)) := by
  cases x with
  | error e => exact fun h => hx h.1
  | ok a =>
    cases y with
    | ok b => exact ⟨⟨hx.1, hy.1⟩, hD a b hx.2 hy.2⟩
    | error e => exact fun h => hy h.2

theorem Finds.bind {f : ObjectType → Except BindError α} {W : ObjectType → Prop}
    (hfound : Finds T found) (hf : ∀ type, T type → Accepts (W type) B (f type)) :
    Accepts (∃ type, T type ∧ W type) B (found >>= f) := by
  cases found with
  | error e => exact fun ⟨type, htype, _⟩ => hfound type htype
  | ok type =>
    have htype := (hfound type).2 rfl
    have h := hf type htype
    change Accepts _ B (f type)
    cases hresult : f type with
    | ok a =>
      rw [hresult] at h
      exact ⟨⟨type, htype, h.1⟩, h.2⟩
    | error e =>
      rw [hresult] at h
      exact fun ⟨other, hother, hW⟩ => h ((hfound other).1 hother ▸ hW)

theorem finds_objectType (name : String) (location : Location) :
    Finds (schema.objectType? name = some ·) (objectType schema name location) := by
  unfold objectType
  cases schema.objectType? name with
  | some type => exact fun other => ⟨fun h => (Option.some.inj h).symm, fun h => h ▸ rfl⟩
  | none => exact fun _ => nofun

theorem finds_outputType (definition : FieldDefinition) (name : String) (location : Location) :
    Finds (schema.Outputs definition) (outputType schema definition name location) := by
  unfold outputType Schema.Outputs
  simp only [← FieldDefinition.outputType?_eq_some_iff]
  cases definition.outputType? with
  | none => exact fun _ => nofun
  | some output => simpa using finds_objectType output location

mutual

theorem accepts_bindSelection : ∀ (written : WrittenSelection) (parent : ObjectType),
    Accepts (written.WellTyped schema parent) (written.Binds schema parent)
      (bindSelection schema parent written)
  | .field location key name arguments directives selections, parent => by
    rw [bindSelection, WellTyped]
    cases hdefinition : parent.field? name with
    | none => exact nofun
    | some definition =>
      cases selections with
      | nil => exact ⟨⟨definition, rfl, absurd rfl⟩, .leaf hdefinition⟩
      | cons first rest =>
        simp only [Option.some.injEq, ne_eq, reduceCtorEq, not_false_eq_true, forall_const,
          exists_eq_left']
        refine (finds_outputType definition name location).bind fun type houtputs => ?_
        obtain ⟨output, hyields, -⟩ := id houtputs
        exact (accepts_bindSelections (first :: rest) type).map fun below =>
          .field hdefinition (FieldDefinition.shape_ne_leaf hyields) houtputs
  | .spread name directives, parent => ⟨trivial, .spread⟩
  | .inline none directives selections, parent => by
    rw [bindSelection, WellTyped]
    have hparent : Finds (schema.Enters parent none) (pure parent) := fun _ => Iff.rfl
    exact hparent.bind fun type htype => (accepts_bindSelections selections type).map
      fun below hbelow => Binds.inline htype hbelow
  | .inline (some (location, name)) directives selections, parent => by
    rw [bindSelection, WellTyped]
    exact (finds_objectType name location).bind fun type htype =>
      (accepts_bindSelections selections type).map fun below hbelow =>
        Binds.inline (show schema.Enters parent (some (location, name)) type from htype) hbelow

theorem accepts_bindSelections : ∀ (written : List WrittenSelection) (parent : ObjectType),
    Accepts (WellTypedAll schema parent written) (BindsAll schema parent written)
      (bindSelections schema parent written)
  | [], parent => ⟨trivial, .nil⟩
  | first :: rest, parent => by
    rw [bindSelections, WellTypedAll]
    exact (accepts_bindSelection first parent).and (accepts_bindSelections rest parent)
      fun _ _ => .cons

end

theorem accepts_bindFragment (written : WrittenFragment) :
    Accepts (written.WellTyped schema) (written.Binds schema) (bindFragment schema written) :=
  (finds_objectType _ _).bind fun type htype => (accepts_bindSelections written.selections type).map
    fun below h => ⟨type, htype, below, rfl, h⟩

theorem accepts_bindFragments (fragments : List WrittenFragment) :
    Accepts (∀ f ∈ fragments, f.WellTyped schema) (Forall₂ (·.Binds schema) fragments)
      (fragments.mapM (bindFragment schema)) := by
  induction fragments with
  | nil => exact ⟨forall_mem_nil _, .nil⟩
  | cons first rest ih =>
    rw [mapM_cons, forall_mem_cons]
    exact (accepts_bindFragment first).and ih fun _ _ => .cons

/-- The operation is well typed on the query type, and so is every fragment, used or not. -/
def Definitions.WellTyped (schema : Schema) (definitions : Definitions)
    (operation : WrittenOperation) : Prop :=
  ∃ root, schema.objectType? schema.queryType = some root
    ∧ WellTypedAll schema root operation.selections ∧ ∀ f ∈ definitions.fragments,
    f.WellTyped schema

/-- The document is what the operation and the fragments are bound to. -/
def Definitions.Binds (schema : Schema) (definitions : Definitions) (operation : WrittenOperation)
    (document : Document) : Prop :=
  document.name = operation.name ∧ document.declarations = operation.declarations
    ∧ (∃ root, schema.objectType? schema.queryType = some root
      ∧ BindsAll schema root operation.selections document.selections)
    ∧ Forall₂ (·.Binds schema) definitions.fragments document.fragments

theorem accepts_bind {definitions : Definitions} {name : Option String}
    {operation : WrittenOperation}
    (hoperation : chooseOperation definitions.operations name = .ok operation)
    (hquery : operation.kind = .query) :
    Accepts (definitions.WellTyped schema operation) (definitions.Binds schema operation)
      (bind schema definitions name) := by
  unfold bind
  rw [hoperation]
  change Accepts _ _ (if operation.kind ≠ .query then _ else _)
  rw [if_neg (not_not_intro hquery)]
  exact (finds_objectType _ _).bind fun root hroot => (accepts_bindSelections _ root).and
    (accepts_bindFragments _) fun _ _ hselections hfragments =>
      ⟨rfl, rfl, ⟨root, hroot, hselections⟩, hfragments⟩

/-- **Binding accepts exactly the well-typed documents.**  A query is bound exactly if the operation
is well typed on the query type and every fragment, used or not, on the type of its condition.  What
it is bound to is what is written, with the definitions that the types give for the names of the
fields; and no field of leaf shape, whose selections the compiler would drop, has any. -/
theorem bind_iff_wellTyped (schema : Schema) (definitions : Definitions) (name : Option String)
    (operation : WrittenOperation)
    (hoperation : chooseOperation definitions.operations name = .ok operation)
    (hquery : operation.kind = .query) :
    ((∃ document, bind schema definitions name = .ok document)
      ↔ definitions.WellTyped schema operation)
      ∧ ∀ document, bind schema definitions name = .ok document →
        definitions.Binds schema operation document := by
  have haccepts : Accepts _ _ (bind schema definitions name) := accepts_bind hoperation hquery
  refine ⟨haccepts.exists_iff, fun document hdocument => ?_⟩
  rw [hdocument] at haccepts
  exact haccepts.2

namespace Chain

def query : Parameter := ⟨0, "query", .object "Query"⟩

/-- A type with one field, which leads to an object of the type again. -/
def linked : Schema where
  queryType := "Query"
  context := query
  types := [("Query", ⟨"Query", none, query,
    [("next", ⟨"next", none, query, .parameter query, query, [], [], []⟩)]⟩)]
  next := 1

/-- The operation `{ following: next { next } }`. -/
def operation : WrittenOperation where
  location := ⟨1, 1⟩
  kind := .query
  name := none
  declarations := []
  selections := [.field ⟨1, 3⟩ (some "following") "next" [] []
    [.field ⟨1, 21⟩ none "next" [] [] []]]

end Chain

theorem bind_iff_wellTyped_chain : ∃ document,
    bind Chain.linked ⟨[Chain.operation], []⟩ none = .ok document
      ∧ Definitions.WellTyped Chain.linked ⟨[Chain.operation], []⟩ Chain.operation
      ∧ Definitions.Binds Chain.linked ⟨[Chain.operation], []⟩ Chain.operation document := by
  obtain ⟨haccepts, hbinds⟩ := bind_iff_wellTyped Chain.linked ⟨[Chain.operation], []⟩ none
    Chain.operation rfl rfl
  exact ⟨_, rfl, haccepts.1 ⟨_, rfl⟩, hbinds _ rfl⟩

end Binder
end QueryProjection
