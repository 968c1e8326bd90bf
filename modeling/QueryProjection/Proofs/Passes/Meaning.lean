import QueryProjection.Proofs.Passes.Separable

/-!
# What a field means in one pass and in two

A field of a schema without extensions has a meaning that refers neither to the keys of the response
nor to the order of fields, except that it gives a record with these keys in this order.

* `Interpretation.once` is the value of a field that is compiled in full and evaluated once;
* `Interpretation.twice` is the value of a plain field for which the data is fetched first.  A
  service field below it has no access to the data any more.  It is given an object that has what it
  reads of its context and nothing else, `FieldDefinition.reads?`.

The two differ: a service field may read the data of the operation besides its context, and then it
has a value in one pass only; and a service that reads a lazy sequence sees in two passes what
became of it.
-/

namespace QueryProjection

/-! ## What a service field reads -/

/-- The value of the first member of a chain of members that ends in `v`. -/
def Expr.nested : Expr → Value → Value
  | .member (.member receiver name ty) last _, v =>
    nested (.member receiver name ty) (.object [(last, v)])
  | _, v => v

/-- A chain reaches the value that is nested for it. -/
theorem Expr.ChainOn.value?_nested {services : Provider} {p : Parameter} {name : String}
    {chain : Expr}
    (h : ChainOn (.parameter p) name chain) {env : Environment} {members : List (String × Value)}
    (henv : env p = some (.object members)) {v : Value}
    (hfind : Assoc.find? name members = some (chain.nested v)) :
    chain.value? services env = some v := by
  induction h generalizing v with
  | first ty =>
    rw [value?_member, value?_parameter, henv, Option.bind_some, readMember, hfind]
    rfl
  | @next whole h last ty ih =>
    have hnested : (Expr.member whole last ty).nested v = whole.nested (.object [(last, v)]) := by
      cases h <;> rfl
    rw [value?_member, ih (hfind.trans (congrArg some hnested)), Option.bind_some, readMember]
    simp [Assoc.find?]

namespace FieldDefinition

/-- The object that has what the resolver of a field reads of its context, and nothing else: every
chain reaches there what it reaches in the context, with lazy sequences iterated. -/
def reads? (services : Provider) (definition : FieldDefinition) (context : Value) : Option Value :=
  definition.chains?.bind fun chains =>
    (mapEntries (fun d => (d.chain.forced? services
        (Environment.bind (fun _ => none) d.root context)).map d.chain.nested) chains).map .object

/-- The resolver of the field reads nothing of its context. -/
def readsNothing (definition : FieldDefinition) : Bool :=
  definition.chains?.any List.isEmpty

end FieldDefinition

/-- Nothing has to be fetched for the selected fields: all of them are service fields that read
nothing of their context. -/
def ExpandedSelection.idle : ExpandedSelection → Bool
  | .selects fields => fields.all fun f =>
      f.field.definition.requiresService && f.field.definition.readsNothing
  | .failed _ => false

/-! ## Meanings -/

namespace Interpretation

variable (I : Interpretation)

/-- The record of what members give for an object. -/
def recordOf (members : List (String × (Value → Option Value))) (x : Value) : Option Value :=
  (mapEntries (· x) members).map .object

/-- What is made of the value that a field resolves to, with the members that are selected of its
objects. If nothing was to be fetched for them, the value as a whole was. -/
def shaped (field : SelectedField) (idle : Bool)
    (members : Option (List (String × (Value → Option Value)))) (source : Value) : Option Value :=
  if field.definition.shape = .leaf then source.force
  else members.bind fun members =>
    if members.isEmpty then source.force
    else if idle then source.force.bind fun v => v.each field.definition.shape (recordOf members)
    else source.each field.definition.shape (recordOf members)

mutual

/-- What a field gives for a value of its context in one pass. -/
def once : Expanded → Value → Option Value
  | .mk field _ _ selection => fun context =>
    (I.source? field context).bind (shaped field false (onceOf (selection ())))

/-- The members that the fields of a selection are, if it can be expanded. -/
def onceOf : ExpandedSelection → Option (List (String × (Value → Option Value)))
  | .selects fields => some (onceAll fields)
  | .failed _ => none

/-- The members that fields are, under their response keys. -/
def onceAll : List Expanded → List (String × (Value → Option Value))
  | [] => []
  | e :: rest => (e.field.responseKey, once e) :: onceAll rest

end

/-- The interpretation that knows nothing of the schema's own parameters. -/
def alone : Interpretation :=
  { I with base := fun _ => none }

/-- What a service field gives that is provided with what it reads of its context. -/
def served (e : Expanded) (context : Value) : Option Value :=
  (e.field.definition.reads? I.services context).bind (I.alone.once e)

mutual

/-- What a plain field gives for a value of its context in two passes. -/
def twice : Expanded → Value → Option Value
  | .mk field _ _ selection => fun context =>
    (I.source? field context).bind (shaped field (selection ()).idle (twiceOf (selection ())))

/-- The members that the fields of a selection are, if it can be expanded. -/
def twiceOf : ExpandedSelection → Option (List (String × (Value → Option Value)))
  | .selects fields => some (twiceAll fields)
  | .failed _ => none

/-- The members that fields are, under their response keys. -/
def twiceAll : List Expanded → List (String × (Value → Option Value))
  | [] => []
  | e :: rest =>
    (e.field.responseKey, if e.field.definition.requiresService then I.served e else twice e)
      :: twiceAll rest

end

/-- What is made in one pass of the value that a field resolves to. -/
def onceBelow (e : Expanded) : Value → Option Value :=
  shaped e.field false (I.onceOf e.selection)

/-- What is made in two passes of the value that a plain field resolves to. -/
def twiceBelow (e : Expanded) : Value → Option Value :=
  shaped e.field e.selection.idle (I.twiceOf e.selection)

/-- What a field below another one gives in two passes. -/
def twiceMember (e : Expanded) : Value → Option Value :=
  if e.field.definition.requiresService then I.served e else I.twice e

theorem once_eq (e : Expanded) (x : Value) :
    I.once e x = (I.source? e.field x).bind (I.onceBelow e) := by
  obtain ⟨field, origin, fragments, selection⟩ := e
  rw [once]
  rfl

theorem twice_eq (e : Expanded) (x : Value) :
    I.twice e x = (I.source? e.field x).bind (I.twiceBelow e) := by
  obtain ⟨field, origin, fragments, selection⟩ := e
  rw [twice]
  rfl

theorem onceAll_eq (fields : List Expanded) :
    I.onceAll fields = fields.map fun e => (e.field.responseKey, I.once e) := by
  induction fields with
  | nil => rfl
  | cons e rest ih => rw [onceAll, ih, List.map_cons]

theorem twiceAll_eq (fields : List Expanded) :
    I.twiceAll fields = fields.map fun e => (e.field.responseKey, I.twiceMember e) := by
  induction fields with
  | nil => rfl
  | cons e rest ih =>
    rw [twiceAll, ih, List.map_cons]
    rfl

variable {field : SelectedField} {members : List (String × (Value → Option Value))}

theorem shaped_nil (hshape : field.definition.shape ≠ .leaf) (idle : Bool) (s : Value) :
    shaped field idle (some []) s = s.force := by
  rw [shaped, if_neg hshape, Option.bind_some, List.isEmpty_nil, if_pos rfl]

theorem shaped_members (hshape : field.definition.shape ≠ .leaf) (hne : members ≠ []) (s : Value) :
    shaped field false (some members) s = s.each field.definition.shape (recordOf members) := by
  rw [shaped, if_neg hshape, Option.bind_some, if_neg (by simpa using hne),
    if_neg Bool.false_ne_true]

theorem shaped_idle (hshape : field.definition.shape ≠ .leaf) (hne : members ≠ []) (s : Value) :
    shaped field true (some members) s
      = s.force.bind fun v => v.each field.definition.shape (recordOf members) := by
  rw [shaped, if_neg hshape, Option.bind_some, if_neg (by simpa using hne), if_pos rfl]

end Interpretation
end QueryProjection
