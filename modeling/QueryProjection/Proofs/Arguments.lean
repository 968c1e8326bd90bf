import QueryProjection.Proofs.TwoPass.Answer
import QueryProjection.Schema.Build

/-!
# Arguments as hooks see them

A hook can look an argument up in two ways: its value by its very name, and its expression as a
member of the record of all arguments, without regard to case.  The two agree on a name that is
declared, as long as no other declared name differs from it only in case
(`HookArguments.plain_of_declares`).

`FieldDeclaration.declares_build` says that this can be relied on for an argument of a field or of
its extensions, if none of the others has the same name but for case.  If one has, the expression
reads the first of them, and the value is still that of the very name:
`FieldDeclaration.argument_reads_first`.

Which of them is first is settled by the declaration: a field's own arguments and those of its
extensions are one list, in the order in which they are attached, and the record of the arguments
has its members in that order (`FieldDefinition.ArgumentsTyped`).  That names are apart
(`FieldDeclaration.NamesApart`) can be read off a declaration.  It is what the modules about
extensions need: a hook that checks the value of an argument and then uses its expression, as the
one that pages does, uses what it has checked.
-/

namespace QueryProjection

open Resolve

/-! ## Declared names -/

/-- The names of a field's own arguments and of those of its extensions. -/
def FieldDeclaration.argumentNames (declaration : FieldDeclaration) : List String :=
  declaration.arguments.map ArgumentDefinition.name

/-- Two names are the same name, or differ in more than case. -/
def FieldDeclaration.NamesApart (declaration : FieldDeclaration) : Prop :=
  ∀ a ∈ declaration.argumentNames, ∀ b ∈ declaration.argumentNames,
    Text.sameIgnoringCase a b = true → a = b

instance (declaration : FieldDeclaration) : Decidable declaration.NamesApart :=
  inferInstanceAs (Decidable (∀ a ∈ declaration.argumentNames, _))

/-- The field has an argument of this name, and none whose name differs from it only in case. -/
structure FieldDefinition.Declares (definition : FieldDefinition) (name : String) : Prop where
  mem : name ∈ Assoc.keys definition.arguments
  alone :
    ∀ other ∈ Assoc.keys definition.arguments,
      Text.sameIgnoringCase other name = true → other = name

/-- The parameter for the arguments has the type of their record. -/
def FieldDefinition.ArgumentsTyped (definition : FieldDefinition) : Prop :=
  definition.argumentsParameter.ty = .record (definition.arguments.map fun a => (a.1, a.2.ty))

namespace FieldDeclaration

variable (declaration : FieldDeclaration) (context : Parameter) (n : Nat)

theorem argumentsTyped_build : ((declaration.build context).run n).1.ArgumentsTyped := rfl

theorem extensions_build :
    ((declaration.build context).run n).1.extensions = declaration.extensions := rfl

variable {name : String}

theorem mem_keys_allArguments :
    name ∈ Assoc.keys declaration.allArguments ↔ name ∈ declaration.argumentNames := by
  unfold allArguments argumentNames Assoc.ofList
  rw [Assoc.mem_keys_insertAll]
  simp [Assoc.keys]

theorem mem_argumentNames {x : Extension} {a : ArgumentDefinition} (hx : x ∈ declaration.extensions)
    (ha : a ∈ x.arguments) : a.name ∈ declaration.argumentNames := by
  obtain ⟨attachment, hmem, hextension⟩ := List.mem_filterMap.1 hx
  refine List.mem_map_of_mem (List.mem_flatMap.2 ⟨attachment, hmem, ?_⟩)
  cases attachment with
  | argument definition => cases hextension
  | extension y =>
    obtain rfl := Option.some.inj hextension
    exact ha

theorem declares_build {declaration : FieldDeclaration} (hname : name ∈ declaration.argumentNames)
    (halone : ∀ other ∈ declaration.argumentNames, Text.sameIgnoringCase other name = true →
      other = name) :
    ((declaration.build context).run n).1.Declares name where
  mem := (mem_keys_allArguments declaration).2 hname
  alone other hother := halone other ((mem_keys_allArguments declaration).1 hother)

end FieldDeclaration

/-! ## The two ways of looking up -/

variable {given : VariableValues} {record : Option (List (String × Value))} {name : String}

theorem Resolve.keys_argumentValues {field : SelectedField} {path : FieldPath}
    {declared : List (String × ArgumentDefinition)} {values : List (String × Value)}
    (h : argumentValues field given path declared = .ok values) :
    Assoc.keys values = Assoc.keys declared := by
  induction declared generalizing values with
  | nil =>
    cases h
    rfl
  | cons d rest ih =>
    obtain ⟨name, definition⟩ := d
    rw [argumentValues] at h
    obtain ⟨value, -, h⟩ := bind_eq_ok_iff.1 h
    obtain ⟨others, hothers, h⟩ := bind_eq_ok_iff.1 h
    cases h
    exact congrArg (name :: ·) (ih hothers)

theorem SelectedField.keys_of_record? {field : SelectedField}
    (h : field.record? given = some record) :
    record.elim [] Assoc.keys = Assoc.keys field.definition.arguments := by
  unfold record? at h
  split at h
  · rename_i hnone
    obtain rfl := Option.some.inj h
    rw [hnone]
    rfl
  · obtain ⟨values, hvalues, rfl⟩ := Option.map_eq_some_iff.1 h
    rw [Option.elim_some]
    cases hok : argumentValues field given .operation field.definition.arguments with
    | error e => simp [hok, Except.toOption] at hvalues
    | ok result =>
      obtain rfl : result = values := by simpa [hok, Except.toOption] using hvalues
      exact keys_argumentValues hok

/-- The arguments that the hooks of a field see. -/
def SelectedField.hookArguments (field : SelectedField)
    (record : Option (List (String × Value))) : HookArguments :=
  record.map fun values => (field.definition.argumentsParameter.ty, values)

/-- An argument is the same whether it is looked up by its very name or without regard to case. -/
def HookArguments.Plain (arguments : HookArguments) (name : String) : Prop :=
  arguments.member? name = arguments.value? name

/-- A record answers to the name of one of its fields with the first of them that has this name but
for case. -/
theorem Shape.exists_field? {shape : Shape} {name : String} (hmem : name ∈ shape.map Prod.fst) :
    ∃ first ty, Shape.field? shape name = some (first, ty)
      ∧ (shape.map Prod.fst).find? (Text.sameIgnoringCase · name) = some first := by
  obtain ⟨entry, hmem, hentry⟩ := List.mem_map.1 hmem
  have hsome : (Shape.field? shape name).isSome = true :=
    List.find?_isSome.2 ⟨entry, hmem, by rw [hentry]; exact Text.sameIgnoringCase_refl name⟩
  obtain ⟨⟨first, ty⟩, hfield⟩ := Option.isSome_iff_exists.1 hsome
  refine ⟨first, ty, hfield, ?_⟩
  rw [List.find?_map]
  exact congrArg (Option.map Prod.fst) hfield

theorem eq_of_find?_sameIgnoringCase {names : List String} {first : String}
    (h : names.find? (Text.sameIgnoringCase · name) = some first)
    (halone : ∀ other ∈ names, Text.sameIgnoringCase other name = true → other = name) :
    first = name :=
  halone first (List.mem_of_find?_eq_some h)
    (@List.find?_some _ (Text.sameIgnoringCase · name) first names h)

theorem HookArguments.plain_of_declares {field : SelectedField}
    (htyped : field.definition.ArgumentsTyped) (hrecord : field.record? given = some record)
    (hname : field.definition.Declares name) : (field.hookArguments record).Plain name := by
  have hkeys := SelectedField.keys_of_record? hrecord
  cases record with
  | none =>
    have hmem := hname.mem
    rw [← hkeys] at hmem
    cases hmem
  | some values =>
    have hshape : (field.definition.arguments.map fun a => (a.1, a.2.ty)).map Prod.fst
        = Assoc.keys field.definition.arguments := by
      simp [Assoc.keys]
    obtain ⟨first, ty, hfield, hfirst⟩ :=
      @Shape.exists_field? (field.definition.arguments.map fun a => (a.1, a.2.ty)) name
        (hshape.symm ▸ hname.mem)
    obtain rfl := (eq_of_find?_sameIgnoringCase (hshape ▸ hfirst) hname.alone).symm
    have hmem := hname.mem
    rw [← hkeys] at hmem
    obtain ⟨v, hv⟩ := Option.isSome_iff_exists.1 ((Assoc.mem_keys_iff name values).1 hmem)
    simp only [Plain, member?, value?, SelectedField.hookArguments, Option.map_some,
      Option.bind_some]
    rw [htyped, Ty.shape?, Option.bind_some, hfield, Option.map_some, hv, Option.getD_some]

/-- **The expression of an argument reads the first one of its name but for case.**  It has the
value that the hooks get under the first of the declared names that differs from its own in nothing
but case. -/
theorem FieldDeclaration.argument_reads_first {declaration : FieldDeclaration}
    {context : Parameter} {n : Nat}
    {field : SelectedField} (hfield : field.definition = ((declaration.build context).run n).1)
    {given : VariableValues} {scope : Scope} {m m' : Memory} {bound : Option (Parameter × Value)}
    (hbound : Gives (bindArguments field given scope.path) m bound m') {name : String}
    (hname : name ∈ declaration.argumentNames) (expression : Expr) (materialized : Bool) :
    let hooks := Compiler.hookContext scope ⟨expression, materialized, bound⟩
    ∃ p arguments first e v, bound = some (p, arguments)
      ∧ (Assoc.keys declaration.allArguments).find? (Text.sameIgnoringCase · name) = some first
      ∧ hooks.argument? name = some e
      ∧ hooks.argumentValue? first = some v
      ∧ (∀ services env, env p = some arguments → e.valueOf services env = pure v)
      ∧ ((∀ other ∈ declaration.argumentNames, Text.sameIgnoringCase other name = true →
        other = name) →
          hooks.argumentValue? name = some v) := by
  intro hooks
  have hdeclared : field.definition.arguments = declaration.allArguments := by rw [hfield]; rfl
  have hmem := (mem_keys_allArguments declaration).2 hname
  obtain ⟨-, ⟨hnone, -⟩ | ⟨-, values, hvalues, rfl, -⟩⟩ := bindArguments_gives.1 hbound
  · rw [hdeclared] at hnone
    rw [hnone] at hmem
    cases hmem
  have hkeys : Assoc.keys values = Assoc.keys declaration.allArguments := by
    rw [keys_argumentValues hvalues, hdeclared]
  have hshape : (declaration.allArguments.map fun a => (a.1, a.2.ty)).map Prod.fst
      = Assoc.keys declaration.allArguments := by
    simp [Assoc.keys]
  obtain ⟨first, ty, hmember, hfirst⟩ :=
    @Shape.exists_field? (declaration.allArguments.map fun a => (a.1, a.2.ty)) name
      (hshape.symm ▸ hmem)
  rw [hshape] at hfirst
  have hread : first ∈ Assoc.keys values := hkeys ▸ List.mem_of_find?_eq_some hfirst
  obtain ⟨v, hv⟩ := Option.isSome_iff_exists.1 ((Assoc.mem_keys_iff first values).1 hread)
  have hty : (argumentsParameter field m.next).ty
      = .record (declaration.allArguments.map fun a => (a.1, a.2.ty)) := by
    rw [argumentsParameter, hfield]
    rfl
  refine ⟨_, _, first, .member (.parameter (argumentsParameter field m.next)) first ty, v,
    rfl, hfirst, ?_, hv, fun services env henv => ?_, fun halone => ?_⟩
  · show Expr.recordMember? _ name = _
    simp only [Expr.recordMember?, Expr.ty, hty, Ty.shape?, Option.bind_eq_bind,
      Option.bind_some, hmember]
    rfl
  · simp only [Expr.valueOf, Expr.operand, henv]
    show (pure ((Assoc.find? first values).getD .null) : Run EvaluationError Value) = pure v
    rw [hv, Option.getD_some]
  · obtain rfl := eq_of_find?_sameIgnoringCase hfirst fun other hother =>
      halone other ((mem_keys_allArguments declaration).1 hother)
    exact hv

namespace Spelling

/-- People, whose own argument differs in case only from the one that they are filtered by. -/
def people : FieldDeclaration where
  name := "people"
  attached := [.argument ⟨"NAME", .string, none, false⟩,
    .extension (.filter ⟨"name", .string, none, false⟩ fun element value =>
      return .binary .eq element value)]
  resolve context _ := return .member (.parameter context) "people" (.list (.object "Person"))

/-- The field with a value for each of the two. -/
def field : SelectedField where
  responseKey := "people"
  definition := (people.build ⟨0, "ctx", .object "Query"⟩ |>.run 1).1
  arguments := [("NAME", .literal (.string "Ada")), ("name", .literal (.string "Bob"))]

/-- The two values. -/
def values : Value := .object [("NAME", .string "Ada"), ("name", .string "Bob")]

def scope : Scope := ⟨.full, false, true, .operation, [], 0⟩

end Spelling

open Spelling in
/-- The expression for the one argument has the value of the other. -/
theorem name_reads_other_spelling :
    let p := argumentsParameter field 2
    let hooks := Compiler.hookContext scope ⟨field.definition.resolve, false, some (p, values)⟩
    ∃ e, hooks.argument? "name" = some e
      ∧ (∀ services env, env p = some values → e.valueOf services env = pure (.string "Ada"))
      ∧ hooks.argumentValue? "name" = some (.string "Bob") := by
  intro p hooks
  have hfield : field.definition = ((people.build ⟨0, "ctx", .object "Query"⟩).run 1).1 := rfl
  have hbinds :
      Gives (bindArguments field ⟨[], []⟩ scope.path) { next := 2 } (some (p, values))
      { next := 3 } := rfl
  have hname : "name" ∈ people.argumentNames := by decide
  obtain ⟨_, _, first, e, v, hbound, hfirst, he, hv, heval, -⟩ :=
    FieldDeclaration.argument_reads_first hfield hbinds hname field.definition.resolve false
  cases hbound
  obtain rfl : "NAME" = first := Option.some.inj hfirst
  cases hv
  exact ⟨e, he, heval, rfl⟩

end QueryProjection
