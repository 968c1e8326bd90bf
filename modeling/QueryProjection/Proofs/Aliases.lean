import QueryProjection.Proofs.Rearranged.Response

/-!
# Aliases are inert

The response key of a field is the key of its value in the response, and nothing else depends on it.
That is not obvious: the keys of the fields of a selection are the keys of the record that is
fetched for them, what a service field reads is fetched into the same record, under keys of its own,
and the full pass reads all of it back by key.

* `Expanded.Rekeys` says that a value has the keys of another tree;
* `Executor.execute_renames`: if response keys are renamed, and no two fields of a selection set
  have the same key up to case before and after, then the same fields of the operation are answered,
  and the data has the new keys.

## Why the records are not compared

A field may be given the very key under which a member is fetched, and then the member gets another
one.  A relation between the fetched records would have to follow all of that.  Instead either
execution is compared with what its tree means: `Expanded.Answers` says whether a field of the
operation has a value and which one, and mentions a response key only where it is written into the
value.  What is left is an induction on two trees that differ in their keys, and `Expanded.Rekeys`
is the relation for it.  It follows the tree and not the value, because below a field that selects
nothing there are no response keys, and members there keep their names.
-/

namespace QueryProjection

open List

/-! ## Values with other keys -/

mutual

/-- The value `v` of the field `e` is `v'` with the response keys below `e'` in place of those below
`e`. -/
def Expanded.Rekeys : Expanded → Expanded → Value → Value → Prop
  | .mk field _ _ selection, e' =>
    ExpandedSelection.Rekeys field.definition.shape (selection ()) e'.selection

/-- The same for values of this shape, with the keys of two selection sets.  If nothing is selected,
the value has no response keys in it. -/
def ExpandedSelection.Rekeys (shape : FieldShape) :
    ExpandedSelection → ExpandedSelection → Value → Value → Prop
  | .selects (f :: fields), .selects fields', v, v' => Value.Alike shape (fun x x' =>
      ∃ members members', x = .object members ∧ x' = .object members'
        ∧ Expanded.RekeysAll (f :: fields) fields' members members') v v'
  | _, _, v, v' => v = v'

/-- The members of a record are the values of fields, under the keys of these and those fields. -/
def Expanded.RekeysAll :
    List Expanded → List Expanded → List (String × Value) → List (String × Value) → Prop
  | f :: fields, f' :: fields', m :: members, m' :: members' =>
    (m.1 = f.field.responseKey ∧ m'.1 = f'.field.responseKey ∧ Expanded.Rekeys f f' m.2 m'.2)
      ∧ Expanded.RekeysAll fields fields' members members'
  | [], [], [], [] => True
  | _, _, _, _ => False

end

variable {fields fields' : List Expanded}

namespace Expanded

variable {e e' : Expanded}

theorem rekeys_iff {v v' : Value} :
    e.Rekeys e' v v' ↔ ExpandedSelection.Rekeys e.field.definition.shape e.selection
      e'.selection v v' := by
  obtain ⟨field, origin, fragments, selection⟩ := e
  rw [Rekeys]
  rfl

theorem rekeys_of_leaf (h : e.field.definition.shape = .leaf) (v : Value) : e.Rekeys e' v v := by
  rw [rekeys_iff, h]
  unfold ExpandedSelection.Rekeys
  split <;> rfl

theorem rekeys_null (e e' : Expanded) : e.Rekeys e' .null .null := by
  rw [rekeys_iff]
  unfold ExpandedSelection.Rekeys
  split
  · cases e.field.definition.shape with
    | leaf => rfl
    | object => exact .inl ⟨rfl, rfl⟩
    | list => exact .inl ⟨rfl, rfl⟩
  · rfl

theorem rekeysAll_nil : RekeysAll [] [] [] [] := by
  rw [RekeysAll]
  trivial

theorem rekeysAll_map {value value' : Expanded → Value}
    (h : Forall₂ (fun f f' => f.Rekeys f' (value f) (value' f')) fields fields') :
    RekeysAll fields fields' (fields.map fun f => (f.field.responseKey, value f))
      (fields'.map fun f => (f.field.responseKey, value' f)) := by
  induction h with
  | nil => exact rekeysAll_nil
  | cons hff _ ih =>
    rw [map_cons, map_cons, RekeysAll]
    exact ⟨⟨rfl, rfl, hff⟩, ih⟩

end Expanded

theorem Interpretation.rekeys_recordOf {g : Expanded → Value → Option Value} {x : Value}
    (h : Forall₂ (fun f f' => Option.Rel (f.Rekeys f') (g f x) (g f' x)) fields fields') :
    Option.Rel (fun r r' => ∃ members members', r = .object members ∧ r' = .object members'
        ∧ Expanded.RekeysAll fields fields' members members')
      (recordOf (fields.map fun f => (f.field.responseKey, g f)) x)
      (recordOf (fields'.map fun f => (f.field.responseKey, g f)) x) := by
  suffices hmembers : Option.Rel (Expanded.RekeysAll fields fields')
      (mapEntries (· x) (fields.map fun f => (f.field.responseKey, g f)))
      (mapEntries (· x) (fields'.map fun f => (f.field.responseKey, g f))) from
    Option.rel_map hmembers fun members members' h => ⟨members, members', rfl, rfl, h⟩
  induction h with
  | nil => exact .some Expanded.rekeysAll_nil
  | cons hff _ ih =>
    rw [map_cons, map_cons, mapEntries_cons, mapEntries_cons]
    refine Option.rel_bind hff fun v v' hv => Option.rel_map ih fun members members' hmembers => ?_
    rw [Expanded.RekeysAll]
    exact ⟨⟨rfl, rfl, hv⟩, hmembers⟩

theorem Rearrangement.relates_rekeys : keysOnly.Relates Expanded.Rekeys where
  whole {e e'} h hwhole v := by
    rcases hwhole with hleaf | hnil
    · exact Expanded.rekeys_of_leaf hleaf v
    · rw [Expanded.rekeys_iff, hnil, ExpandedSelection.Rekeys]
      nofun
  records {e e' fields fields'} h hshape hsel hsel' hne g hbelow s := by
    have hrecords := s.alike_each (fun x => Interpretation.rekeys_recordOf
      ((hbelow.forall₂ rfl).imp fun _ _ hff => hff.2 x)) e.field.definition.shape
    obtain ⟨f, rest, rfl⟩ := exists_cons_of_ne_nil hne
    have hrekeys : e.Rekeys e' = Value.Alike e.field.definition.shape fun x x' =>
        ∃ members members', x = .object members ∧ x' = .object members'
          ∧ Expanded.RekeysAll (f :: rest) fields' members members' := by
      funext v v'
      rw [Expanded.rekeys_iff, hsel, hsel', ExpandedSelection.Rekeys]
    rw [hrekeys]
    exact hrecords

namespace Executor

/-- **Aliases are inert.**  Let response keys be renamed in the operation and in the fragments of a
document that is read for a schema without extensions; but no two fields of a selection set may have
the same key up to case, before and after.  Then both documents cannot be expanded and have no data,
or the same fields of the operation are answered without an error, and the data has the new keys in
place of the old ones. -/
theorem execute_renames (executor : Executor) (hschema : executor.schema.Plain executor.services)
    (hservices : executor.services.Keep Value.Eager) (text : String) (operation : Option String)
    (document : Document) (hparse : Document.parse executor.schema text operation = .ok document)
    (document' : Document) (hrenamed : document.Rearranged .keysOnly document')
    (supplied : Variables)
    (hunambiguous : document.Unambiguous supplied) (hunambiguous' : document'.Unambiguous supplied)
    (data : Value) (hdata : data.Eager) :
    let response := (executor.execute document supplied data).1
    let response' := (executor.execute document' supplied data).1
    (∃ fields fields',
        (Expansion.ofDocument document supplied).expandAll [] document.selections = .ok fields
        ∧ (Expansion.ofDocument document' supplied).expandAll [] document'.selections = .ok fields'
        ∧ Forall₂ (fun f f' => f.Matched .keysOnly f'
            ∧ Option.Rel (f.Rekeys f') (response.answer? f.field.responseKey)
                (response'.answer? f'.field.responseKey)) fields fields'
        ∧ Expanded.RekeysAll fields fields' response.data response'.data)
      ∨ ∃ error error',
        (Expansion.ofDocument document supplied).expandAll [] document.selections = .error error
        ∧ (Expansion.ofDocument document' supplied).expandAll [] document'.selections
          = .error error'
        ∧ response.data = [] ∧ response'.data = [] := by
  intro response response'
  have hbound := (Document.every_of_parse hparse).1
  obtain ⟨fields, fields', hfields, hfields', harranged⟩ | ⟨error, error', herror, herror'⟩ :=
    Option.rel_toOption (answers_of_rearranged hschema hbound hrenamed hunambiguous hunambiguous'
      Rearrangement.relates_rekeys hservices hdata)
  · have hrelated := harranged.forall₂ rfl
    refine .inl ⟨fields, fields', hfields, hfields', hrelated, ?_⟩
    have hsimple := simple_of_expandAll hschema hbound hfields
    have hsimple' := simple_of_rearranged hschema hbound hrenamed hfields'
    have hmembers : response.data = _ := data_eq_answers hfields (hunambiguous fields hfields).1
      fun f hf => (hsimple f hf).imp fun _ _ h => h.extensions
    have hmembers' :
        response'.data = _ := data_eq_answers hfields' (hunambiguous' fields' hfields').1
      fun f hf => (hsimple' f hf).imp fun _ _ h => h.extensions
    rw [hmembers, hmembers']
    exact Expanded.rekeysAll_map (hrelated.imp fun f f' hff =>
      Option.rel_getD hff.2 (Expanded.rekeys_null f f'))
  · exact .inr ⟨error, error', herror, herror', execute_of_error herror, execute_of_error herror'⟩

namespace Neighbours

/-- Response keys that are the names of members which are read, or look like keys of fetched
members. -/
def nickname : String → String
  | "people" => "greeting"
  | "called" => "nick"
  | "greeting" => "__dep_nick"
  | key => key

/-- The people with their greetings, under these keys. -/
def nicknames : String :=
  "\x7bgreeting: [\x7bnick: \"Bob\", __dep_nick: [\"B\"], friends: null\x7d, \x7bnick: \"Ada\", "
    ++ "__dep_nick: [\"A\"], friends: [\x7b__dep_nick: [\"E\"]\x7d]\x7d]\x7d"

end Neighbours

open Neighbours in
/-- People who are greeted, and the same with the keys of other things. -/
theorem neighbours_renamed :
    greeted.schema.Plain greeted.services ∧ greeted.services.Keep Value.Eager ∧ everyone.Eager
      ∧ ∃ document, Document.parse greeted.schema acquaintances none = .ok document
        ∧ document.Rearranged .keysOnly (document.rebuilt nickname id)
        ∧ document.Unambiguous [] ∧ (document.rebuilt nickname id).Unambiguous []
        ∧ (Value.object (greeted.execute document [] everyone).1.data).text = greetings
        ∧ (Value.object (greeted.execute (document.rebuilt nickname id) [] everyone).1.data).text
            = nicknames
        ∧ ∃ fields fields',
          (Expansion.ofDocument document []).expandAll [] document.selections = .ok fields
          ∧ (Expansion.ofDocument (document.rebuilt nickname id) []).expandAll []
              (document.rebuilt nickname id).selections = .ok fields'
          ∧ Expanded.RekeysAll fields fields' (greeted.execute document [] everyone).1.data
              (greeted.execute (document.rebuilt nickname id) [] everyone).1.data := by
  have hrun : (Document.parse greeted.schema acquaintances none).toOption.any (fun document =>
      decide (document.Unambiguous [] ∧ (document.rebuilt nickname id).Unambiguous []
        ∧ (Value.object (greeted.execute document [] everyone).1.data).text = greetings
        ∧ (Value.object (greeted.execute (document.rebuilt nickname id) [] everyone).1.data).text
            = nicknames)) = true := by
    decide +kernel
  obtain ⟨document, hparse, hpasses⟩ := exists_of_parse hrun
  obtain ⟨hunambiguous, hunambiguous', htext, htext'⟩ := of_decide_eq_true hpasses
  have hrenamed : document.Rearranged .keysOnly (document.rebuilt nickname id) :=
    document.rearranged_rebuilt (fun _ h => absurd h.symm Bool.false_ne_true) fun l => .refl l
  refine ⟨plain_greeted, keep_services _ _, eager_everyone, document, hparse,
    hrenamed, hunambiguous, hunambiguous', htext, htext', ?_⟩
  obtain ⟨fields, fields', hfields, hfields', -, hrekeys⟩ | ⟨_, _, -, -, hnone, -⟩ :=
    execute_renames greeted plain_greeted (keep_services _ _) acquaintances none document
      hparse _ hrenamed [] hunambiguous hunambiguous' everyone eager_everyone
  · exact ⟨fields, fields', hfields, hfields', hrekeys⟩
  · rw [hnone] at htext
    exact absurd htext (by decide +kernel)

end Executor
end QueryProjection
