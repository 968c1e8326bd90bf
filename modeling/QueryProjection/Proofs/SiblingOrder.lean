import QueryProjection.Proofs.Rearranged.Response

/-!
# The order of siblings

The entries of a selection set may stand in any order.  The members of the records in the response
have the same order then, and nothing else depends on it.

* `Value.Reordered` is equality up to the order of the members of objects, and
  `Value.Reordered.same` says that the equality which expressions can test does not see the
  difference;
* `Executor.execute_reorders`: if the entries of selection sets are put in another order, the same
  fields of the operation are answered, with values that are equal up to the order of members.

The order matters to both executions on the way: fields are compiled one after the other, each from
the memory that the others leave, and the keys under which members are fetched depend on the keys
that were taken before.  None of that is in the meaning of a tree (`Expanded.Answers`), so the two
are compared there.  `Value.Reordered` is generated by single changes and closed under composition.
It implies the equality that expressions test only for values that equal themselves, and a fraction
that is no number does not.
-/

namespace QueryProjection

open List Value

/-! ## Values with their members in another order -/

/-- The values are equal up to the order of the members of objects. -/
inductive Value.Reordered : Value → Value → Prop
  | refl (v : Value) : Reordered v v
  | trans {u v w : Value} (first : Reordered u v) (second : Reordered v w) : Reordered u w
  | items {items items' : List Value} (length : items.length = items'.length)
      (each : ∀ p ∈ items.zip items', Reordered p.1 p.2) : Reordered (.list items) (.list items')
  | members {members members' : List (String × Value)} (length : members.length = members'.length)
      (keys : ∀ p ∈ members.zip members', p.1.1 = p.2.1)
      (each : ∀ p ∈ members.zip members', Reordered p.1.2 p.2.2) :
      Reordered (.object members) (.object members')
  | permuted {members members' : List (String × Value)} (distinct : (members.map Prod.fst).Nodup)
      (order : members.Perm members') : Reordered (.object members) (.object members')

namespace Value

theorem Reordered.of_items {items items' : List Value} (h : Forall₂ Reordered items items') :
    Reordered (.list items) (.list items') :=
  .items h.length_eq fun _ hp => List.forall₂_zip h hp

variable {members members' ms ns : List (String × Value)} {ys : List Value} {x : Value}

theorem Reordered.of_members
    (h : Forall₂ (fun m m' => m.1 = m'.1 ∧ Reordered m.2 m'.2) members members') :
    Reordered (.object members) (.object members') :=
  .members h.length_eq (fun _ hp => (List.forall₂_zip h hp).1) fun _ hp => (List.forall₂_zip h hp).2

theorem Reordered.of_arranged
    (h : Rearrangement.orderOnly.Arranged (fun m m' => m.1 = m'.1 ∧ Reordered m.2 m'.2)
      members members')
    (hdistinct : (members.map Prod.fst).Nodup) :
    Reordered (.object members) (.object members') := by
  obtain ⟨order, related⟩ := h
  exact .trans (.permuted hdistinct order.perm) (.of_members related)

/-- Values that consist of records are equal up to the order of members if the records are. -/
theorem Alike.reordered {shape : FieldShape} {R : Value → Value → Prop} {v v' : Value}
    (h : v.Alike shape R v') (hR : ∀ x x', R x x' → x.Reordered x') : v.Reordered v' := by
  cases shape with
  | leaf => exact h ▸ .refl v
  | object =>
    rcases h with ⟨rfl, rfl⟩ | h
    exacts [.refl _, hR _ _ h]
  | list =>
    rcases h with ⟨rfl, rfl⟩ | ⟨members, members', rfl, rfl, h⟩ | ⟨items, items', rfl, rfl, h⟩
    · exact .refl _
    · exact .of_members (h.imp fun m m' hm => ⟨hm.1, hR _ _ hm.2⟩)
    · exact .of_items (h.imp hR)

theorem sameItems_iff {xs : List Value} :
    sameItems xs ys = true ↔ Forall₂ (fun x y => x.same y = true) xs ys := by
  induction xs generalizing ys with
  | nil => cases ys <;> simp [sameItems]
  | cons x xs ih => cases ys <;> simp [sameItems, ih]

theorem sameMembers_iff {others : List (String × Value)} :
    sameMembers ms others = true
      ↔ ∀ m ∈ ms, ∃ y, Assoc.find? m.1 others = some y ∧ m.2.same y = true := by
  induction ms with
  | nil => simp [sameMembers]
  | cons m rest ih =>
    obtain ⟨key, x⟩ := m
    rw [sameMembers, Bool.and_eq_true, ih, forall_mem_cons]
    refine and_congr_left fun _ => ?_
    cases Assoc.find? key others <;> simp

theorem same_object_iff :
    (object ms).same (.object ns) = true
      ↔ ms.length = ns.length ∧ ∀ m ∈ ms, ∃ y, Assoc.find? m.1 ns = some y ∧ m.2.same y = true := by
  rw [same, Bool.and_eq_true, beq_iff_eq, sameMembers_iff]

theorem exists_of_same_object (h : x.same (.object ns) = true) : ∃ ms, x = .object ms := by
  cases x with
  | object ms => exact ⟨ms, rfl⟩
  | _ => simp [same, sameNumber, asFloat?] at h

theorem exists_of_same_list (h : x.same (.list ys) = true) : ∃ xs, x = .list xs := by
  cases x with
  | list xs => exact ⟨xs, rfl⟩
  | _ => simp [same, sameNumber, asFloat?] at h

theorem Reordered.same {y y' : Value} (h : y.Reordered y') (hsame : x.same y = true) :
    x.same y' = true := by
  induction h generalizing x with
  | refl v => exact hsame
  | trans _ _ ih ih' => exact ih' (ih hsame)
  | @items ys ys' hlength _ ih =>
    obtain ⟨xs, rfl⟩ := exists_of_same_list hsame
    rw [same, sameItems_iff] at hsame ⊢
    have hstep : Forall₂ (fun y y' => ∀ x : Value, x.same y = true → x.same y' = true) ys ys' :=
      List.forall₂_iff_zip.2 ⟨hlength, fun {_ _} hp x hx => ih _ hp hx⟩
    exact forall₂_trans hsame hstep fun x _ _ hxy hyy => hyy x hxy
  | @members ms ms' hlength hkeys _ ih =>
    obtain ⟨xs, rfl⟩ := exists_of_same_object hsame
    rw [same_object_iff] at hsame ⊢
    refine ⟨hsame.1.trans hlength, fun m hm => ?_⟩
    obtain ⟨y, hfind, hy⟩ := hsame.2 m hm
    have hfound : Option.Rel (fun y y' => ∀ x : Value, x.same y = true → x.same y' = true)
        (Assoc.find? m.1 ms) (Assoc.find? m.1 ms') :=
      Assoc.rel_find? (List.forall₂_iff_zip.2
        ⟨hlength, fun {_ _} hp => ⟨hkeys _ hp, fun x hx => ih _ hp hx⟩⟩) m.1
    rw [hfind] at hfound
    generalize Assoc.find? m.1 ms' = found at hfound
    cases hfound with
    | some hyy => exact ⟨_, rfl, hyy _ hy⟩
  | @permuted ms ms' hdistinct order =>
    obtain ⟨xs, rfl⟩ := exists_of_same_object hsame
    rw [same_object_iff] at hsame ⊢
    refine ⟨hsame.1.trans order.length_eq, fun m hm => ?_⟩
    obtain ⟨y, hfind, hy⟩ := hsame.2 m hm
    have hdistinct' : (ms'.map Prod.fst).Nodup := (order.map Prod.fst).nodup_iff.1 hdistinct
    exact ⟨y, Assoc.find?_of_mem hdistinct' (order.mem_iff.1 (Assoc.mem_of_find? hfind)), hy⟩

end Value

/-! ## Fields in another order -/

theorem Text.Apart.perm {keys keys' : List String} (h : Text.Apart keys) (hperm : keys.Perm keys') :
    Text.Apart keys' :=
  (hperm.pairwise_iff fun hab => Text.sameIgnoringCase_comm _ _ ▸ hab).1 h

variable {fields fields' : List Expanded}

namespace Expanded

theorem perm_keys {R : Expanded → Expanded → Prop}
    (h : Rearrangement.orderOnly.Arranged R fields fields')
    (hR : ∀ f f', R f f' → f.Matched .orderOnly f') :
    (fields.map responseKey).Perm (fields'.map responseKey) := by
  obtain ⟨order, related⟩ := h
  have hkeys :
      _ = _ := map_eq_map_of_forall₂ related fun f f' hff => ((hR f f' hff).own.key rfl).symm
  exact hkeys ▸ order.perm.map responseKey

theorem Matched.unambiguous {e e' : Expanded} (h : e.Matched .orderOnly e') (he : e.Unambiguous) :
    e'.Unambiguous := by
  induction e using Expanded.induct generalizing e' with
  | field e ih =>
    rw [unambiguous_iff_selects] at he ⊢
    intro fields' hsel'
    obtain ⟨fields, _, hsel, hselects, below⟩ | ⟨_, _, -, hfailed⟩ := h.selection
    · obtain rfl := ExpandedSelection.selects.inj (hselects.symm.trans hsel')
      obtain ⟨happart, hbelow⟩ := he fields hsel
      refine ⟨happart.perm (perm_keys below fun _ _ hff => hff), fun f' hf' => ?_⟩
      obtain ⟨f, hf, hff⟩ := below.exists_left hf'
      exact ih fields hsel f hf hff (hbelow f hf)
    · rw [hfailed] at hsel'
      cases hsel'

end Expanded

theorem Document.Unambiguous.of_rearranged {document document' : Document}
    (h : document.Rearranged .orderOnly document') {supplied : Variables}
    (hunambiguous : document.Unambiguous supplied) : document'.Unambiguous supplied := by
  intro fields' hfields'
  obtain ⟨fields, _, hfields, hok, harranged⟩ | ⟨_, _, -, herror⟩ :=
    Option.rel_toOption (h.expandAll supplied)
  · obtain rfl := Except.ok.inj (hok.symm.trans hfields')
    obtain ⟨happart, hbelow⟩ := hunambiguous fields hfields
    refine ⟨happart.perm (Expanded.perm_keys harranged fun _ _ hff => hff), fun f' hf' => ?_⟩
    obtain ⟨f, hf, hff⟩ := harranged.exists_left hf'
    exact hff.unambiguous (hbelow f hf)
  · rw [herror] at hfields'
    cases hfields'

theorem Interpretation.reordered_recordOf {P : Prop}
    (happart : P → Text.Apart (fields.map Expanded.responseKey))
    {g : Expanded → Value → Option Value} {x : Value}
    (h : Rearrangement.orderOnly.Arranged (fun f f' => f.field.responseKey = f'.field.responseKey
      ∧ Option.Rel (fun v v' => P → v.Reordered v') (g f x) (g f' x)) fields fields') :
    Option.Rel (fun r r' => P → r.Reordered r')
      (recordOf (fields.map fun f => (f.field.responseKey, g f)) x)
      (recordOf (fields'.map fun f => (f.field.responseKey, g f)) x) := by
  have hentries : Rearrangement.orderOnly.Arranged
      (fun m m' : String × (Value → Option Value) => m.1 = m'.1
        ∧ Option.Rel (fun v v' => P → v.Reordered v') (m.2 x) (m'.2 x))
      (fields.map fun f => (f.field.responseKey, g f))
        (fields'.map fun f => (f.field.responseKey, g f)) :=
    h.map fun _ _ hff => hff
  have hmembers : Option.Rel
      (Rearrangement.orderOnly.Arranged fun m m' => m.1 = m'.1 ∧ (P → m.2.Reordered m'.2))
      (mapEntries (· x) (fields.map fun f => (f.field.responseKey, g f)))
      (mapEntries (· x) (fields'.map fun f => (f.field.responseKey, g f))) :=
    hentries.mapM fun m m' hm => Option.rel_map hm.2 fun v v' hv => ⟨hm.1, hv⟩
  rw [recordOf, recordOf]
  generalize hresult : mapEntries (· x) (fields.map fun f => (f.field.responseKey, g f)) = result,
    mapEntries (· x) (fields'.map fun f => (f.field.responseKey, g f)) = result' at hmembers ⊢
  cases hmembers with
  | none => exact .none
  | some harranged =>
    refine .some fun hP => .of_arranged (harranged.imp_of_mem fun m _ m' _ hm => ⟨hm.1, hm.2 hP⟩) ?_
    rw [keys_of_mapEntries hresult, map_map]
    exact (happart hP).nodup

theorem Rearrangement.relates_reordered :
    orderOnly.Relates fun e _ v v' => e.Unambiguous → v.Reordered v' where
  whole _ _ v _ := .refl v
  records {e e' fields fields'} h hshape hsel hsel' hne g hbelow s := by
    have hrecord : ∀ x, Option.Rel (fun r r' => e.Unambiguous → r.Reordered r')
        (Interpretation.recordOf (fields.map fun f => (f.field.responseKey, g f)) x)
        (Interpretation.recordOf (fields'.map fun f => (f.field.responseKey, g f)) x) := by
      intro x
      refine Interpretation.reordered_recordOf (fun hu => hu.apart hsel)
        (hbelow.imp_of_mem fun f hf f' _ hff => ⟨hff.1.own.key rfl, ?_⟩)
      exact Option.rel_imp (hff.2 x) fun v v' hv hu => hv (hu.of_selects hsel hf)
    exact Option.rel_imp (s.alike_each hrecord _) fun v v' hv hu => hv.reordered fun _ _ hx => hx hu

namespace Executor

/-- **The order of siblings.**  Let a document be read for a schema without extensions, and let no
two fields of a selection set have the same key up to case.  If the entries of its selection sets
are put in another order, the same fields of the operation are answered without an error, and their
values are equal up to the order of the members of objects; so they are equal for every expression
that compares them, if there is nothing in them that does not equal itself. -/
theorem execute_reorders (executor : Executor) (hschema : executor.schema.Plain executor.services)
    (hservices : executor.services.Keep Eager) (text : String) (operation : Option String)
    (document : Document) (hparse : Document.parse executor.schema text operation = .ok document)
    (document' : Document) (hreordered : document.Rearranged .orderOnly document')
    (supplied : Variables)
    (hunambiguous : document.Unambiguous supplied) (data : Value) (hdata : data.Eager) :
    let response := (executor.execute document supplied data).1
    let response' := (executor.execute document' supplied data).1
    (∀ key, Option.Rel (fun v v' => v.Reordered v' ∧ (v.same v = true → v.same v' = true))
        (response.answer? key) (response'.answer? key))
      ∧ (object response.data).Reordered (.object response'.data) := by
  intro response response'
  have hbound := (Document.every_of_parse hparse).1
  have hunambiguous' := hunambiguous.of_rearranged hreordered
  obtain ⟨fields, fields', hfields, hfields', harranged⟩ | ⟨error, error', herror, herror'⟩ :=
    Option.rel_toOption (answers_of_rearranged hschema hbound hreordered hunambiguous hunambiguous'
      Rearrangement.relates_reordered hservices hdata)
  · obtain ⟨happart, hbelow⟩ := hunambiguous fields hfields
    obtain ⟨happart', -⟩ := hunambiguous' fields' hfields'
    have hsimple := simple_of_expandAll hschema hbound hfields
    have hsimple' := simple_of_rearranged hschema hbound hreordered hfields'
    have hmembers : response.data = _ := data_eq_answers hfields happart
      fun f hf => (hsimple f hf).imp fun _ _ h => h.extensions
    have hmembers' : response'.data = _ := data_eq_answers hfields' happart'
      fun f hf => (hsimple' f hf).imp fun _ _ h => h.extensions
    have hanswers : Rearrangement.orderOnly.Arranged (fun f f' => f.Matched .orderOnly f'
        ∧ Option.Rel Reordered (response.answer? f.field.responseKey)
          (response'.answer? f'.field.responseKey)) fields fields' :=
      harranged.imp_of_mem fun f hf f' _ hff =>
        ⟨hff.1, Option.rel_imp hff.2 fun v v' hv => hv (hbelow f hf)⟩
    constructor
    · intro key
      by_cases hkey : key ∈ fields.map Expanded.responseKey
      · obtain ⟨f, hf, rfl⟩ := mem_map.1 hkey
        obtain ⟨f', -, hmatched, hrel⟩ := hanswers.exists_right hf
        rw [← hmatched.own.key rfl] at hrel
        exact Option.rel_imp hrel fun v v' hv => ⟨hv, hv.same⟩
      · have hkey' : key ∉ fields'.map Expanded.responseKey :=
          fun h => hkey ((Expanded.perm_keys hanswers fun _ _ hff => hff.1).mem_iff.2 h)
        have hnone : response.answer? key = none := Response.answer?_of_notMem (by
          rw [hmembers, map_map]
          exact hkey)
        have hnone' : response'.answer? key = none := Response.answer?_of_notMem (by
          rw [hmembers', map_map]
          exact hkey')
        rw [hnone, hnone']
        exact .none
    · rw [hmembers, hmembers']
      refine .of_arranged (hanswers.map fun f f' hff => ⟨hff.1.own.key rfl, ?_⟩) ?_
      · exact Option.rel_getD hff.2 (.refl _)
      · rw [map_map]
        exact happart.nodup
  · have hdata : response.data = [] := execute_of_error herror
    have hdata' : response'.data = [] := execute_of_error herror'
    refine ⟨fun key => ?_, ?_⟩
    · rw [Response.answer?_of_notMem (hdata ▸ not_mem_nil),
        Response.answer?_of_notMem (hdata' ▸ not_mem_nil)]
      exact .none
    · rw [hdata, hdata']
      exact .refl _

/-- The people with their greetings, every record from its end. -/
def Neighbours.greetingsFirst : String :=
  "\x7bpeople: [\x7bfriends: null, greeting: [\"B\"], called: \"Bob\"\x7d, "
    ++ "\x7bfriends: [\x7bgreeting: [\"E\"]\x7d], greeting: [\"A\"], called: \"Ada\"\x7d]\x7d"

open Neighbours in
/-- People who are greeted, and the same with every selection set turned around. -/
theorem neighbours_reordered :
    greeted.schema.Plain greeted.services ∧ greeted.services.Keep Eager ∧ everyone.Eager
      ∧ ∃ document, Document.parse greeted.schema acquaintances none = .ok document
        ∧ document.Rearranged .orderOnly (document.rebuilt id List.reverse)
        ∧ document.Unambiguous []
        ∧ (object (greeted.execute document [] everyone).1.data).text = greetings
        ∧ (object (greeted.execute (document.rebuilt id List.reverse)
          [] everyone).1.data).text
            = greetingsFirst
        ∧ (object (greeted.execute document [] everyone).1.data).Reordered
            (.object (greeted.execute (document.rebuilt id List.reverse) [] everyone).1.data)
        ∧ Option.Rel (fun v v' => v.Reordered v' ∧ (v.same v = true → v.same v' = true))
            ((greeted.execute document [] everyone).1.answer? "people")
            ((greeted.execute (document.rebuilt id List.reverse)
              [] everyone).1.answer? "people") := by
  have hrun : (Document.parse greeted.schema acquaintances none).toOption.any (fun document =>
      decide (document.Unambiguous []
        ∧ (object (greeted.execute document [] everyone).1.data).text = greetings
        ∧ (object (greeted.execute (document.rebuilt id List.reverse)
          [] everyone).1.data).text
            = greetingsFirst))
        = true := by
    decide +kernel
  obtain ⟨document, hparse, hpasses⟩ := exists_of_parse hrun
  obtain ⟨hunambiguous, htext, htext'⟩ := of_decide_eq_true hpasses
  have hreordered : document.Rearranged .orderOnly (document.rebuilt id List.reverse) :=
    document.rearranged_rebuilt (fun _ _ => rfl) fun l => .of_perm rfl (reverse_perm l).symm
  obtain ⟨hanswers, hdata⟩ := execute_reorders greeted plain_greeted
    (keep_services _ _) acquaintances none
    document hparse _ hreordered [] hunambiguous everyone eager_everyone
  exact ⟨plain_greeted, keep_services _ _, eager_everyone, document, hparse, hreordered,
    hunambiguous, htext, htext', hdata, hanswers "people"⟩

end Executor
end QueryProjection
