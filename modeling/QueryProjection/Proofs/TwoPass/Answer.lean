import QueryProjection.Proofs.TwoPass.Window

/-!
# What a field answers

What a field of a query means, said without compiling anything.  An `Interpretation` knows the
services, the values of variables and of the schema's own parameters, and what extensions make of
collections. `Interpretation.answer` is then the value of a field for a value of its context, by
recursion on the expanded selection: the resolver is evaluated, the extensions are applied, and the
selected fields of each object are answered and merged.

Both ways of executing a field are compared with this.  It is a partial function, and gives no
errors: the two ways fail in different places and with different errors, and what they have in
common is the value, if there is one.  What is not in it is what compiling adds: numbers, contexts
of fragments, records of fetched members and their keys.  What extensions make of a collection is a
parameter of it, so that the kinds of extensions are dealt with before, one by one (`Arrangement`).
-/

namespace QueryProjection

open List

/-! ## Arguments -/

namespace Resolve

variable (field : SelectedField) (given : VariableValues)

theorem toOption_argumentValue (path path' : FieldPath) (definition : ArgumentDefinition) :
    (argumentValue field given path definition).toOption
      = (argumentValue field given path' definition).toOption := by
  refine Option.ext fun v => ?_
  have hok : ∀ path, (argumentValue field given path definition).toOption = some v
      ↔ argumentValue field given path definition = .ok v := fun path => by
    cases argumentValue field given path definition <;> simp [Except.toOption]
  rw [hok, hok, argumentValue_eq_ok_iff, argumentValue_eq_ok_iff]

theorem toOption_argumentValues (path path' : FieldPath)
    (declared : List (String × ArgumentDefinition)) :
    (argumentValues field given path declared).toOption
      = (argumentValues field given path' declared).toOption := by
  induction declared with
  | nil => rfl
  | cons d rest ih =>
    obtain ⟨name, definition⟩ := d
    have hown := toOption_argumentValue field given path path' definition
    rw [argumentValues, argumentValues]
    revert hown ih
    cases argumentValue field given path definition <;>
      cases argumentValue field given path' definition <;>
      cases argumentValues field given path rest <;>
      cases argumentValues field given path' rest <;>
      simp [Except.toOption, bind, Except.bind, pure, Except.pure]
    rintro rfl rfl
    exact ⟨rfl, rfl⟩

end Resolve

/-- Every argument that is written is declared. -/
def SelectedField.Known (field : SelectedField) : Prop :=
  ∀ a ∈ field.arguments, Assoc.contains a.1 field.definition.arguments = true

/-- The values of the arguments of a field, if all of them have one.  A field that declares no
arguments has no record of them. -/
def SelectedField.record? (field : SelectedField) (given : VariableValues) :
    Option (Option (List (String × Value))) :=
  if field.definition.arguments = [] then some none
  else (Resolve.argumentValues field given .operation field.definition.arguments).toOption.map some

/-- The arguments of a field, bound to a parameter with this number. -/
def Resolve.bound (field : SelectedField) (record : Option (List (String × Value))) (next : Nat) :
    Option (Parameter × Value) :=
  record.map fun values => (argumentsParameter field next, .object values)

theorem Resolve.map_fst_bound (field : SelectedField) (record : Option (List (String × Value)))
    (next : Nat) :
    (bound field record next).map Prod.fst = record.map fun _ => argumentsParameter field next := by
  cases record <;> rfl

theorem Resolve.id_bound (field : SelectedField) (record : Option (List (String × Value)))
    (next : Nat) : ∀ b ∈ bound field record next, b.1.id < next + record.toList.length := by
  cases record with
  | none => exact fun b hb => absurd hb (Option.not_mem_none b)
  | some values =>
    rintro b ⟨⟩
    exact Nat.lt_succ_self _

variable {field : SelectedField} {α β : Type} {P : Value → Prop} {v u w : Value}
  {f g k : Value → Option Value} {shape : FieldShape}

theorem Resolve.id_eq_of_bound {record : Option (List (String × Value))} {next : Nat} :
    ∀ b ∈ bound field record next, b.1.id = next := by
  cases record with
  | none => exact fun b hb => absurd hb (Option.not_mem_none b)
  | some values =>
    rintro b ⟨⟩
    rfl

theorem Resolve.ty_bound (field : SelectedField) (record : Option (List (String × Value)))
    (next : Nat) : ∀ p ∈ (bound field record next).map Prod.fst,
      p.ty = field.definition.argumentsParameter.ty := by
  cases record with
  | none => exact fun p hp => absurd hp (Option.not_mem_none p)
  | some values =>
    rintro p ⟨⟩
    rfl

theorem Resolve.bindArguments_gives_iff {given : VariableValues} {path : FieldPath}
    {r : Option (Parameter × Value)} {m m' : Memory} :
    Gives (bindArguments field given path) m r m'
      ↔ field.Known ∧ ∃ record, field.record? given = some record
        ∧ r = bound field record m.next
        ∧ m' = { m with next := m.next + record.toList.length } := by
  rw [bindArguments_gives]
  refine and_congr_right fun _ => ?_
  by_cases hd : field.definition.arguments = []
  · simp only [hd, SelectedField.record?, ↓reduceIte, true_and, ne_eq, not_true_eq_false, false_and,
      or_false, Option.some.injEq, existsAndEq]
    rfl
  · have hvalues := toOption_argumentValues field given path .operation field.definition.arguments
    simp only [hd, SelectedField.record?, ↓reduceIte, false_and, false_or, ne_eq, not_false_eq_true,
      true_and, ← hvalues, Option.map_eq_some_iff, toOption_eq_some_iff, existsAndEq, and_true]
    rfl

/-! ## The objects of a value -/

/-- A function applied to the object, or to each object, that a value of this shape consists of. -/
def Value.each (v : Value) (shape : FieldShape) (f : Value → Option Value) : Option Value :=
  match shape with
  | .leaf => some v
  | .object => if v.isNull then some .null else f v
  | .list => v.project f

theorem mapEntries_congr {f g : α → Option β} {entries : List (String × α)}
    (h : ∀ e ∈ entries, f e.2 = g e.2) : mapEntries f entries = mapEntries g entries :=
  mapM_congr fun e he => by rw [h e he]

/-- `P` holds of the object, or of each object, that a value of this shape consists of. -/
def Value.EachOf (shape : FieldShape) (P : Value → Prop) (v : Value) : Prop :=
  match shape with
  | .leaf => True
  | .object => P v
  | .list => v.Elements P

theorem Value.project_congr (hv : v.Elements P) (h : ∀ x, P x → f x = g x) :
    v.project f = v.project g := by
  cases v with
  | null => rfl
  | object members => rw [project, project, mapEntries_congr fun m hm => h m.2 (hv m hm)]
  | _ =>
    simp only [project]
    exact Option.bind_congr fun items hitems => by rw [mapM_congr fun x hx =>
      h x (hv items hitems x hx)]

theorem Value.each_congr (hv : v.EachOf shape P) (h : ∀ x, P x → f x = g x) :
    v.each shape f = v.each shape g := by
  cases shape with
  | leaf => rfl
  | object => rw [each, each, h v hv]
  | list => exact project_congr hv h

section Each

variable {α β γ : Type} {f : α → Option β} {g : β → Option γ} {k : α → Option γ}

theorem mapM_mapM {as : List α} {bs : List β} {cs : List γ} (hf : as.mapM f = some bs)
    (hg : bs.mapM g = some cs) (h : ∀ a ∈ as, ∀ b c, f a = some b → g b = some c → k a = some c) :
    as.mapM k = some cs := by
  rw [mapM_eq_some_iff] at hf hg ⊢
  induction hf generalizing cs with
  | nil =>
    cases hg
    exact .nil
  | cons hab _ ih =>
    obtain ⟨ha, h⟩ := forall_mem_cons.1 h
    cases hg with
    | cons hbc hg => exact .cons (ha _ _ hab hbc) (ih hg h)

theorem mapEntries_mapEntries {as : List (String × α)} {bs : List (String × β)}
    {cs : List (String × γ)} (hf : mapEntries f as = some bs) (hg : mapEntries g bs = some cs)
    (h : ∀ a ∈ as, ∀ b c, f a.2 = some b → g b = some c → k a.2 = some c) :
    mapEntries k as = some cs := by
  refine mapM_mapM hf hg fun a ha b c hab hbc => ?_
  obtain ⟨b, hb, rfl⟩ := Option.map_eq_some_iff.1 hab
  obtain ⟨c, hc, rfl⟩ := Option.map_eq_some_iff.1 hbc
  rw [h a ha b c hb hc]
  rfl

end Each

theorem Value.project_project (hu : u.Elements P) (hf : u.project f = some v)
    (hg : v.project g = some w) (h : ∀ x, P x → ∀ y z, f x = some y → g y = some z → k x = some z) :
    u.project k = some w := by
  rcases project_cases hf with ⟨rfl, rfl⟩ | ⟨members, results, rfl, hresults, rfl⟩
    | ⟨items, results, hitems, hresults, rfl⟩
  · exact hg
  · obtain ⟨answers, hanswers, rfl⟩ := Option.map_eq_some_iff.1 hg
    rw [project, mapEntries_mapEntries hresults hanswers fun m hm => h m.2 (hu m hm)]
    rfl
  · obtain ⟨answers, hanswers, rfl⟩ := Option.map_eq_some_iff.1 hg
    rw [project_of_elements hitems, mapM_mapM hresults hanswers fun x hx =>
      h x (hu.of_elements hitems x hx)]
    rfl

theorem Value.each_each (hu : u.EachOf shape P) (hf : u.each shape f = some v)
    (hg : v.each shape g = some w) (hnull : ∀ x y, f x = some y → y.isNull = false)
    (h : ∀ x, P x → ∀ y z, f x = some y → g y = some z → k x = some z) :
    u.each shape k = some w := by
  cases shape with
  | leaf =>
    cases hf
    exact hg
  | object =>
    rw [each] at hf hg ⊢
    split at hf
    · rename_i hu
      cases hf
      rw [if_pos hu]
      exact hg
    · rename_i hu'
      rw [hnull u v hf] at hg
      rw [if_neg hu']
      exact h u hu v w hf hg
  | list => exact project_project hu hf hg h

/-! ## The members of a record -/

/-- The members of the record of an element: the selected fields under their names, and the
position. -/
def slots {α : Type} (name : α → String) (key : Option String) (fields : List α) :
    List (String × Option α) :=
  fields.map (fun f => (name f, some f)) ++ key.toList.map fun key => (key, none)

section Slots

variable {α β : Type} {name : α → String} {key : Option String} {k : String} {fields : List α}

theorem mem_of_mem_slots {f : α} (h : (k, some f) ∈ Merge.merge (slots name key fields)) :
    f ∈ fields := by
  obtain ⟨-, hlast⟩ := Merge.mem_merge.1 h
  obtain ⟨k', hmem, -⟩ := Merge.mem_of_last? hlast
  rcases mem_append.1 hmem with hmem | hmem
  · obtain ⟨e, he, heq⟩ := mem_map.1 hmem
    exact Option.some.inj (congrArg Prod.snd heq) ▸ he
  · obtain ⟨_, _, heq⟩ := mem_map.1 hmem
    cases congrArg Prod.snd heq

theorem mem_key_of_mem_slots (h : (k, none) ∈ Merge.merge (slots name key fields)) :
    ∃ k', k' ∈ key := by
  obtain ⟨-, hlast⟩ := Merge.mem_merge.1 h
  obtain ⟨k', hmem, -⟩ := Merge.mem_of_last? hlast
  rcases mem_append.1 hmem with hmem | hmem
  · obtain ⟨_, _, heq⟩ := mem_map.1 hmem
    cases congrArg Prod.snd heq
  · obtain ⟨k'', hk'', -⟩ := mem_map.1 hmem
    exact ⟨k'', Option.mem_toList.1 hk''⟩

theorem slots_map (g : β → α) (fields : List β) :
    slots name key (fields.map g)
      = (slots (fun f => name (g f)) key fields).map (Prod.map id (Option.map g)) := by
  simp [slots, Function.comp_def]

theorem slots_eq_map (none' : β) (g : α → β) (fields : List α) :
    (slots name key fields).map (Prod.map id fun slot => slot.elim none' g)
      = fields.map (fun f => (name f, g f)) ++ key.toList.map fun key => (key, none') := by
  simp [slots, Function.comp_def]

end Slots

/-- The name of a selected field. -/
def Expanded.responseKey (e : Expanded) : String :=
  e.field.responseKey

/-! ## Interpretations -/

/-- What it takes to say what a field answers. -/
structure Interpretation where
  services : Provider
  values : VariableValues
  /-- The values of the schema's own parameters. -/
  base : Environment
  /-- The key under which extensions add the position of each element. -/
  number : List Extension → Option String
  /-- What extensions make of the value of a collection. -/
  window : List Extension → HookArguments → Option (Value → Option Value)

namespace Interpretation

variable (I : Interpretation)

/-- The environment that a resolver is evaluated in. -/
def environment (definition : FieldDefinition) (record : Option (List (String × Value)))
    (context : Value) : Environment :=
  (record.elim I.base fun values =>
    I.base.bind definition.argumentsParameter (.object values)).bind definition.context context

/-- What a field resolves to, for a value of its context. -/
def source? (field : SelectedField) (context : Value) : Option Value :=
  (field.record? I.values).bind fun record =>
    field.definition.resolve.value? I.services (I.environment field.definition record context)

/-- What the extensions of a field make of the value that it resolves to. -/
def window? (field : SelectedField) : Option (Value → Option Value) :=
  if field.definition.shape = .list then
    (field.record? I.values).bind fun record =>
      I.window field.definition.extensions
        (record.map fun values => (field.definition.argumentsParameter.ty, values))
  else some some

/-- The key under which the extensions of a field add the position of each element. -/
def key? (field : SelectedField) : Option String :=
  if field.definition.shape = .list then I.number field.definition.extensions else none

/-- What the members of the record of an element are: the selected fields answer for the object of
the element, and the position is added behind them. -/
def members (field : SelectedField) (answers : List (String × (Value → Option Value))) :
    List (String × (Value → Option Value)) :=
  answers.map (Prod.map id fun f element => ((View.of (I.key? field)).item element).bind f)
    ++ (I.key? field).toList.map fun key => (key,
      fun element => (Expr.readMember "index" element).value?)

/-- The record of the members of an element. -/
def project? (members : List (String × (Value → Option Value))) (element : Value) : Option Value :=
  (mapEntries (· element) (Merge.merge members)).map .object

/-- What is made of the value that a field resolves to, with the answers of the fields selected
below it. -/
def below (field : SelectedField) (answers : Option (List (String × (Value → Option Value))))
    (source : Value) : Option Value :=
  if field.definition.shape = .leaf then some source
  else answers.bind fun answers => (I.window? field).bind fun window =>
    (window source).bind fun v =>
    if answers.isEmpty then some v
    else v.each field.definition.shape (project? (I.members field answers))

mutual

/-- What a field answers for a value of its context. -/
def answer : Expanded → Value → Option Value
  | .mk field _ _ selection => fun context =>
    (I.source? field context).bind (I.below field (answers (selection ())))

/-- What the fields of a selection answer, if it can be expanded. -/
def answers : ExpandedSelection → Option (List (String × (Value → Option Value)))
  | .selects fields => some (answerAll fields)
  | .failed _ => none

/-- What fields answer, under their response keys. -/
def answerAll : List Expanded → List (String × (Value → Option Value))
  | [] => []
  | e :: rest => (e.field.responseKey, answer e) :: answerAll rest

end

theorem answer_eq (e : Expanded) (context : Value) :
    I.answer e context = (I.source? e.field context).bind
      (I.below e.field (I.answers e.selection)) := by
  obtain ⟨field, origin, fragments, selection⟩ := e
  rw [answer]
  rfl

theorem isEmpty_answerAll (fields : List Expanded) :
    (I.answerAll fields).isEmpty = fields.isEmpty := by
  cases fields <;> rfl

theorem mapEntries_map {γ : Type} (f : β → Option γ) (g : α → β) (entries : List (String × α)) :
    mapEntries f (entries.map (Prod.map id g)) = mapEntries (fun a => f (g a)) entries := by
  induction entries with
  | nil => rfl
  | cons e rest ih => rw [map_cons, mapEntries_cons, mapEntries_cons, ih]; rfl

/-- The value of a member of the record of an element. -/
def fill (view : View) (element : Value) : Option Expanded → Option Value
  | some e => (view.item element).bind (I.answer e)
  | none => (Expr.readMember "index" element).value?

/-- The record of an element: each member that is left after merging is filled. -/
theorem project?_members (field : SelectedField) (fields : List Expanded) (element : Value) :
    project? (I.members field (I.answerAll fields)) element
      = (mapEntries (I.fill (View.of (I.key? field)) element)
          (Merge.merge (slots Expanded.responseKey (I.key? field) fields))).map .object := by
  have hanswers : ∀ view : View, (I.answerAll fields).map (Prod.map id fun f element =>
        (view.item element).bind f)
      = (fields.map fun e => (e.field.responseKey, some e)).map
          (Prod.map id fun slot element => I.fill view element slot) := by
    intro view
    induction fields with
    | nil => rfl
    | cons e rest ih =>
      rw [answerAll, map_cons, ih]
      rfl
  have hmembers : I.members field (I.answerAll fields)
      = (slots Expanded.responseKey (I.key? field) fields).map
          (Prod.map id fun slot element => I.fill (View.of (I.key? field)) element slot) := by
    rw [members, hanswers, slots, map_append]
    cases I.key? field <;> rfl
  rw [project?, hmembers, ← Merge.map_merge, mapEntries_map]

end Interpretation

/-! ## More values for parameters -/

section Le

variable {α β : Type} {f g : α → Option β}

theorem mapM_le {as : List α} {bs : List β} (h : ∀ a ∈ as, ∀ b, f a = some b → g a = some b)
    (hf : as.mapM f = some bs) : as.mapM g = some bs := by
  induction as generalizing bs with
  | nil => exact hf
  | cons a as ih =>
    obtain ⟨ha, has⟩ := forall_mem_cons.1 h
    rw [mapM_eq_some_iff] at hf ⊢
    cases hf with
    | cons hb hbs => exact .cons (ha _ hb) (mapM_eq_some_iff.1 (ih has (mapM_eq_some_iff.2 hbs)))

theorem mapEntries_le {entries : List (String × α)} {result : List (String × β)}
    (h : ∀ e ∈ entries, ∀ b, f e.2 = some b → g e.2 = some b)
    (hf : mapEntries f entries = some result) : mapEntries g entries = some result := by
  refine mapM_le (fun e he b hb => ?_) hf
  obtain ⟨a, ha, rfl⟩ := Option.map_eq_some_iff.1 hb
  rw [h e he a ha]
  rfl

variable {v w : Value}

theorem Value.project_le {f g : Value → Option Value} (h : ∀ x b, f x = some b → g x = some b)
    (hf : v.project f = some w) : v.project g = some w := by
  have helements : (v.elements.value?.bind fun items => (items.mapM f).map Value.list) = some w →
      (v.elements.value?.bind fun items => (items.mapM g).map Value.list) = some w := by
    intro hf
    obtain ⟨items, hitems, hf⟩ := Option.bind_eq_some_iff.1 hf
    obtain ⟨results, hresults, rfl⟩ := Option.map_eq_some_iff.1 hf
    rw [hitems, Option.bind_some, mapM_le (fun x _ => h x) hresults]
    rfl
  cases v with
  | null => exact hf
  | object members =>
    obtain ⟨results, hresults, rfl⟩ := Option.map_eq_some_iff.1 hf
    rw [project, mapEntries_le (fun e _ => h e.2) hresults]
    rfl
  | _ => exact helements hf

theorem Value.each_le {f g : Value → Option Value} (h : ∀ x b, f x = some b → g x = some b)
    (hf : v.each shape f = some w) : v.each shape g = some w := by
  cases shape with
  | leaf => exact hf
  | object =>
    rw [each] at hf ⊢
    split
    · rename_i hnull
      rwa [if_pos hnull] at hf
    · rename_i hnull
      rw [if_neg hnull] at hf
      exact h _ _ hf
  | list => exact project_le h hf

end Le

namespace Interpretation

variable (I : Interpretation) {v : Value}

theorem below_le {J : Interpretation} {selection : ExpandedSelection}
    (hwindow : I.window? field = J.window? field) (hkey : I.key? field = J.key? field)
    (h : ∀ fields, selection = .selects fields → ∀ f ∈ fields, ∀ x v,
      I.answer f x = some v → J.answer f x = some v) {source : Value}
    (hv : I.below field (I.answers selection) source = some v) :
    J.below field (J.answers selection) source = some v := by
  cases selection with
  | failed error =>
    rw [answers] at hv ⊢
    unfold below at hv ⊢
    exact hv
  | selects fields =>
    have hproject : ∀ x v, project? (I.members field (I.answerAll fields)) x = some v →
        project? (J.members field (J.answerAll fields)) x = some v := by
      intro x v hv
      rw [project?_members] at hv ⊢
      rw [← hkey]
      obtain ⟨members, hmembers, rfl⟩ := Option.map_eq_some_iff.1 hv
      rw [mapEntries_le (fun e he b hb => ?_) hmembers]
      · rfl
      · rcases e with ⟨key, _ | f⟩
        · exact hb
        · obtain ⟨x, hx, hb⟩ := Option.bind_eq_some_iff.1 hb
          exact Option.bind_eq_some_iff.2 ⟨x, hx, h fields rfl f (mem_of_mem_slots he) x b hb⟩
    rw [answers] at hv ⊢
    unfold below at hv ⊢
    split
    · rename_i hleaf
      rwa [if_pos hleaf] at hv
    · rename_i hleaf
      rw [if_neg hleaf, Option.bind_some, isEmpty_answerAll] at hv
      rw [Option.bind_some, isEmpty_answerAll]
      obtain ⟨window, hw, hv⟩ := Option.bind_eq_some_iff.1 hv
      obtain ⟨u, hu, hv⟩ := Option.bind_eq_some_iff.1 hv
      rw [← hwindow, hw, Option.bind_some, hu, Option.bind_some]
      split
      · rename_i hempty
        rwa [if_pos hempty] at hv
      · rename_i hempty
        rw [if_neg hempty] at hv
        exact Value.each_le hproject hv

theorem answer_mono {base : Environment} (hbase : ∀ p v, I.base p = some v → base p = some v)
    {e : Expanded} (hbuilt : e.Every fun field _ => field.definition.resolve.Built P False)
    {x : Value} (h : I.answer e x = some v) : { I with base }.answer e x = some v := by
  induction e using Expanded.induct generalizing x v with
  | field e ih =>
    rw [answer_eq] at h ⊢
    obtain ⟨source, hsource, h⟩ := Option.bind_eq_some_iff.1 h
    have hsource' : { I with base }.source? e.field x = some source := by
      obtain ⟨record, hrecord, hsource⟩ := Option.bind_eq_some_iff.1 hsource
      obtain ⟨_, hown⟩ := hbuilt.holds
      refine Option.bind_eq_some_iff.2 ⟨record, hrecord, ?_⟩
      refine Expr.value?_mono hown (fun p _ => Environment.bind_le x fun _ => ?_) hsource
      rcases record with _ | values
      · exact hbase p
      · exact Environment.bind_le _ fun _ => hbase p
    rw [hsource', Option.bind_some]
    refine I.below_le (J := { I with base }) rfl rfl (fun fields hsel f hf x v => ?_) h
    exact ih fields hsel f hf (hbuilt.of_selects hsel hf)

end Interpretation
end QueryProjection
