import QueryProjection.Document.Grammar
import QueryProjection.Proofs.Eager

/-!
# What the grammar reads

The values that are written in a document hold no lazy sequence: `Grammar.eager_of_parse`.  So the
value of an argument holds none either, if the values that are supplied for the variables hold none:
`VariableValues.eager_of_resolve`.

* `Grammar.Reads` says that whatever is read has a property; there is a rule for each piece that
  grammars are made of.

Nothing is said about what a text has to look like to be read.  A property of the result needs no
more than the last step of each rule, so a grammar is gone through once, with most of its pieces
passed over (`Grammar.reads_bind`).
-/

namespace QueryProjection

open List Value

/-! ## Eager values of arguments -/

mutual

/-- There is no lazy sequence in what is written as the value of an argument. -/
def ArgumentValue.Eager : ArgumentValue → Prop
  | .literal value => value.Eager
  | .var _ => True
  | .list items => ArgumentValue.EagerItems items
  | .object members => ArgumentValue.EagerMembers members

/-- The same for the items of a list. -/
def ArgumentValue.EagerItems : List ArgumentValue → Prop
  | [] => True
  | item :: rest => item.Eager ∧ ArgumentValue.EagerItems rest

/-- The same for the members of an object. -/
def ArgumentValue.EagerMembers : List (String × ArgumentValue) → Prop
  | [] => True
  | (_, value) :: rest => value.Eager ∧ ArgumentValue.EagerMembers rest

end

theorem ArgumentValue.eagerItems_iff {items : List ArgumentValue} :
    EagerItems items ↔ ∀ v ∈ items, v.Eager := by
  induction items with
  | nil => simp [EagerItems]
  | cons item rest ih => simp [EagerItems, ih]

theorem ArgumentValue.eagerMembers_iff {members : List (String × ArgumentValue)} :
    EagerMembers members ↔ ∀ m ∈ members, m.2.Eager := by
  induction members with
  | nil => simp [EagerMembers]
  | cons m rest ih =>
    obtain ⟨key, value⟩ := m
    simp [EagerMembers, ih]

/-- There is no lazy sequence in the default of a variable. -/
def VariableDefinition.Eager (d : VariableDefinition) : Prop :=
  ∀ v ∈ d.default, v.Eager

/-- There is no lazy sequence in what the variables may stand for. -/
structure VariableValues.Eager (values : VariableValues) : Prop where
  definitions : ∀ d ∈ values.definitions, d.Eager
  supplied : ∀ s ∈ values.supplied, s.2.Eager

namespace VariableValues

variable {values : VariableValues}

theorem eager_of_get? (h : values.Eager) {name : String} {v : Value}
    (hv : values.get? name = some v) : v.Eager := by
  unfold get? at hv
  split at hv
  · rename_i w hw
    exact Option.some.inj hv ▸ h.supplied _ (Assoc.mem_of_find? hw)
  · split at hv
    · cases hv
    · rename_i d hd
      split at hv
      · rename_i w hw
        exact Option.some.inj hv ▸ h.definitions d (mem_of_find?_eq_some hd) w hw
      · split at hv
        · exact Option.some.inj hv ▸ kept_eager.null
        · cases hv

mutual

/-- **The values of arguments are eager**, if what is written and what the variables stand for
is. -/
theorem eager_of_resolve (h : values.Eager) :
    ∀ (written : ArgumentValue) {v : Value}, written.Eager →
    values.resolve written = .ok v → v.Eager
  | .literal value, v, hw, hv => by
    rw [resolve] at hv
    rw [ArgumentValue.Eager] at hw
    exact Except.ok.inj hv ▸ hw
  | .var name, v, _, hv => by
    rw [resolve] at hv
    split at hv
    · rename_i w hget
      exact Except.ok.inj hv ▸ eager_of_get? h hget
    · cases hv
  | .list items, v, hw, hv => by
    rw [resolve] at hv
    obtain ⟨vs, hvs, hv⟩ := bind_eq_ok_iff.1 hv
    rw [ArgumentValue.Eager] at hw
    cases hv
    exact eager_list.2 (eager_of_resolveItems h items hw hvs)
  | .object members, v, hw, hv => by
    rw [resolve] at hv
    obtain ⟨vs, hvs, hv⟩ := bind_eq_ok_iff.1 hv
    rw [ArgumentValue.Eager] at hw
    cases hv
    exact eager_object.2 (eager_of_resolveMembers h members hw hvs)

theorem eager_of_resolveItems (h : values.Eager) :
    ∀ (written : List ArgumentValue) {vs : List Value},
    ArgumentValue.EagerItems written → values.resolveItems written = .ok vs → ∀ v ∈ vs, v.Eager
  | [], vs, _, hvs => by
    rw [resolveItems] at hvs
    cases hvs
    simp
  | item :: rest, vs, hw, hvs => by
    rw [resolveItems] at hvs
    obtain ⟨v, hv, hvs⟩ := bind_eq_ok_iff.1 hvs
    obtain ⟨others, hothers, hvs⟩ := bind_eq_ok_iff.1 hvs
    rw [ArgumentValue.EagerItems] at hw
    cases hvs
    exact forall_mem_cons.2
      ⟨eager_of_resolve h item hw.1 hv, eager_of_resolveItems h rest hw.2 hothers⟩

theorem eager_of_resolveMembers (h : values.Eager) : ∀ (written : List (String × ArgumentValue))
    {vs : List (String × Value)}, ArgumentValue.EagerMembers written →
      values.resolveMembers written = .ok vs → ∀ v ∈ vs, v.2.Eager
  | [], vs, _, hvs => by
    rw [resolveMembers] at hvs
    cases hvs
    simp
  | (key, item) :: rest, vs, hw, hvs => by
    rw [resolveMembers] at hvs
    obtain ⟨v, hv, hvs⟩ := bind_eq_ok_iff.1 hvs
    obtain ⟨others, hothers, hvs⟩ := bind_eq_ok_iff.1 hvs
    rw [ArgumentValue.EagerMembers] at hw
    cases hvs
    exact forall_mem_cons.2
      ⟨eager_of_resolve h item hw.1 hv, eager_of_resolveMembers h rest hw.2 hothers⟩

end

end VariableValues

/-! ## Written documents -/

mutual

/-- There is no lazy sequence in the arguments of written selections. -/
def WrittenSelection.Eager : WrittenSelection → Prop
  | .field _ _ _ arguments _ selections =>
    (∀ a ∈ arguments, a.2.Eager) ∧ WrittenSelection.EagerAll selections
  | .spread _ _ => True
  | .inline _ _ selections => WrittenSelection.EagerAll selections

/-- The same for the entries of a selection set. -/
def WrittenSelection.EagerAll : List WrittenSelection → Prop
  | [] => True
  | first :: rest => first.Eager ∧ WrittenSelection.EagerAll rest

end

theorem WrittenSelection.eagerAll_iff {selections : List WrittenSelection} :
    EagerAll selections ↔ ∀ s ∈ selections, s.Eager := by
  induction selections with
  | nil => simp [EagerAll]
  | cons first rest ih => simp [EagerAll, ih]

/-- There is no lazy sequence in what is written in a definition. -/
def WrittenDefinition.Eager : WrittenDefinition → Prop
  | .operation written =>
    (∀ d ∈ written.declarations, d.Eager) ∧ WrittenSelection.EagerAll written.selections
  | .fragment written => WrittenSelection.EagerAll written.selections

namespace Grammar

variable {α β : Type} {P : α → Prop} {Q : β → Prop} {p : Grammar α} {f : α → Grammar β}

/-! ## Rules for the pieces of grammars -/

/-- Whatever is read has the property. -/
def Reads (P : α → Prop) (p : Grammar α) : Prop :=
  ∀ (cursor : Cursor) (a : α) (after : Cursor), p cursor = some (a, after) → P a

theorem reads_pure {a : α} (h : P a) : Reads P (pure a : Grammar α) := by
  intro cursor b after hb
  cases hb
  exact h

theorem reads_failure : Reads P (failure : Grammar α) := nofun

theorem Reads.bind (hp : Reads P p) (hf : ∀ a, P a → Reads Q (f a)) : Reads Q (p >>= f) := by
  intro cursor b after h
  obtain ⟨⟨a, between⟩, ha, hb⟩ := Option.bind_eq_some_iff.1 h
  exact hf a (hp _ _ _ ha) _ _ _ hb

theorem reads_bind (hf : ∀ a, Reads Q (f a)) : Reads Q (p >>= f) :=
  Reads.bind (P := fun _ => True) (fun _ _ _ _ => trivial) fun a _ => hf a

theorem Reads.orElse {q : Grammar α} (hp : Reads P p) (hq : Reads P q) : Reads P (p <|> q) := by
  intro cursor a after h
  change (p cursor).orElse (fun _ => q cursor) = some (a, after) at h
  cases hfirst : p cursor with
  | none => exact hq _ _ _ (by rwa [hfirst] at h)
  | some first => exact hp _ _ _ (by rwa [hfirst] at h ⊢)

theorem Reads.optional (hp : Reads P p) : Reads (fun found => ∀ a ∈ found, P a) (optional p) := by
  intro cursor found after h a ha
  unfold Grammar.optional at h
  split at h
  · rename_i b between hb
    cases h
    exact Option.some.inj ha ▸ hp _ _ _ hb
  · cases h
    cases ha

theorem Reads.next (hp : Reads P p) : Reads P (next p) :=
  reads_bind fun _ => hp

theorem Reads.manyWith (hp : Reads P p) :
    ∀ fuel, Reads (fun as => ∀ a ∈ as, P a) (manyWith p fuel)
  | 0 => reads_pure nofun
  | fuel + 1 => by
    refine Reads.bind hp.next.optional fun found hfound => ?_
    cases found with
    | none => exact reads_pure nofun
    | some a =>
      refine Reads.bind (Reads.manyWith hp fuel) fun rest hrest => reads_pure ?_
      exact forall_mem_cons.2 ⟨hfound a rfl, hrest⟩

theorem Reads.many (hp : Reads P p) : Reads (fun as => ∀ a ∈ as, P a) (many p) :=
  fun cursor as after h => hp.manyWith _ cursor as after h

theorem Reads.many1 (hp : Reads P p) : Reads (fun as => ∀ a ∈ as, P a) (many1 p) :=
  Reads.bind hp.next fun _ hfirst => Reads.bind hp.many fun _ hrest =>
    reads_pure (forall_mem_cons.2 ⟨hfirst, hrest⟩)

/-! ## Values -/

theorem eager_of_ofLiteral {literal : NumberLiteral} {json : Json}
    (h : Json.ofLiteral literal = some json) : (ofJson json).Eager := by
  have hinteger : ∀ i, (ofJson (.int i)).Eager := by
    intro i
    rw [ofJson, ofInteger]
    split
    · exact kept_eager.int _
    · exact kept_eager.float _
  unfold Json.ofLiteral at h
  dsimp only at h
  split at h
  · exact Option.some.inj h ▸ hinteger _
  · split at h
    · exact Option.some.inj h ▸ hinteger _
    · obtain ⟨x, -, rfl⟩ := Option.map_eq_some_iff.1 h
      rw [ofJson]
      exact kept_eager.float x

theorem reads_number : Reads Eager number := by
  refine reads_bind fun literal => reads_bind fun _ => ?_
  split
  · rename_i json hjson
    exact reads_pure (eager_of_ofLiteral hjson)
  · exact reads_bind fun _ => reads_pure kept_eager.null

theorem reads_value (constant : Bool) : ∀ depth, Reads ArgumentValue.Eager (value constant depth)
  | 0 => reads_failure
  | depth + 1 => by
    have ih := reads_value constant depth
    have hliteral : ∀ {v : Value}, v.Eager → Reads ArgumentValue.Eager (pure (.literal v)) :=
      fun hv => reads_pure (by rwa [ArgumentValue.Eager])
    have hmember : Reads (fun m : String × ArgumentValue => m.2.Eager) (do
        let key ← name
        next (exactly ":")
        return (key, ← next (value constant depth))) :=
      reads_bind fun _ => reads_bind fun _ => Reads.bind ih.next fun _ h => reads_pure h
    rw [value]
    refine Reads.orElse ?mention <| Reads.orElse ?number <| Reads.orElse ?string <|
      Reads.orElse ?boolean <| Reads.orElse ?null <| Reads.orElse ?enum
        <| Reads.orElse ?list ?object
    case mention =>
      split
      · exact reads_failure
      · exact reads_bind fun _ => reads_pure (by rw [ArgumentValue.Eager]; trivial)
    case number => exact Reads.bind reads_number fun _ h => hliteral h
    case string => exact reads_bind fun _ => hliteral (kept_eager.string _)
    case boolean => exact reads_bind fun _ => hliteral (kept_eager.boolean _)
    case null => exact reads_bind fun _ => hliteral kept_eager.null
    case enum => exact reads_bind fun _ => hliteral (kept_eager.string _)
    case list =>
      refine reads_bind fun _ => Reads.bind ih.many fun items h => reads_bind fun _ => reads_pure ?_
      rw [ArgumentValue.Eager]
      exact ArgumentValue.eagerItems_iff.2 h
    case object =>
      refine reads_bind fun _ => Reads.bind hmember.many fun members h => reads_bind fun _ =>
        reads_pure ?_
      rw [ArgumentValue.Eager]
      exact ArgumentValue.eagerMembers_iff.2 fun m hm => h m (Assoc.mem_ofList hm)

theorem reads_arguments (depth : Nat) :
    Reads (fun given => ∀ a ∈ given, a.2.Eager) (arguments depth) := by
  have hargument : Reads (fun a : String × ArgumentValue => a.2.Eager) (do
      let key ← name
      next (exactly ":")
      return (key, ← next (value false depth))) :=
    reads_bind fun _ => reads_bind fun _ => Reads.bind (reads_value false depth).next fun _ h =>
      reads_pure h
  exact reads_bind fun _ => Reads.bind hargument.many1 fun given h => reads_bind fun _ =>
    reads_pure fun a ha => h a (Assoc.mem_ofList ha)

/-! ## Selections and definitions -/

mutual

theorem reads_selection : ∀ depth levels, Reads WrittenSelection.Eager (selection depth levels)
  | 0, _ => reads_failure
  | depth + 1, levels => by
    have hbelow : Reads WrittenSelection.EagerAll (do
        if levels = 0 then fault .nesting
        selectionSet depth (levels - 1)) := by
      split
      · exact reads_bind fun _ => reads_selectionSet depth (levels - 1)
      · exact reads_selectionSet depth (levels - 1)
    rw [selection]
    refine Reads.orElse ?field <| Reads.orElse ?inline ?spread
    case field =>
      refine reads_bind fun place => reads_bind fun named =>
        Reads.bind (reads_arguments depth).next.optional fun given hgiven =>
          reads_bind fun directives =>
          Reads.bind hbelow.next.optional fun selections hselections => reads_pure ?_
      rw [WrittenSelection.Eager]
      constructor
      · cases given with
        | none => exact nofun
        | some given => exact hgiven given rfl
      · cases selections with
        | none => trivial
        | some selections => exact hselections selections rfl
    case inline =>
      refine reads_bind fun _ => reads_bind fun condition => reads_bind fun directives =>
        Reads.bind hbelow.next fun selections h => reads_pure ?_
      rwa [WrittenSelection.Eager]
    case spread =>
      refine reads_bind fun _ => reads_bind fun _ => reads_bind fun _ => reads_bind fun name =>
        reads_bind fun directives => reads_pure ?_
      rw [WrittenSelection.Eager]
      trivial

theorem reads_selectionSet :
    ∀ depth levels, Reads WrittenSelection.EagerAll (selectionSet depth levels)
  | 0, _ => reads_failure
  | depth + 1, levels => by
    rw [selectionSet]
    exact reads_bind fun _ => Reads.bind (reads_selection depth levels).many1 fun selections h =>
      reads_bind fun _ => reads_pure (WrittenSelection.eagerAll_iff.2 h)

end

theorem reads_variableDefinition (depth : Nat) :
    Reads VariableDefinition.Eager (variableDefinition depth) := by
  have hwritten : Reads ArgumentValue.Eager (do
      exactly "="
      next (value true depth)) :=
    reads_bind fun _ => (reads_value true depth).next
  refine reads_bind fun name => reads_bind fun _ => reads_bind fun nullable => reads_bind fun _ =>
    Reads.bind hwritten.next.optional fun default h => reads_pure fun v hv => ?_
  obtain ⟨written, hdefault, hv⟩ := Option.bind_eq_some_iff.1 hv
  have hnone : (VariableValues.mk [] []).Eager :=
    ⟨forall_mem_nil _, forall_mem_nil _⟩
  have hresolve : (VariableValues.mk [] []).resolve written = .ok v := by
    cases hresolved : (VariableValues.mk [] []).resolve written with
    | error name =>
      rw [hresolved] at hv
      cases hv
    | ok w =>
      rw [hresolved] at hv
      exact congrArg _ (Option.some.inj hv)
  exact VariableValues.eager_of_resolve hnone written (h written hdefault) hresolve

theorem reads_operation (depth : Nat) :
    Reads (fun written => (WrittenDefinition.operation written).Eager) (operation depth) := by
  have hdefinitions : Reads (fun ds => ∀ d ∈ ds, d.Eager) (variableDefinitions depth) :=
    reads_bind fun _ => Reads.bind (reads_variableDefinition depth).many fun _ h =>
      reads_bind fun _ => reads_pure h
  refine reads_bind fun place => Reads.orElse ?_ ?_
  · refine reads_bind fun kind => reads_bind fun name =>
      Reads.bind hdefinitions.next.optional fun declarations hdeclarations => reads_bind fun _ =>
        Reads.bind (reads_selectionSet depth maxNesting).next fun selections h => reads_pure ⟨?_, h⟩
    cases declarations with
    | none => exact nofun
    | some declarations => exact hdeclarations declarations rfl
  · exact Reads.bind (reads_selectionSet depth maxNesting) fun _ h => reads_pure ⟨nofun, h⟩

theorem reads_fragment (depth : Nat) :
    Reads (fun written => (WrittenDefinition.fragment written).Eager) (fragment depth) :=
  reads_bind fun _ => reads_bind fun _ => reads_bind fun _ => reads_bind fun _ =>
    reads_bind fun _ =>
    Reads.bind (reads_selectionSet depth maxNesting).next fun _ h => reads_pure h

/-- **What is written is eager.** -/
theorem eager_of_parse {text : String} {written : List WrittenDefinition} {fault : Option Fault}
    (h : parse text = some (written, fault)) : ∀ d ∈ written, d.Eager := by
  have hdefinition : ∀ depth, Reads WrittenDefinition.Eager
      ((do return .operation (← operation depth)) <|> (do return .fragment (← fragment depth))) :=
    fun depth => Reads.orElse (Reads.bind (reads_operation depth) fun _ h => reads_pure h)
      (Reads.bind (reads_fragment depth) fun _ h => reads_pure h)
  have hdocument : ∀ depth, Reads (fun ds => ∀ d ∈ ds, d.Eager) (document depth) := fun depth =>
    Reads.bind (hdefinition depth).many1 fun ds hds => reads_bind fun _ =>
      reads_bind fun cursor => by
      split
      · exact reads_pure hds
      · exact reads_failure
  unfold parse at h
  split at h
  · rename_i definitions cursor hread
    cases h
    exact hdocument _ _ _ _ hread
  · cases h

end Grammar
end QueryProjection
