import QueryProjection.Proofs.Renumbered.Response

/-!
# Inlining fragments

A spread may be replaced by an inline fragment with the type condition, the directives and the
selections.

* `Selection.Inlined` and `Document.Inlined` replace any number of spreads, in the operation and in
  the fragments;
* `Document.Inlined.expandAll`: both documents expand to the same fields, but for how these came
  there;
* `Executor.execute_inlines`: both have the same response.

## Why fragments may be entered in different places

The document with fewer spreads enters fewer fragments, so the two expansions are not in step: what
one does after entering a fragment the other does at once.  `Expansion.Respreads` is what both keep.
The fragments that the second is in are among those that the first is in, so it meets no cycle that
the first does not meet; and what the first takes to be written where it is, so does the second.

The fields that a fragment brings in are compiled against a parameter that has the type the fragment
says, `Selection.brings`.  A field that takes its type from its context may therefore notice the
difference, and so may a predicate or a key that mentions a parameter of its own.  Up to that, a
field is compiled alike however it came where it is, and the response of either document is that of
the tree in which all fields are written where they are.
-/

namespace QueryProjection

open Compiler ExpandedSelection List

open Expanded Expansion RootField Selection

/-! ## Documents -/

/-- The selection is the other one, perhaps with inline fragments in place of spreads. -/
inductive Selection.Inlined (fragments : List (String × Fragment)) : Selection → Selection → Prop
  | field {field : SelectedField} {directives : List Directive}
      {selections selections' : List Selection}
      (below : Forall₂ (Inlined fragments) selections selections') :
      Inlined fragments (.field field directives selections) (.field field directives selections')
  | inline {condition : Option String} {directives : List Directive}
      {selections selections' : List Selection}
      (below : Forall₂ (Inlined fragments) selections selections') :
      Inlined fragments (.inline condition directives selections)
        (.inline condition directives selections')
  | spread {name : String} {directives : List Directive} :
      Inlined fragments (.spread name directives) (.spread name directives)
  | replaced {name : String} {directives : List Directive} {fragment : Fragment}
      {selections : List Selection} (found : Assoc.find? name fragments = some fragment)
      (below : Forall₂ (Inlined fragments) fragment.selections selections) :
      Inlined fragments (.spread name directives)
        (.inline (some fragment.typeCondition) directives selections)

/-- The document is the other one with inline fragments in place of some spreads. -/
structure Document.Inlined (document document' : Document) : Prop where
  declarations : document'.declarations = document.declarations
  selections :
    Forall₂ (Selection.Inlined document.fragments) document.selections document'.selections
  fragments : Assoc.Entries Eq (fun f f' => f'.typeCondition = f.typeCondition
    ∧ Forall₂ (Selection.Inlined document.fragments) f.selections f'.selections) document.fragments
    document'.fragments

namespace Selection

mutual

/-- The fields that a selection brings into the selection set it stands in, other than by a
spread. -/
def brings : Selection → List SelectedField
  | .field selected _ _ => [selected]
  | .spread _ _ => []
  | .inline _ _ selections => bringsIn selections

/-- The same for several selections. -/
def bringsIn : List Selection → List SelectedField
  | [] => []
  | selection :: rest => brings selection ++ bringsIn rest

end

end Selection

/-- No field that the fragments of the document bring in takes its type from its context. -/
def Document.Settled (document : Document) : Prop :=
  ∀ f ∈ document.fragments, ∀ field ∈ Selection.bringsIn f.2.selections, field.definition.Settled

/-! ## Trees -/

variable {fields : List Expanded} {origin' : Origin}

theorem ExpandedSelection.unspread_eq_selects {selection : ExpandedSelection} :
    selection.unspread = .selects fields
      ↔ ∃ fields', selection = .selects fields' ∧ fields = fields'.map Expanded.unspread := by
  cases selection with
  | failed error => simp [unspread]
  | selects fields' => simp [unspread, Expanded.unspreadAll_eq, eq_comm]

theorem ExpandedSelection.unspread_ofExcept (result : Except ExpansionError (List Expanded)) :
    (ofExcept result).unspread
      = .ofExcept (result.map (map Expanded.unspread)) := by
  cases result with
  | error error => rfl
  | ok fields =>
    simp only [ofExcept, unspread, Expanded.unspreadAll_eq, Except.map]

namespace Expanded

theorem every_unspread {P : SelectedField → List Selection → Prop} {e : Expanded} :
    e.unspread.Every P ↔ e.Every P := by
  induction e using Expanded.induct with
  | field e ih =>
    constructor
    · rintro ⟨selections, holds, empty, below⟩
      rw [e.field_unspread] at holds
      rw [e.selection_unspread] at empty below
      refine .intro selections holds (fun hnil => ?_) fun fields hsel f hf => ?_
      · obtain ⟨fields, hsel, hfields⟩ := unspread_eq_selects.1 (empty hnil)
        rw [hsel, map_eq_nil_iff.1 hfields.symm]
      · have hsel' := unspread_eq_selects.2 ⟨fields, hsel, rfl⟩
        exact (ih fields hsel f hf).1 (below _ hsel' _ (mem_map_of_mem hf))
    · rintro ⟨selections, holds, empty, below⟩
      have hholds : P e.unspread.field selections := e.field_unspread.symm ▸ holds
      refine .intro selections hholds (fun hnil => ?_) fun fields hsel f hf => ?_
      · rw [e.selection_unspread, empty hnil]
        rfl
      · rw [e.selection_unspread] at hsel
        obtain ⟨fields', hsel', rfl⟩ := unspread_eq_selects.1 hsel
        obtain ⟨f', hf', rfl⟩ := mem_map.1 hf
        exact (ih fields' hsel' f' hf').2 (below fields' hsel' f' hf')

/-- The field is the other one, with as much or less that came by fragments. -/
structure Respread (e e' : Expanded) : Prop where
  unspread : e'.unspread = e.unspread
  settled : e.Settled → e'.Settled

/-- Both selection sets cannot be expanded, for the same reason, or they expand to corresponding
fields. -/
abbrev RespreadAll :
    Except ExpansionError (List Expanded) → Except ExpansionError (List Expanded) → Prop :=
  Except.Rel (Forall₂ Respread)

theorem respread_mk (field : SelectedField) {origin : Origin}
    (horigin : origin = .direct → origin' = .direct) (active active' : List String)
    {below below' : Except ExpansionError (List Expanded)} (h : RespreadAll below below') :
    Respread (.mk field origin active fun _ => .ofExcept below)
      (.mk field origin' active' fun _ => .ofExcept below') := by
  refine ⟨?_, fun hsettled x hx hdirect => ?_⟩
  · simp only [Expanded.unspread, unspread_ofExcept]
    cases h with
    | ok h => simp only [Except.map, map_eq_map_of_forall₂ h fun _ _ h => h.unspread]
    | error e => rfl
  · cases hx with
    | here => exact hsettled (.mk field origin active _) .here (mt horigin hdirect)
    | under hsel hf hx =>
      cases h with
      | error e => cases hsel
      | ok h =>
        cases hsel
        obtain ⟨f, hf', hfields⟩ := exists_mem_of_forall₂ h hf
        exact hfields.settled (fun y hy => hsettled y (.under rfl hf' hy)) x hx hdirect

end Expanded

/-! ## Expansions -/

namespace Expansion

variable {document document' : Document} {supplied : Variables}
  {first rest result : Except ExpansionError (List Expanded)} {origin : Origin}
  {active : List String} {selections : List Selection}

theorem respreadAll_joined {first' rest' : Except ExpansionError (List Expanded)}
    (hfirst : RespreadAll first first') (hrest : RespreadAll rest rest') :
    RespreadAll (joined first rest) (joined first' rest') :=
  hfirst.bind fun _ _ hfields => hrest.bind fun _ _ hothers => .ok (rel_append hfields hothers)

theorem admits_of_inlined (hvalues : document'.declarations = document.declarations)
    {selection selection' : Selection} (h : selection.Inlined document.fragments selection') :
    (ofDocument document' supplied).admits selection'
      = (ofDocument document supplied).admits selection := by
  have hvalues : (ofDocument document' supplied).values = (ofDocument document supplied).values :=
    congrArg (VariableValues.mk · supplied) hvalues
  cases h <;> exact included_of_values hvalues _ _

theorem direct_of_spreadOrigin {fragment : Fragment} {name : String} :
    spreadOrigin origin fragment name ≠ .direct := by
  cases origin <;> nofun

/-- Whatever inline fragments stand in place of spreads, the selections expand to the same, where
the fragments that are being expanded are among those of the original. -/
def Respreads (document document' : Document) (supplied : Variables) (origin : Origin)
    (active : List String) (selections : List Selection)
    (result : Except ExpansionError (List Expanded)) : Prop :=
  (∀ name ∈ spreadsIn selections, (active ++ [name]).IsChain document.Spreads) →
  ∀ {selections' : List Selection} {origin' : Origin} {active' : List String},
    Forall₂ (Inlined document.fragments) selections selections' →
    (origin = .direct → origin' = .direct) → active' ⊆ active →
    ∃ result', (ofDocument document' supplied).Expands origin' active' selections' result'
      ∧ RespreadAll result result'

/-- The same for one selection that the directives let in, and that others may follow. -/
def RespreadsOne (document document' : Document) (supplied : Variables) (origin : Origin)
    (active : List String) (selection : Selection)
    (result : Except ExpansionError (List Expanded)) : Prop :=
  (∀ name ∈ spreads selection, (active ++ [name]).IsChain document.Spreads) →
  ∀ {selection' : Selection} {origin' : Origin} {active' : List String},
    selection.Inlined document.fragments selection' →
    (ofDocument document' supplied).admits selection' = .ok true →
    (origin = .direct → origin' = .direct) → active' ⊆ active →
    ∃ result', RespreadAll result result' ∧ ∀ {rest others},
      (ofDocument document' supplied).Expands origin' active' rest others →
      (ofDocument document' supplied).Expands origin' active' (selection' :: rest)
        (joined result' others)

theorem Respreads.field {field : SelectedField} {directives : List Directive}
    (h : Respreads document document' supplied .direct active selections result) :
    RespreadsOne document document' supplied origin active (.field field directives selections)
      (.ok [.mk field origin active fun _ => .ofExcept result]) := by
  intro hchain selection' origin' active' hs hadmits horigin hactive
  cases hs with
  | field hbelow =>
    obtain ⟨below, hbelow, hrelated⟩ := h hchain hbelow (fun h => h) hactive
    exact ⟨_, .ok (.cons (respread_mk field horigin active active' hrelated) .nil),
      .field hadmits hbelow⟩

theorem Respreads.inline {condition : Option String} {directives : List Directive}
    (h : Respreads document document' supplied origin active selections result) :
    RespreadsOne document document' supplied origin active (.inline condition directives selections)
      result := by
  intro hchain selection' origin' active' hs hadmits horigin hactive
  cases hs with
  | inline hbelow =>
    obtain ⟨inner, hinner, hrelated⟩ := h hchain hbelow horigin hactive
    exact ⟨inner, hrelated, .inline hadmits hinner⟩

section

variable (hdocument : document.Inlined document') {name : String} {directives : List Directive}

include hdocument

/-- A fragment is spread in both documents, or an inline fragment has taken its place. -/
theorem Respreads.spread {fragment : Fragment}
    (hfind : Assoc.find? name document.fragments = some fragment) (hmem : name ∉ active)
    (h : Respreads document document' supplied (spreadOrigin origin fragment name)
      (active ++ [name]) fragment.selections result) :
    RespreadsOne document document' supplied origin active (.spread name directives) result := by
  intro hchain selection' origin' active' hs hadmits horigin hactive
  have hchain' : ∀ next ∈ spreadsIn fragment.selections,
      (active ++ [name] ++ [next]).IsChain document.Spreads := by
    intro next hnext
    rw [append_assoc]
    exact isChain_append_cons_cons.2 ⟨hchain name (mem_singleton.2 rfl), ⟨fragment, hfind, hnext⟩,
      isChain_singleton next⟩
  cases hs with
  | spread =>
    have hfound := Assoc.rel_find? hdocument.fragments name
    rw [hfind] at hfound
    generalize hfind' : Assoc.find? name document'.fragments = found at hfound
    cases hfound with
    | some hbelow =>
      obtain ⟨inner, hinner, hrelated⟩ := h hchain' hbelow.2
        (fun h => absurd h direct_of_spreadOrigin)
        fun x hx => mem_append.2 ((mem_append.1 hx).imp_left (@hactive x))
      exact ⟨inner, hrelated, .spread hadmits hfind' (fun h => hmem (hactive h)) hinner⟩
  | replaced hfound hbelow =>
    obtain rfl := Option.some.inj (hfind.symm.trans hfound)
    obtain ⟨inner, hinner, hrelated⟩ := h hchain' hbelow
      (fun h => absurd h direct_of_spreadOrigin) fun x hx => mem_append_left _ (hactive hx)
    exact ⟨inner, hrelated, .inline hadmits hinner⟩

theorem respreads_unknown {rest : List Selection}
    (h : (ofDocument document supplied).admits (.spread name directives) = .ok true)
    (hfind : Assoc.find? name document.fragments = none) :
    Respreads document document' supplied origin active (.spread name directives :: rest)
      (.error ⟨none, .unknownFragment name⟩) := by
  rintro - selections' origin' active' (_ | ⟨hs, -⟩) - -
  have hadmits := (admits_of_inlined hdocument.declarations hs).trans h
  cases hs with
  | spread =>
    have hfound := Assoc.rel_find? hdocument.fragments name
    rw [hfind] at hfound
    generalize hfind' : Assoc.find? name document'.fragments = found at hfound
    cases hfound
    exact ⟨_, .unknown hadmits hfind', .error _⟩
  | replaced hfound => exact nomatch hfound.symm.trans hfind

theorem RespreadsOne.cons {selection : Selection}
    (hfirst : RespreadsOne document document' supplied origin active selection first)
    (h : (ofDocument document supplied).admits selection = .ok true)
    (hrest : Respreads document document' supplied origin active selections rest) :
    Respreads document document' supplied origin active (selection :: selections)
      (joined first rest) := by
  rintro hchain selections' origin' active' (_ | ⟨hs, hselections⟩) horigin hactive
  obtain ⟨others, hothers, hrelated⟩ :=
    hrest (fun name hname => hchain name (mem_append_right _ hname)) hselections horigin hactive
  obtain ⟨first', hrelated', hjoined⟩ :=
    hfirst (fun name hname => hchain name (mem_append_left _ hname)) hs
      ((admits_of_inlined hdocument.declarations hs).trans h) horigin hactive
  exact ⟨_, hjoined hothers, respreadAll_joined hrelated' hrelated⟩

/-- A document with inline fragments in place of spreads expands to the same.  Of the original it is
enough that no fragment spreads itself. -/
theorem Expands.inlined (hacyclic : document.Acyclic)
    (h : (ofDocument document supplied).Expands origin active selections result) :
    Respreads document document' supplied origin active selections result := by
  induction h with
  | nil =>
    rintro - selections' origin' active' ⟨⟩ - -
    exact ⟨_, .nil, .ok .nil⟩
  | refused h =>
    rintro - selections' origin' active' (_ | ⟨hs, -⟩) - -
    exact ⟨_, .refused ((admits_of_inlined hdocument.declarations hs).trans h), .error _⟩
  | excluded h _ ih =>
    rintro hchain selections' origin' active' (_ | ⟨hs, hrest⟩) horigin hactive
    obtain ⟨others, hothers, hrelated⟩ :=
      ih (fun name hname => hchain name (mem_append_right _ hname)) hrest horigin hactive
    exact ⟨others, .excluded ((admits_of_inlined hdocument.declarations hs).trans h) hothers,
      hrelated⟩
  | field h _ _ ihbelow ih => exact ihbelow.field.cons hdocument h ih
  | inline h _ _ ihinner ih => exact ihinner.inline.cons hdocument h ih
  | unknown h hfind => exact respreads_unknown hdocument h hfind
  | circular _ _ hmem =>
    rintro hchain selections' origin' active' - - -
    have hname := hchain _ (mem_append_left _ (mem_singleton.2 rfl))
    exact absurd (isCycle_cycleOf hmem hname).transGen (hacyclic _)
  | spread h hfind hmem _ _ ihinner ih =>
    exact (ihinner.spread hdocument hfind hmem).cons hdocument h ih

end

/-- The fields that an expansion gives are settled, with what is below them. -/
def SettledIn (result : Except ExpansionError (List Expanded)) : Prop :=
  ∀ fields, result = .ok fields → ∀ f ∈ fields, f.Settled

theorem SettledIn.joined (hfirst : SettledIn first) (hrest : SettledIn rest) :
    SettledIn (joined first rest) := by
  intro fields h f hf
  obtain ⟨fields₁, h₁, h⟩ := bind_eq_ok_iff.1 h
  obtain ⟨fields₂, h₂, h⟩ := bind_eq_ok_iff.1 h
  cases h
  exact (mem_append.1 hf).elim (hfirst fields₁ h₁ f) (hrest fields₂ h₂ f)

theorem settledIn_field {field : SelectedField}
    (hfield : origin ≠ .direct → field.definition.Settled)
    {below : Except ExpansionError (List Expanded)} (hbelow : SettledIn below) :
    SettledIn (.ok [.mk field origin active fun _ => .ofExcept below]) := by
  rintro fields ⟨⟩ f hf x hx
  obtain rfl := mem_singleton.1 hf
  cases hx with
  | here => exact hfield
  | under hsel hf' hx =>
    cases below with
    | error error => cases hsel
    | ok fields =>
      cases hsel
      exact hbelow _ rfl _ hf' x hx

/-- The fields that come by a fragment have types that do not depend on their contexts. -/
theorem Expands.settled (hdocument : document.Settled)
    (h : (ofDocument document supplied).Expands origin active selections result)
    (hbrought : origin ≠ .direct → ∀ field ∈ bringsIn selections, field.definition.Settled) :
    SettledIn result := by
  induction h with
  | nil =>
    rintro fields ⟨⟩ f hf
    cases hf
  | refused | unknown | circular => exact fun fields h => nomatch h
  | excluded _ _ ih =>
    exact ih fun horigin field hfield => hbrought horigin field (mem_append_right _ hfield)
  | @field _ _ field _ _ _ _ _ _ _ _ ihbelow ih =>
    refine SettledIn.joined (settledIn_field (fun horigin => ?_) (ihbelow fun h => absurd rfl h))
      (ih fun horigin field hfield => hbrought horigin field (mem_append_right _ hfield))
    exact hbrought horigin field (mem_append_left _ (mem_singleton.2 rfl))
  | inline _ _ _ ihinner ih =>
    exact (ihinner fun horigin field hfield =>
      hbrought horigin field (mem_append_left _ hfield)).joined
      (ih fun horigin field hfield => hbrought horigin field (mem_append_right _ hfield))
  | spread _ hfind _ _ _ ihinner ih =>
    exact (ihinner fun _ => hdocument _ (Assoc.mem_of_find? hfind)).joined
      (ih fun horigin field hfield => hbrought horigin field (mem_append_right _ hfield))

end Expansion

/-- **A document with inline fragments in place of spreads expands to the same fields**, but for how
these came there; and those that come by a fragment have types that do not depend on their
contexts. -/
theorem Document.Inlined.expandAll {document document' : Document}
    (hinlined : document.Inlined document')
    (hacyclic : document.Acyclic) (hsettled : document.Settled) (supplied : Variables) :
    RespreadAll ((ofDocument document supplied).expandAll [] document.selections)
        ((ofDocument document' supplied).expandAll [] document'.selections)
      ∧ SettledIn ((ofDocument document supplied).expandAll [] document.selections) := by
  have hexpands := expands_iff.2
    (rfl : (ofDocument document supplied).expandAll [] document.selections = _)
  obtain ⟨result', hexpands', hrespread⟩ := hexpands.inlined hinlined hacyclic
    (fun name _ => isChain_singleton name) hinlined.selections (fun h => h) (List.Subset.refl [])
  rw [expands_iff.1 hexpands']
  exact ⟨hrespread, hexpands.settled hsettled fun h => absurd rfl h⟩

/-! ## Executing -/

theorem RootField.unspread_mergeRoot (field : Expanded) (roots : List RootField) :
    (mergeRoot field roots).map unspread
      = mergeRoot field.unspread (roots.map unspread) := by
  induction roots with
  | nil => simp only [mergeRoot, map_cons, map_nil, unspread, field.field_unspread]
  | cons root rest ih =>
    simp only [mergeRoot, map_cons, unspread, field.field_unspread]
    split
    · rfl
    · rw [map_cons, ih]
      rfl

theorem RootField.unspread_mergeRoots (fields : List Expanded) (roots : List RootField) :
    (fields.foldl (fun roots field => mergeRoot field roots) roots).map RootField.unspread
      = (fields.map Expanded.unspread).foldl (fun roots field => mergeRoot field roots)
          (roots.map RootField.unspread) := by
  induction fields generalizing roots with
  | nil => rfl
  | cons field rest ih => rw [foldl_cons, ih, map_cons, foldl_cons, unspread_mergeRoot]

theorem Compiler.mem_mergeRoots {root : RootField}
    (h : root ∈ fields.foldl (fun roots field => mergeRoot field roots) []) : root.field ∈ fields :=
  mem_of_merge (mergeRoots_eq fields) h

namespace Executor

variable {executor : Executor}

/-- Fields of the operation that differ only in how they came there are executed alike. -/
theorem executeRoots_eq_of_unspread (hcontext : executor.schema.context.id < executor.schema.next)
    (compiler : Compiler) (data : Value) {roots roots' : List RootField}
    (h : roots'.map RootField.unspread = roots.map RootField.unspread)
    (hroots : ∀ root ∈ roots, (root.field.Every fun field _ =>
      field.definition.Numbered executor.schema)
      ∧ root.field.Settled)
    (hroots' : ∀ root ∈ roots', (root.field.Every fun field _ =>
      field.definition.Numbered executor.schema)
      ∧ root.field.Settled) (m : Memory) :
    (executor.executeRoots compiler data roots' m).1
      = (executor.executeRoots compiler data roots m).1
      ∧ (executor.executeRoots compiler data roots' m).2.events
        = (executor.executeRoots compiler data roots m).2.events := by
  have hm : m.Agree m := ⟨rfl, rfl⟩
  obtain ⟨hresponse, hmemory⟩ := executeRoots_unspread hcontext compiler data hroots hm
  obtain ⟨hresponse', hmemory'⟩ := executeRoots_unspread hcontext compiler data hroots' hm
  rw [h] at hresponse' hmemory'
  exact ⟨hresponse'.symm.trans hresponse, hmemory'.events.symm.trans hmemory.events⟩

/-- **Named fragments are transparent.**  Where no fragment spreads itself, a document with inline
fragments in place of some spreads has the response of the document, and the same events on the way,
if predicates and keys do not depend on numbers and no field that a fragment brings in takes its
type from its context. -/
theorem execute_inlines (executor : Executor)
    (hcontext : executor.schema.context.id < executor.schema.next) (document document' : Document)
    (hfields : document.Every fun field _ => field.definition.Numbered executor.schema)
    (hsettled : document.Settled) (hacyclic : document.Acyclic)
    (hinlined : document.Inlined document') (supplied : Variables) (data : Value) :
    executor.execute document' supplied data = executor.execute document supplied data := by
  obtain ⟨hrespread, hsettled⟩ := hinlined.expandAll hacyclic hsettled supplied
  have hevery := @Expansion.every_of_expandAll _ document supplied hfields
  have hvalues :
      (Expansion.ofDocument document' supplied).values
        = (Expansion.ofDocument document supplied).values :=
    congrArg (VariableValues.mk · supplied) hinlined.declarations
  unfold execute rootFields
  dsimp only
  rw [hvalues]
  generalize (Expansion.ofDocument document supplied).expandAll [] document.selections = result at *
  generalize (Expansion.ofDocument document' supplied).expandAll [] document'.selections
    = result' at *
  cases hrespread with
  | error e => rfl
  | @ok fields fields' hfields =>
    have hunspread : fields'.map Expanded.unspread = fields.map Expanded.unspread :=
      map_eq_map_of_forall₂ hfields fun _ _ h => h.unspread
    have hroots := RootField.unspread_mergeRoots fields []
    have hroots' := RootField.unspread_mergeRoots fields' []
    rw [hunspread, ← hroots] at hroots'
    obtain ⟨hresponse, hevents⟩ := executeRoots_eq_of_unspread hcontext
      ⟨(Expansion.ofDocument document supplied).values, executor.settings⟩ data hroots'
      (fun root hroot => ⟨hevery rfl _ (mem_mergeRoots hroot),
        hsettled fields rfl _ (mem_mergeRoots hroot)⟩)
      (fun root hroot => by
        obtain ⟨f, hf, h⟩ := exists_mem_of_forall₂ hfields (mem_mergeRoots hroot)
        refine ⟨?_, h.settled (hsettled fields rfl f hf)⟩
        rw [← Expanded.every_unspread, h.unspread, Expanded.every_unspread]
        exact hevery rfl f hf)
      { next := executor.schema.next }
    exact Prod.ext hresponse hevents

/-! People with their friends, as `{ me { a: friends { ...F } key: scores greeting } }` asks for
them. -/

namespace Circle

def context : Parameter := ⟨0, "ctx", .object "Query"⟩

def person : Parameter := ⟨1, "person", .object "Person"⟩

def noArguments : Parameter := ⟨2, "args", .record []⟩

def me : FieldDefinition :=
  ⟨"me", none, context, .member (.parameter context) "me" (.object "Person"),
    noArguments, [], [], []⟩

/-- A field that reads a member of a person. -/
def plain (member : String) (ty : Ty) : FieldDefinition :=
  ⟨member, none, person, .member (.parameter person) member ty, noArguments, [], [], []⟩

/-- A field that resolves to the person itself. -/
def self : FieldDefinition :=
  ⟨"self", none, person, .parameter person, noArguments, [], [], []⟩

/-- A service greets the person. -/
def greeting : FieldDefinition :=
  ⟨"greeting", none, person,
    .serviceCall "Greeter" "greet" [.member (.parameter person) "name" .string] .string,
    noArguments, [], ["Greeter"], []⟩

/-- The friends of a person in the order of a key. -/
def sorted (key : Expr → Fresh Expr) : FieldDefinition :=
  ⟨"sorted", none, person, .member (.parameter person) "friends" (.list (.object "Person")),
    ⟨3, "args_sorted", .record [("descending", .boolean)]⟩,
    [("descending", ⟨"descending", .boolean, some (.boolean false), false⟩)], [], [.sort key]⟩

def byName (element : Expr) : Fresh Expr := return .member element "name" .string

/-- The name of somebody else, for every friend. -/
def byStranger (_ : Expr) : Fresh Expr :=
  return .member (.parameter ⟨4, "stranger", .object "Person"⟩) "name" .string

def greeter : Executor where
  schema := ⟨"Query", context, [], 5⟩
  services := Services.provider ⟨[("Greeter::greet", fun arguments => pure (.list arguments))]⟩

/-- What is selected of friends. -/
def below (field : FieldDefinition) : List Selection :=
  [.field ⟨field.name, field, []⟩ [] [.field ⟨"name", plain "name" .string, []⟩ [] []]]

def asking (key : String) (field : FieldDefinition) (inner : Selection) : Document where
  selections := [.field ⟨"me", me, []⟩ []
    [.field ⟨"a", plain "friends" (.list (.object "Person")), []⟩ [] [inner],
      .field ⟨key, plain "scores" (.list .int), []⟩ [] [], .field ⟨"greeting", greeting, []⟩ [] []]]
  fragments := [("F", ⟨"F", "Person", below field⟩)]

def spread (key : String) (field : FieldDefinition) : Document :=
  asking key field (.spread "F" [])

def inlined (key : String) (field : FieldDefinition) : Document :=
  asking key field (.inline (some "Person") [] (below field))

def ada : Value :=
  .object [("me", .object [("name", .string "Ada"), ("scores", .list [.int 5]),
    ("friends", .list [.object [("name", .string "Bob"),
      ("friends", .list [.object [("name", .string "Eve")], .object [("name", .string "Cy")]])]])])]

theorem forall₂_inlined_below (fragments : List (String × Fragment)) (field : FieldDefinition) :
    Forall₂ (Inlined fragments) (below field) (below field) :=
  .cons (.field (.cons (.field .nil) .nil)) .nil

theorem inlined_spread (key : String) (field : FieldDefinition) :
    (spread key field).Inlined (inlined key field) where
  declarations := rfl
  selections := .cons (.field (.cons
    (.field (.cons
      (@Selection.Inlined.replaced _ _ _ ⟨"F", "Person", below field⟩ _ rfl
        (forall₂_inlined_below _ field)) .nil))
    (.cons (.field .nil) (.cons (.field .nil) .nil)))) .nil
  fragments := .cons ⟨rfl, rfl, forall₂_inlined_below _ field⟩ .nil

theorem acyclic_spread (key : String) (field : FieldDefinition) : (spread key field).Acyclic := by
  have hnone : ∀ name other, ¬ (spread key field).Spreads name other := by
    rintro name other ⟨fragment, hfind, hother⟩
    obtain ⟨-, rfl⟩ := Prod.mk.injEq .. ▸ mem_singleton.1 (Assoc.mem_of_find? hfind)
    simp [below, spreadsIn, spreads] at hother
  intro name h
  obtain ⟨other, h, -⟩ := Relation.TransGen.head'_iff.1 h
  exact hnone name other h

/-- The fields know no other parameters than these, and bind none. -/
theorem numbered {definition : FieldDefinition} (hresolve : ∀ i ∈ definition.resolve.ids, i < 5)
    (hbinders : definition.resolve.binders = []) (hcontext : definition.context.id < 5)
    {shape : Shape}
    (harguments : definition.argumentsParameter.ty = .record shape)
    (hid : definition.argumentsParameter.id < 5)
    (hextensions : ∀ x ∈ definition.extensions, x.Uniform) :
    definition.Numbered greeter.schema where
  resolve := hresolve
  context := hcontext
  arguments := hid
  arguments_ty := ⟨shape, harguments⟩
  apart h := nomatch harguments.symm.trans (congrArg Parameter.ty h)
  binds h := absurd (hbinders ▸ h) not_mem_nil
  extensions _ := hextensions

theorem uniform_byName : (Extension.sort byName).Uniform := by
  refine .sort (fun element => ⟨fun n => Nat.le_refl n, fun n p hp => ?_, fun h n => ?_⟩) ?_
  · exact ⟨element, mem_singleton.2 rfl, hp⟩
  · exact h element (mem_singleton.2 rfl)
  · intro base w element element' h
    exact ⟨0, rfl, rfl, .member (h.mono (w.le_draw 0)) _ _⟩

variable {field : FieldDefinition}

theorem numbered_spread (hfield : field.Numbered greeter.schema) (key : String) :
    (spread key field).Every fun field _ => field.definition.Numbered greeter.schema := by
  have hplain : ∀ member ty, (plain member ty).Numbered greeter.schema := fun member ty =>
    numbered (by simp [plain, person, Expr.ids]) rfl (show 1 < 5 by decide) rfl
      (show 2 < 5 by decide) (by simp [plain])
  have hme : me.Numbered greeter.schema :=
    numbered (by simp [me, context, Expr.ids]) rfl (by decide) rfl (by decide) (by simp [me])
  have hgreeting : greeting.Numbered greeter.schema :=
    numbered (by simp [greeting, person, Expr.ids, Expr.idsAll]) rfl (by decide) rfl (by decide)
      (by simp [greeting])
  constructor <;> simp [spread, asking, below, Selection.EveryIn, Selection.Every, hplain, hme,
    hgreeting, hfield]

theorem settled_spread (hfield : field.Settled) (key : String) : (spread key field).Settled := by
  simp [Document.Settled, spread, asking, below, bringsIn, brings, hfield]

end Circle

open QueryProjection.Executor.Circle in
/-- The friends of friends, sorted, in a fragment. -/
theorem sorted_friends_inlined :
    (spread "scores" (sorted byName)).Every (fun field _ =>
      field.definition.Numbered greeter.schema)
      ∧ (spread "scores" (sorted byName)).Settled ∧ (spread "scores" (sorted byName)).Acyclic
      ∧ (spread "scores" (sorted byName)).Inlined (inlined "scores" (sorted byName))
      ∧ greeter.execute (inlined "scores" (sorted byName)) [] ada
        = greeter.execute (spread "scores" (sorted byName)) [] ada
      ∧ (greeter.execute (spread "scores" (sorted byName)) [] ada).1.data.map
        (fun entry => entry.2.text)
        = ["\x7ba: [\x7bsorted: [\x7bname: \"Cy\"\x7d, \x7bname: \"Eve\"\x7d]\x7d], scores: [5], greeting: [\"Ada\"]\x7d"] := by
  have hfield : (sorted byName).Numbered greeter.schema :=
    numbered (by simp [sorted, person, Expr.ids]) rfl (by decide) rfl (by decide)
      fun x hx => mem_singleton.1 hx ▸ uniform_byName
  have hnumbered := numbered_spread hfield "scores"
  have hsettled :
      (spread "scores" (sorted byName)).Settled := settled_spread (fun _ => rfl) "scores"
  have hinlined := inlined_spread "scores" (sorted byName)
  have hacyclic := acyclic_spread "scores" (sorted byName)
  exact ⟨hnumbered, hsettled, hacyclic, hinlined,
    execute_inlines greeter (by decide) _ _ hnumbered hsettled hacyclic hinlined []
      ada, by decide +kernel⟩

open QueryProjection.Executor.Circle in
/-- **Both assumptions are needed.**  If a key mentions a person of its own, a spread takes it for
the person whose friends are sorted, and an inline fragment leaves it unbound.  A field that
resolves to its context has the type that the fragment says if it is spread; otherwise it has the
type of what was fetched, and that is another field where two have the same key. -/
theorem inlining_shows :
    ((spread "scores" (sorted byStranger)).Settled ∧ (spread "scores" (sorted byStranger)).Acyclic
      ∧ (spread "scores" (sorted byStranger)).Inlined (inlined "scores" (sorted byStranger))
      ∧ (greeter.execute (spread "scores" (sorted byStranger)) [] ada).1.errors = []
      ∧ (greeter.execute (inlined "scores" (sorted byStranger)) [] ada).1.errors.map
        FieldError.message
        = ["Parameter 'stranger' is not bound"])
    ∧ (spread "a" self).Every (fun field _ => field.definition.Numbered greeter.schema)
      ∧ (spread "a" self).Acyclic ∧ (spread "a" self).Inlined (inlined "a" self)
      ∧ (greeter.execute (spread "a" self) [] ada).1.errors = []
      ∧ (greeter.execute (inlined "a" self) [] ada).1.errors.map FieldError.message
        = ["Field 'me.a.self' was expected to resolve to an object but resolves to Int"] := by
  have hself : self.Numbered greeter.schema :=
    numbered (by simp [self, person, Expr.ids]) rfl (by decide) rfl (by decide) (by simp [self])
  refine ⟨⟨settled_spread (fun _ => rfl) _, acyclic_spread _ _, inlined_spread _ _, ?_, ?_⟩,
    numbered_spread hself _, acyclic_spread _ _, inlined_spread _ _, ?_, ?_⟩ <;> decide +kernel

end Executor

end QueryProjection
