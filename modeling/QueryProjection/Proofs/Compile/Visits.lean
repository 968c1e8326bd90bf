import QueryProjection.Proofs.Compile.Fields
import QueryProjection.Proofs.Execute.Outcome

/-!
# The fields that a compilation gets to

A pass goes down the expanded tree.  It does not go below a field that has no selection, and the
data pass does not go below a field that needs a service.  Which fields it gets to can be read off
the tree: `Expanded.reached`.  Where it compiles them cannot, because a hook may choose the context
of the elements of its list.  `Compiler.visits` follows a compilation and says for each field it
gets to in which context and scope the field is compiled, and from which memory.

* `Compiler.compileFrom_enters` and `Compiler.compileResolved_opens` take a compilation apart into
  what becomes of the field and where its selection is compiled;
* `Compiler.field_visits`: a compilation that succeeds visits the fields that the tree says.

A visit has the context, the scope and the memory in which a field is compiled, so that facts about
one field can be said without a compilation around it: whose arguments an entry holds, or that its
hooks read too much.  It is computed along the compilation and not by it, since it has to be there
for compilations that fail too.
-/

namespace QueryProjection

/-! ## In the tree -/

mutual

/-- The occurrences of fields that a pass gets to, in order: the field itself and, unless the field
has no selection or is left to the full pass, those that it gets to in the selection. -/
def Expanded.reached (mode : Mode) : Expanded → List SelectedField
  | .mk field _ _ selection =>
    field :: if Compiler.defers mode field || field.definition.shape = .leaf then []
      else ExpandedSelection.reached mode (selection ())

/-- The same for a selection. -/
def ExpandedSelection.reached (mode : Mode) : ExpandedSelection → List SelectedField
  | .selects fields => Expanded.reachedAll mode fields
  | .failed _ => []

/-- The same for the fields of a selection, in turn. -/
def Expanded.reachedAll (mode : Mode) : List Expanded → List SelectedField
  | [] => []
  | field :: rest => field.reached mode ++ Expanded.reachedAll mode rest

end

theorem Expanded.reached_eq (mode : Mode) (e : Expanded) :
    e.reached mode = e.field ::
      if Compiler.defers mode e.field || e.field.definition.shape = .leaf then []
      else e.selection.reached mode := by
  obtain ⟨field, origin, fragments, selection⟩ := e
  rw [Expanded.reached]
  rfl

/-! ## In a compilation -/

namespace Compiler

/-- Where something is compiled: in a context and a scope, with a memory. -/
structure Situation where
  context : Expr
  scope : Scope
  memory : Memory

/-- A field, and where it is compiled. -/
structure Visit extends Situation where
  field : SelectedField

namespace Situation

/-- Where a field that came by this origin is compiled: a field of a fragment in a context of the
fragment's own, except over fetched data. -/
def enter (s : Situation) : Origin → Situation
  | .direct => s
  | .fragment name typeCondition =>
    if s.context.ty.shape?.isSome then s
    else
      let own := fragmentParameter name typeCondition s.memory.next
      ⟨.parameter own, s.scope.bind own, { s.memory with next := s.memory.next + 1 }⟩

/-- Where a field of a selection is compiled. -/
def child (s : Situation) (field : SelectedField) : Situation :=
  { s with scope := s.scope.field field.responseKey }

/-- Where the selection of a resolved field is compiled, if it has one. -/
def below? (field : SelectedField) (resolved : Resolved) (scope : Scope) (m : Memory) :
    Option Situation :=
  let scope := (withArguments scope resolved.arguments).2
  let fresh := { m with next := m.next + 1 }
  match field.definition.shape with
  | .leaf => none
  | .object =>
    let element := placeholder field resolved.expression.ty m.next
    some ⟨.parameter element, objectScope scope resolved element, fresh⟩
  | .list =>
    resolved.expression.ty.element?.bind fun ty =>
      let element := placeholder field ty m.next
      match outcome (runPreSelection (hookContext scope resolved) field.definition.extensions
          ⟨resolved.expression, element, .parameter element⟩) fresh with
      | (.ok pre, m₁) => some ⟨pre.elementContext, elementScope scope resolved element pre, m₁⟩
      | (.error _, _) => none

end Situation

mutual

/-- The fields that compiling a field gets to, in order, and where they are compiled. -/
def visits (compiler : Compiler) (s : Situation) : Expanded → List Visit
  | .mk field origin _ selection =>
    if defers s.scope.mode field then [⟨s, field⟩]
    else
      let s := s.enter origin
      ⟨s, field⟩ ::
        match outcome (Resolve.resolve field compiler.values s.context s.scope) s.memory with
        | (.ok resolved, m) =>
          match Situation.below? field resolved s.scope m with
          | some inner => visitsIn compiler inner (selection ())
          | none => []
        | (.error _, _) => []

/-- The same for a selection. -/
def visitsIn (compiler : Compiler) (s : Situation) : ExpandedSelection → List Visit
  | .selects fields => visitsAll compiler s fields
  | .failed _ => []

/-- The same for the fields of a selection, in turn. -/
def visitsAll (compiler : Compiler) (s : Situation) : List Expanded → List Visit
  | [] => []
  | field :: rest =>
    visits compiler (s.child field.field) field
      ++ visitsAll compiler
        { s with memory := (outcome (compiler.contribute s.context s.scope field) s.memory).2 } rest

end

/-- The fields that compiling a field of the operation gets to, against the schema. -/
def rootVisits (compiler : Compiler) (schema : Schema) (root : RootField) (mode : Mode)
    (m : Memory) : List Visit :=
  compiler.visits ⟨.parameter schema.context, rootScope schema root mode, m⟩ root.field

/-! ## What becomes of a field -/

section Fields

variable {compiler : Compiler} {field : SelectedField} {select : Select} {resolved : Resolved}
  {scope : Scope} {compiled : Compiled} {s : Situation} {m m' : Memory}

theorem mode_enter (s : Situation) (origin : Origin) :
    (s.enter origin).scope.mode = s.scope.mode := by
  cases origin with
  | direct => rfl
  | fragment name typeCondition =>
    rw [Situation.enter]
    split <;> rfl

theorem compileFrom_enters {origin : Origin}
    (h : Gives (compiler.compileFrom field origin select s.context s.scope) s.memory compiled m') :
    ∃ own m₁, Gives (compiler.compileField field select (s.enter origin).context
      (s.enter origin).scope)
        (s.enter origin).memory own m₁
      ∧ compiled.constants = own.constants ∧ compiled.deferredServices = own.deferredServices := by
  obtain ⟨hdirect, h⟩ | ⟨name, typeCondition, _, own, m₁, _, rfl, hshape, rfl, h, -,
      -, hcompiled, -⟩ :=
    compileFrom_gives.1 h
  · have hsame : s.enter origin = s := by
      cases origin with
      | direct => rfl
      | fragment name typeCondition => exact if_pos (hdirect.resolve_left nofun)
    rw [hsame]
    exact ⟨compiled, m', h, rfl, rfl⟩
  · have hfragment : s.enter (.fragment name typeCondition)
        = ⟨.parameter (fragmentParameter name typeCondition s.memory.next),
          s.scope.bind (fragmentParameter name typeCondition s.memory.next),
          { s.memory with next := s.memory.next + 1 }⟩ :=
      if_neg (Bool.eq_false_iff.1 hshape)
    rw [hfragment]
    exact ⟨own, m₁, h, by rw [hcompiled], by rw [hcompiled]⟩

/-- A resolved field is done if it has no selection.  Otherwise its selection is compiled, and adds
its constants to those of the field. -/
theorem compileResolved_opens (h : Gives (compileResolved field select resolved scope) m
      compiled m') :
    (field.definition.shape = .leaf ∧ Situation.below? field resolved scope m = none
      ∧ compiled.constants = (withArguments scope resolved.arguments).1
      ∧ compiled.deferredServices = false)
    ∨ field.definition.shape ≠ .leaf ∧ ∃ inner selection m₁,
        Situation.below? field resolved scope m = some inner ∧ inner.scope.mode = scope.mode
        ∧ Gives (select inner.context inner.scope) inner.memory selection m₁
        ∧ compiled.constants = (withArguments scope resolved.arguments).1.extend selection.constants
        ∧ compiled.deferredServices = selection.deferredServices := by
  have hmode : (withArguments scope resolved.arguments).2.mode = scope.mode := by
    cases resolved.arguments <;> rfl
  rw [compileResolved_eq] at h
  unfold Situation.below?
  cases hshape : field.definition.shape with
  | leaf =>
    rw [hshape] at h
    obtain ⟨rfl, -⟩ := gives_pure.1 h
    exact .inl ⟨rfl, rfl, rfl, rfl⟩
  | object =>
    rw [hshape] at h
    obtain ⟨-, _, selection, rfl, hselect, rfl⟩ := compileObject_gives.1 h
    exact .inr ⟨nofun, _, selection, m', rfl, hmode, hselect, rfl, rfl⟩
  | list =>
    rw [hshape] at h
    obtain ⟨ty, _, pre, m₁, selection, m₂, fields, hty, rfl, hpre, hselect, -, h⟩ :=
      compileList_gives.1 h
    have hpre : outcome _ _ = (Except.ok pre, m₁) := hpre
    refine .inr ⟨nofun, ⟨pre.elementContext,
      elementScope _ resolved (placeholder field ty m.next) pre, m₁⟩, selection,
      m₂, ?_, hmode, hselect, ?_⟩
    · simp only [hty, Option.bind_some, hpre]
    · split at h
      · obtain ⟨-, rfl⟩ := h
        exact ⟨rfl, rfl⟩
      · obtain ⟨_, -, rfl⟩ := h
        exact ⟨rfl, rfl⟩

/-- A field is resolved where it is entered, and then its selection is compiled field by field, if
it has one. -/
theorem compileExpanded_opens {e : Expanded}
    (h : Gives (compiler.compileExpanded s.context s.scope e) s.memory compiled m') :
    ∃ resolved m₁, Gives (Resolve.resolve e.field compiler.values (s.enter e.origin).context
      (s.enter e.origin).scope)
        (s.enter e.origin).memory resolved m₁
      ∧ ((e.field.definition.shape = .leaf
          ∧ Situation.below? e.field resolved (s.enter e.origin).scope m₁ = none
          ∧ compiled.constants = (withArguments (s.enter e.origin).scope resolved.arguments).1
          ∧ compiled.deferredServices = false)
        ∨ e.field.definition.shape ≠ .leaf ∧ ∃ inner selection fields contributions m₂ m₃,
          Situation.below? e.field resolved (s.enter e.origin).scope m₁ = some inner
          ∧ inner.scope.mode = s.scope.mode ∧ e.selection = .selects fields
          ∧ Gives (compiler.compileFields inner.context inner.scope fields) inner.memory
            contributions m₂
          ∧ Gives (assemble contributions) m₂ selection m₃
          ∧ compiled.constants
            = (withArguments (s.enter e.origin).scope resolved.arguments).1.extend
              selection.constants
          ∧ compiled.deferredServices = selection.deferredServices) := by
  rw [compileExpanded_eq] at h
  obtain ⟨own, m₁, h, hconstants, hdeferred⟩ := compileFrom_enters h
  obtain ⟨-, resolved, m₂, hresolve, h⟩ := compileField_gives.1 h
  refine ⟨resolved, m₂, hresolve, ?_⟩
  rw [hconstants, hdeferred]
  obtain hleaf | ⟨hshape, inner, selection, m₃, hinner, hmode, hselect, hown⟩ :=
    compileResolved_opens h
  · exact .inl hleaf
  · obtain ⟨fields, contributions, m₄, hsel, hfields, hassemble⟩ := compileSelection_gives.1 hselect
    exact .inr ⟨hshape, inner, selection, fields, contributions, m₄, m₃, hinner,
      hmode.trans (mode_enter s e.origin), hsel, hfields, hassemble, hown⟩

end Fields

/-! ## The visits of a compilation that succeeds -/

section Visits

variable {compiler : Compiler} {s : Situation} {m m' : Memory} {e : Expanded}

theorem visits_of_defers (hdefers : defers s.scope.mode e.field = true) :
    compiler.visits s e = [⟨s, e.field⟩] := by
  obtain ⟨field, origin, fragments, selection⟩ := e
  rw [visits]
  exact if_pos hdefers

theorem mem_visits_self (hdefers : defers s.scope.mode e.field = false) :
    ⟨s.enter e.origin, e.field⟩ ∈ compiler.visits s e := by
  obtain ⟨field, origin, fragments, selection⟩ := e
  have hdefers : ¬ defers s.scope.mode field = true := Bool.eq_false_iff.1 hdefers
  rw [visits, if_neg hdefers]
  exact List.mem_cons_self

theorem visits_of_resolve (hdefers : defers s.scope.mode e.field = false) {resolved : Resolved}
    (h : Gives (Resolve.resolve e.field compiler.values (s.enter e.origin).context
      (s.enter e.origin).scope) (s.enter e.origin).memory resolved m) :
    compiler.visits s e = ⟨s.enter e.origin, e.field⟩ ::
      match Situation.below? e.field resolved (s.enter e.origin).scope m with
      | some inner => compiler.visitsIn inner e.selection
      | none => [] := by
  obtain ⟨field, origin, fragments, selection⟩ := e
  have h : outcome _ _ = (Except.ok resolved, m) := h
  rw [visits]
  refine (if_neg (Bool.eq_false_iff.1 hdefers)).trans ?_
  dsimp only [Expanded.field, Expanded.origin] at h ⊢
  rw [h]
  rfl

theorem visitsAll_cons {f : Expanded} {rest : List Expanded} {c : Contribution}
    (h : Gives (compiler.contribute s.context s.scope f) s.memory c m) :
    compiler.visitsAll s (f :: rest)
      = compiler.visits (s.child f.field) f ++ compiler.visitsAll { s with memory := m } rest := by
  have h : outcome _ _ = (Except.ok c, m) := h
  rw [visitsAll, h]

theorem field_visitsAll {fields : List Expanded}
    (hbelow : ∀ f ∈ fields, ∀ {s : Situation} {compiled m'}, defers s.scope.mode f.field = false →
      Gives (compiler.compileExpanded s.context s.scope f) s.memory compiled m' →
        (compiler.visits s f).map Visit.field = f.reached s.scope.mode)
    {contributions : List Contribution}
    (h : Gives (compiler.compileFields s.context s.scope fields) s.memory contributions m') :
    (compiler.visitsAll s fields).map Visit.field = Expanded.reachedAll s.scope.mode fields := by
  induction fields generalizing s contributions with
  | nil => rfl
  | cons f rest ih =>
    obtain ⟨c, m₁, others, hc, hothers, rfl⟩ := compileFields_cons_gives.1 h
    obtain ⟨hf, hrest⟩ := List.forall_mem_cons.1 hbelow
    have hvisits :
        (compiler.visits (s.child f.field) f).map Visit.field = f.reached s.scope.mode := by
      rcases contribute_gives.1 hc with ⟨hdefers, -⟩ | ⟨hdefers, compiled, hcompiled, -⟩
      · rw [visits_of_defers (s := s.child f.field) hdefers, Expanded.reached_eq, hdefers]
        rfl
      · exact hf (s := s.child f.field) hdefers hcompiled
    rw [visitsAll_cons hc, List.map_append, hvisits, Expanded.reachedAll]
    exact congrArg _ (ih (s := { s with memory := m₁ }) hrest hothers)

/-- **A compilation gets to the fields that the tree says**, and to each of them once. -/
theorem field_visits {compiled : Compiled} (hdefers : defers s.scope.mode e.field = false)
    (h : Gives (compiler.compileExpanded s.context s.scope e) s.memory compiled m') :
    (compiler.visits s e).map Visit.field = e.reached s.scope.mode := by
  induction e using Expanded.induct generalizing s compiled m' with
  | field e ih =>
    obtain ⟨resolved, m₁, hresolve, hopens⟩ := compileExpanded_opens h
    rw [visits_of_resolve hdefers hresolve, Expanded.reached_eq, hdefers, List.map_cons]
    obtain ⟨hshape, hnone, -⟩ |
      ⟨hshape, inner, selection, fields, contributions, m₂, m₃, hinner, hmode, hsel, hfields, -⟩ :=
        hopens
    · rw [hnone, hshape]
      rfl
    · have hall := field_visitsAll (fun f hf => ih fields hsel f hf) hfields
      simp only [hinner, hsel, visitsIn, ExpandedSelection.reached, hall, hmode, hshape,
        decide_false, Bool.or_self, Bool.false_eq_true, if_false]

end Visits

end Compiler
end QueryProjection
