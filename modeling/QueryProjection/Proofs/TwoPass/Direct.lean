import QueryProjection.Proofs.TwoPass.Projection

/-!
# The full pass answers

A field that is compiled in full, in a context of an object type, evaluates to what the field
answers: `Compiler.forced?_compileExpanded`.  That is the one-pass execution of a field, and also
what happens below a service field when the full pass runs over fetched data.

* `Compiler.Placement` are the parts of a compiled field: the context of its own, the arguments, the
  resolver in its place, and what came of the selection;
* `Compiler.placement_of_compileExpanded` takes a compilation apart, once for all later arguments.

Everything that a field is compiled from comes with new numbers, so nothing that is bound on the way
down stands in the way of anything else.  That is why the invariant only says that numbers are at
least `next`, the first one that the schema does not use: parameters of the schema are older than
that, parameters that are drawn are not, and substitution captures nothing.
-/

namespace QueryProjection

open Interpretation List Resolve

/-! ## Regular fields -/

/-- The type is that of a record. -/
def Ty.IsRecord (ty : Ty) : Prop :=
  ∃ shape, ty = .record shape

namespace FieldDefinition.Regular

variable {services : Provider} {next : Nat} {definition : FieldDefinition}

theorem builtIn (h : definition.Regular services next) :
    definition.Hooks (Extension.BuiltIn fun _ => True) := by
  intro hlist
  obtain ⟨key, hkey⟩ := h.extensions hlist
  exact hkey.builtIn

theorem numberedBy (h : definition.Regular services next) :
    ∃ key, definition.NumberedBy services key := by
  by_cases hlist : definition.shape = .list
  · obtain ⟨key, hkey⟩ := h.extensions hlist
    exact ⟨key, fun _ => hkey, fun hne => absurd hlist hne⟩
  · exact ⟨none, fun h => absurd h hlist, fun _ => rfl⟩

end FieldDefinition.Regular

namespace SelectedField.Sound

variable {services : Provider} {next : Nat} {field : SelectedField} {selections : List Selection}

theorem contained (h : field.Sound services next selections) :
    field.definition.Contained (fun _ => True) (next ≤ ·.id) where
  own p hp hle := absurd (h.definition.free p hp) (Nat.not_lt_of_le hle)
  resolve := h.definition.resolve.imp (fun _ _ => trivial) fun h => h.elim
  defaults _ _ _ _ := trivial
  extensions := h.definition.builtIn

theorem draws (h : field.Sound services next selections) :
    field.definition.argumentsParameter.ty.IsRecord ∧ field.definition.Hooks Extension.Draws :=
  ⟨h.definition.arguments_ty, h.definition.builtIn.imp fun _ hx => hx.draws⟩

end SelectedField.Sound

theorem Expanded.Every.sound {services : Provider} {values : VariableValues} {next : Nat}
    {e : Expanded} (h : e.Every (SelectedField.Regular services values next)) :
    e.Every (SelectedField.Sound services next) :=
  h.imp fun _ _ h => h.sound

variable {compiled : Compiled} {selection : CompiledSelection} {context : Expr}

namespace Compiler

variable {compiler : Compiler} {services : Provider} {next : Nat} {scope : Scope} {m m' : Memory}

/-! ## The context of a field -/

/-- The context of its own that a field of a fragment is compiled in. -/
def ownOf (next : Nat) : Origin → Option Parameter
  | .direct => none
  | .fragment name typeCondition => some (fragmentParameter name typeCondition next)

variable {origin : Origin} {n : Nat} {context : Expr}

theorem isObject_ownOf : ∀ q ∈ ownOf n origin, q.ty.IsObject := by
  cases origin with
  | direct => exact nofun
  | fragment name typeCondition =>
    rintro q ⟨⟩
    exact ⟨typeCondition, rfl⟩

theorem ownContext_ty {R : Ty → Prop} (hR : ∀ name, R (.object name)) (h : R context.ty) :
    R (ownContext (ownOf n origin) context).ty := by
  cases origin with
  | direct => exact h
  | fragment name typeCondition => exact hR typeCondition

theorem id_ownOf : ∀ q ∈ ownOf n origin, q.id = n := by
  cases origin with
  | direct => exact nofun
  | fragment name typeCondition =>
    rintro q ⟨⟩
    rfl

/-- The scope of a field with a context of its own. -/
def ownScope (scope : Scope) (own : Option Parameter) : Scope :=
  own.elim scope scope.bind

theorem mode_ownScope (scope : Scope) (own : Option Parameter) :
    (ownScope scope own).mode = scope.mode := by
  cases own <;> rfl

theorem path_ownScope (scope : Scope) (own : Option Parameter) :
    (ownScope scope own).path = scope.path := by
  cases own <;> rfl

theorem depth_ownScope (scope : Scope) (own : Option Parameter) :
    (ownScope scope own).depth = scope.depth := by
  cases own <;> rfl

/-- The memory after a context was drawn. -/
def ownMemory (m : Memory) (own : Option Parameter) : Memory :=
  { m with next := m.next + own.toList.length }

/-- A field is compiled in its own context, if it has one, and moved; nothing is left that would
have to be told by its type. -/
theorem compileFrom_iff {field : SelectedField} {select : Select} (hty : context.ty.Bare)
    (hstale : ∀ {compiled' m₁}, Gives (compiler.compileField field select
        (ownContext (ownOf m.next origin) context) (ownScope scope (ownOf m.next origin)))
        (ownMemory m (ownOf m.next origin)) compiled' m₁ → ∀ q ∈ ownOf m.next origin,
      (compiled'.expression.replace (.identity q) context).staleParameters q.ty
        scope.parameters = []) :
    Gives (compiler.compileFrom field origin select context scope) m compiled m'
      ↔ ∃ compiled', Gives (compiler.compileField field select
            (ownContext (ownOf m.next origin) context) (ownScope scope (ownOf m.next origin)))
            (ownMemory m (ownOf m.next origin)) compiled' m'
          ∧ compiled = { compiled' with
              expression := compiled'.expression.moved (ownOf m.next origin) context } := by
  have hshape : context.ty.shape?.isSome = false := Option.isSome_eq_false_iff.2 (by rw [hty]; rfl)
  rw [compileFrom_gives]
  cases origin with
  | direct =>
    simp only [true_or, true_and, reduceCtorEq, false_and, exists_false, or_false]
    constructor
    · exact fun h => ⟨compiled, h, rfl⟩
    · rintro ⟨compiled', h, rfl⟩
      exact h
  | fragment name typeCondition =>
    -- With nothing stale, moving is replacing.
    have hmoves : ∀ {compiled' m₁}, Gives (compiler.compileField field select
          (.parameter (fragmentParameter name typeCondition m.next))
          (scope.bind (fragmentParameter name typeCondition m.next)))
          { m with next := m.next + 1 } compiled' m₁ →
        compiled'.expression.rebase compiler.settings.typeMatching
            (fragmentParameter name typeCondition m.next) context scope.parameters scope.path
          = pure (compiled'.expression.replace
              (.identity (fragmentParameter name typeCondition m.next)) context) := by
      intro compiled' m₁ h
      unfold Expr.rebase
      dsimp only
      rw [hstale h _ rfl]
    constructor
    · rintro (⟨h | h, -⟩ | ⟨_, _, own, compiled', m₁, run, ho, -, rfl, hc, rfl, hr, hcompiled, rfl⟩)
      · cases h
      · rw [hshape] at h
        cases h
      · cases ho
        rw [hmoves hc] at hr ⊢
        refine ⟨compiled', ?_, ?_⟩
        · have hevents : { m₁ with events := m₁.events ++ [] } = m₁ := by rw [append_nil]
          exact hevents.symm ▸ hc
        · exact hcompiled.trans (by rw [← Except.ok.inj hr]; rfl)
    · rintro ⟨compiled', hc, rfl⟩
      refine .inr ⟨name, typeCondition, _, compiled', m', _, rfl, hshape, rfl, hc, rfl, ?_, rfl, ?_⟩
      · rw [hmoves hc]
        rfl
      · rw [hmoves hc]
        show m' = { m' with events := m'.events ++ [] }
        rw [append_nil]

/-! ## What is free and what is drawn -/

section Facts

variable {e : Expanded}

/-- The fields below a field are sound. -/
def SoundBelow (services : Provider) (next : Nat) (e : Expanded) : Prop :=
  ∀ fields, e.selection = .selects fields →
    ∀ f ∈ fields, f.Every (SelectedField.Sound services next)

theorem selectsClosed_of_sound (h : SoundBelow services next e) :
    SelectsClosed (fun _ => True) (next ≤ ·.id) (compiler.selectOf e) :=
  selectsClosed fun fields hsel f hf => closed_of_compileExpanded Value.kept_true
    ((h fields hsel f hf).imp fun _ _ h => ⟨h.contained, fun _ _ _ _ => trivial⟩)

theorem selectsDrawn_of_sound (h : SoundBelow services next e) :
    SelectsDrawn Ty.IsRecord (compiler.selectOf e) :=
  selectsDrawn fun fields hsel f hf => drawn_of_compileExpanded
    ((h fields hsel f hf).imp fun _ _ h => h.draws)

variable {context : Expr} {c : Parameter} {compiled : Compiled}

theorem free_of_select (h : SoundBelow services next e) {element : Parameter}
    (hreads : context.ReadsOf element)
    (hs : Gives (compiler.selectOf e context scope) m selection m') {f : String × Expr}
    (hf : f ∈ selection.fields.fields) {p : Parameter} (hp : p ∈ f.2.freeParameters) :
    p = element ∨ p ∈ Assoc.keys selection.constants.entries ∨ p.id < next := by
  rcases ((selectsClosed_of_sound h hs hreads.built).keeps f hf).free p hp with hp | hp | ⟨-, hp⟩
  · exact .inl (hreads.mem_freeParameters_iff.1 hp)
  · exact .inr (.inl hp)
  · exact .inr (.inr (Nat.lt_of_not_le hp))

variable (hreg : e.Every (SelectedField.Sound services next))

include hreg

theorem soundBelow : SoundBelow services next e :=
  fun _ hsel _ hf => hreg.of_selects hsel hf

/-- A field of a fragment mentions nothing of the fragment's type but what is replaced. -/
theorem stale_eq_nil {q : Parameter} (hreads : context.ReadsOf c) (hc : c ∈ scope.parameters)
    (hq : q.ty.IsObject)
    (h : Gives (compiler.compileField e.field (compiler.selectOf e) (.parameter q) (scope.bind q)) m
      compiled m') :
    (compiled.expression.replace (.identity q) context).staleParameters q.ty
      scope.parameters = [] := by
  obtain ⟨selections, hown⟩ := hreg.holds
  have hfrom : Gives (compiler.compileFrom e.field .direct (compiler.selectOf e) (.parameter q)
      (scope.bind q)) m compiled m' := h
  have hclosed := closed_of_compileFrom Value.kept_true (fun _ _ _ _ => trivial) hown.contained
    (selectsClosed_of_sound (soundBelow hreg)) (by rw [Expr.Built]; trivial) hfrom
  have hdrawn := (drawn_of_compileFrom hown.draws.1 hown.draws.2
    (selectsDrawn_of_sound (soundBelow hreg)) hfrom).2
  refine filter_eq_nil_iff.2 fun p hp hpicks => ?_
  obtain ⟨hty, hnot⟩ : p.ty = q.ty ∧ p ∉ scope.parameters := by
    simpa [Replacement.picks] using hpicks
  rcases Expr.mem_freeParameters_replace hp with ⟨hp, hne⟩ | hp
  · rcases hclosed.keeps.free p hp with hp | hp | ⟨hp, -⟩
    · exact hne (Expr.mem_freeParameters_parameter.1 hp)
    · obtain ⟨shape, hshape⟩ := (hdrawn.range p hp).2.2
      obtain ⟨name, hname⟩ := hq
      rw [hty, hname] at hshape
      cases hshape
    · rcases mem_cons.1 hp with hp | hp
      · exact hne hp
      · exact hnot hp
  · exact hnot (hreads.mem_freeParameters_iff.1 hp ▸ hc)

theorem get?_of_compileResolved {resolved : Resolved}
    (hold : ∀ b ∈ resolved.arguments, b.1.id < m.next)
    (h : Gives (compileResolved e.field (compiler.selectOf e) resolved scope) m compiled m') :
    ∀ b ∈ resolved.arguments, compiled.constants.get? b.1 = some b.2 := by
  obtain ⟨selections, hown⟩ := hreg.holds
  by_cases hshape : e.field.definition.shape = .leaf
  · obtain ⟨rfl, -⟩ := (compileResolved_leaf hshape).1 h
    exact get?_withArguments scope
  · obtain ⟨key, hkey⟩ := hown.definition.numberedBy
    obtain ⟨ty, _, pre, m₁, selection, fields, -, rfl, hpre, hselect, -, rfl⟩ :=
      (compileResolved_gives hshape hkey).1 h
    have hm₁ : m.next < m₁.next := next_of_hooksOf hown.draws.2 hpre
    exact (includes_withArguments scope (selectsDrawn_of_sound (soundBelow hreg) hselect).2
      fun b hb => Nat.lt_trans (hold b hb) hm₁).2

theorem compileExpanded_iff (hty : context.ty.Bare) (hreads : context.ReadsOf c)
    (hc : c ∈ scope.parameters) :
    Gives (compiler.compileExpanded context scope e) m compiled m'
      ↔ ∃ compiled', Gives (compiler.compileField e.field (compiler.selectOf e)
            (ownContext (ownOf m.next e.origin) context)
            (ownScope scope (ownOf m.next e.origin)))
            (ownMemory m (ownOf m.next e.origin)) compiled' m'
          ∧ compiled = { compiled' with
              expression := compiled'.expression.moved (ownOf m.next e.origin) context } := by
  rw [compileExpanded_eq]
  refine compileFrom_iff hty fun {compiled' m₁} h q hq => ?_
  rw [hq] at h
  exact stale_eq_nil hreg hreads hc (isObject_ownOf q hq) h

end Facts

end Compiler

/-! ## Resolving in a context that is no record -/

namespace Resolve

variable {field : SelectedField} {given : VariableValues} {scope : Scope} {m m' : Memory}

theorem resolve_iff (hty : context.ty.Bare) {r : Resolved} :
    Gives (resolve field given context scope) m r m'
      ↔ field.Known ∧ ∃ record, field.record? given = some record
        ∧ r = ⟨place field.definition context ((bound field record m.next).map Prod.fst)
            field.definition.resolve, false, bound field record m.next⟩
        ∧ dangling? r.expression scope ((bound field record m.next).map Prod.fst) = none
        ∧ m' = { m with next := m.next + record.toList.length } := by
  have hshape : context.ty.shape? = none := hty
  have hback : readBack? field context scope = none := by
    unfold readBack?
    split
    · simp only [Expr.recordMember?, hshape]
      rfl
    · rfl
  have hreads : readsFetched field context scope = false := by
    rw [readsFetched, hshape, Option.isSome_none, Bool.and_false]
  simp only [resolve_gives, hback, build_gives, resolverIn_gives, hreads,
    bindArguments_gives_iff, reduceCtorEq, false_and, exists_false, false_or, true_and,
    Bool.false_eq_true, if_false, existsAndEq, and_assoc, exists_and_left, and_left_comm, and_comm]

end Resolve

namespace Compiler

variable {compiler : Compiler} {I : Interpretation} {next : Nat} {scope : Scope} {m m' : Memory}

/-! ## A field in its place -/

/-- The parts of a field that was compiled in a context that is no record. -/
structure Placement where
  /-- The context of its own that the field was compiled in. -/
  own : Option Parameter
  /-- The values of its arguments, and the number of the parameter that they are bound to. -/
  record : Option (List (String × Value))
  number : Nat
  /-- The resolver in its place. -/
  source : Expr
  /-- The field before it was moved to its context. -/
  compiled : Compiled

/-- The arguments of a field, bound to their parameter. -/
def Placement.bound (p : Placement) (field : SelectedField) : Option (Parameter × Value) :=
  Resolve.bound field p.record p.number

/-- The memory after the resolver was put in its place. -/
def Placement.memory (p : Placement) (m : Memory) : Memory :=
  { m with next := p.number + p.record.toList.length }

/-- A field that was compiled in a context that is no record has these parts. -/
structure Placement.Of (I : Interpretation) (next : Nat) (compiler : Compiler) (e : Expanded)
    (context : Expr) (scope : Scope) (m m' : Memory) (compiled : Compiled)
    (p : Placement) : Prop where
  own : ∀ q ∈ p.own, next ≤ q.id ∧ q.id < p.number
  record : e.field.record? I.values = some p.record
  number : m.next ≤ p.number
  gives : Gives (compileResolved e.field (compiler.selectOf e) ⟨p.source, false, p.bound e.field⟩
    (ownScope scope p.own)) (p.memory m) p.compiled m'
  compiled_eq :
    compiled = { p.compiled with expression := p.compiled.expression.moved p.own context }
  under : ∀ {R : Ty → Prop}, (∀ name, R (.object name)) → R context.ty →
    Ty.Under R p.source.ty e.field.definition.resolve.ty
  under_moved : ∀ {R : Ty → Prop}, (∀ name, R (.object name)) → R context.ty →
    Ty.Under R (p.source.moved p.own context).ty e.field.definition.resolve.ty
  value : ∀ {source : Value → Option Value}, I.Reaches next context e.field source →
    ∀ {env : Environment} {x : Value}, I.Runs next context x compiled.constants env →
      (p.source.moved p.own context).value? I.services env = source x

theorem Placement.id_bound (p : Placement) (field : SelectedField) (m : Memory) :
    ∀ b ∈ p.bound field, b.1.id < (p.memory m).next :=
  Resolve.id_bound field p.record p.number

section Placed

variable {e : Expanded} (hvalues : I.values = compiler.values)
  (hreg : e.Every (SelectedField.Sound I.services next)) {context : Expr}
  (hty : context.ty.Bare) {c : Parameter} (hreads : context.ReadsOf c) (hc : c ∈ scope.parameters)
  (hnext : next ≤ m.next) {compiled : Compiled}
  (h : Gives (compiler.compileExpanded context scope e) m compiled m')

include hvalues hreg hty hreads hc hnext h

theorem placement_of_compileExpanded :
    ∃ p, Placement.Of I next compiler e context scope m m' compiled p := by
  obtain ⟨compiled', hc, rfl⟩ := (compileExpanded_iff hreg hty hreads hc).1 h
  obtain ⟨-, resolved, m₁, hresolve, hc⟩ := compileField_gives.1 hc
  have hown_ty : (ownContext (ownOf m.next e.origin) context).ty.Bare :=
    ownContext_ty (R := Ty.Bare) (fun _ => rfl) hty
  obtain ⟨-, record, hrecord, rfl, -, rfl⟩ := (resolve_iff hown_ty).1 hresolve
  obtain ⟨selections, hfield⟩ := hreg.holds
  have hnumber : m.next ≤ (ownMemory m (ownOf m.next e.origin)).next := Nat.le_add_right _ _
  have hown : ∀ q ∈ ownOf m.next e.origin,
      next ≤ q.id ∧ q.id < (ownMemory m (ownOf m.next e.origin)).next := by
    intro q hq
    rw [id_ownOf q hq, ownMemory, hq]
    exact ⟨hnext, Nat.lt_succ_self _⟩
  have harguments := ty_bound e.field record (ownMemory m (ownOf m.next e.origin)).next
  refine ⟨⟨ownOf m.next e.origin, record, (ownMemory m (ownOf m.next e.origin)).next, _, compiled'⟩,
    { own := hown
      record := hvalues ▸ hrecord
      number := hnumber
      gives := hc
      compiled_eq := rfl
      under := fun hR hcontext => ?_
      under_moved := fun hR hcontext => ?_
      value := fun hsource _ _ henv => ?_ }⟩
  · exact under_place hR (ownContext_ty hR hcontext) hfield.definition.context_ty harguments _
  · exact under_moved hR hfield.definition.context_ty isObject_ownOf hcontext harguments _
  · exact hsource (hvalues ▸ hrecord) (Nat.le_trans hnext hnumber) hown henv.base henv.context
      fun b hb => henv.constants _ _ (get?_of_compileResolved hreg (id_bound _ _ _) hc b hb)

end Placed

section Bound

variable {e : Expanded} {context : Expr} {compiled : Compiled} {p : Placement}
  (hp : Placement.Of I next compiler e context scope m m' compiled p)

include hp

theorem Placement.Of.bound_ne : ∀ b ∈ p.bound e.field, b.1 ∉ p.own := by
  intro b hb hq
  have := (hp.own _ hq).2
  have := id_eq_of_bound b hb
  omega

theorem Placement.Of.own_old : ∀ q ∈ p.own, next ≤ q.id ∧ q.id < (p.memory m).next := fun q hq =>
  ⟨(hp.own q hq).1, Nat.lt_of_lt_of_le (hp.own q hq).2 (Nat.le_add_right _ _)⟩

theorem Placement.Of.constants_eq : compiled.constants = p.compiled.constants := by
  rw [hp.compiled_eq]

end Bound

/-! ## The parts of a field with a selection -/

variable {env : Environment} {services : Provider} {key : Option String} {element : Parameter}
  {fields : List Expanded} {e : Expanded}

section Parts

variable {e : Expanded} {bound : Option (Parameter × Value)} {source : Expr} {compiled : Compiled}
  {a : Anatomy} (ha : Anatomy.Of I e.field (compiler.selectOf e) bound source scope m m' compiled a)

include ha

theorem Anatomy.Of.exists_selects : ∃ fields, e.selection = .selects fields
    ∧ Gives (compiler.compileSelection ((View.of (I.key? e.field)).context a.ty a.element) a.scope
        (.selects fields)) a.memory a.selection m' := by
  have hselects := ha.selects
  obtain ⟨fields, contributions, m₁, hsel, -, -⟩ := compileSelection_gives.1 hselects
  rw [selectOf, hsel] at hselects
  exact ⟨fields, hsel, hselects⟩

theorem Anatomy.Of.moved_calls {own : Option Parameter} (hne : ∀ b ∈ bound, b.1 ∉ own)
    (source context : Expr) :
    (source.calls a.calls).moved own context = (source.moved own context).calls a.calls := by
  refine Expr.moved_calls (fun q hq c hc arg harg hmem => ?_) source
  obtain ⟨b, hb, rfl⟩ := Option.map_eq_some_iff.1 (ha.free c hc arg harg q hmem)
  exact hne b hb hq

theorem Anatomy.Of.ty_moved {own : Option Parameter} (hne : ∀ b ∈ bound, b.1 ∉ own)
    (hempty : a.fields.isEmpty = true) (hkey : I.key? e.field = none) (context : Expr) :
    (compiled.expression.moved own context).ty = (source.moved own context).ty := by
  rw [ha.compiled_eq]
  unfold projected
  rw [isEmpty_finish, hempty, if_pos rfl, ha.moved_calls hne, Expr.ty_calls (ha.picks hkey)]

variable (hbelow : SoundBelow I.services next e)

include hbelow

theorem Anatomy.Of.drawn : a.selection.constants.Drawn Ty.IsRecord a.memory.next m'.next :=
  (selectsDrawn_of_sound hbelow ha.selects).2

theorem Anatomy.Of.includes (hbound : ∀ b ∈ bound, b.1.id < m.next) :
    compiled.constants.Includes a.selection.constants
      ∧ ∀ b ∈ bound, compiled.constants.get? b.1 = some b.2 := by
  rw [ha.compiled_eq]
  refine includes_withArguments scope (ha.drawn hbelow) fun b hb => ?_
  exact Nat.lt_of_lt_of_le (hbound b hb) (Nat.le_trans ha.element_old (Nat.le_of_lt ha.element_new))

variable {own : Option Parameter} (hown : ∀ q ∈ own, next ≤ q.id ∧ q.id < m.next)

include hown

/-- The context of a fragment is older than anything that the record of an element mentions. -/
theorem Anatomy.Of.not_mem_freeParameters : ∀ q ∈ own, q ∉ (finish false (I.key? e.field) a.element
    a.fields).toRecord.freeParameters := by
  intro q hq hmem
  obtain ⟨hle, hlt⟩ := hown q hq
  have hold := ha.element_old
  have hnew := ha.element_new
  have helement : q ≠ a.element := by
    rintro rfl
    omega
  rcases free_of_finish hmem with hq | ⟨f, hf, hmem⟩
  · exact helement hq
  · rcases ha.adds.mem hf with hf | hf
    · rcases free_of_select hbelow (View.readsOf_context _ _ _) ha.selects hf hmem with hq | hq | hq
      · exact helement hq
      · have := ((ha.drawn hbelow).range q hq).1
        omega
      · omega
    · exact helement (hf q hmem)

variable (hshape : e.field.definition.shape ≠ .leaf)

include hshape

theorem Anatomy.Of.objectTy?_moved (hempty : a.fields.isEmpty = false) (context : Expr) :
    objectTy? e.field.definition.shape (compiled.expression.moved own context).ty
      = some (finish false (I.key? e.field) a.element a.fields).toRecord.ty := by
  rw [ha.compiled_eq]
  exact objectTy?_projected context (ha.not_mem_freeParameters hbelow hown) hshape
    ((isEmpty_finish _ _ _ _).trans hempty)

theorem Anatomy.Of.forced?_moved (hne : ∀ b ∈ bound, b.1 ∉ own)
    (hbound : ∀ b ∈ bound, b.1.id < m.next)
    (henv : ∀ p v, compiled.constants.get? p = some v → env p = some v) (context : Expr) :
    (compiled.expression.moved own context).forced? I.services env
      = ((source.moved own context).value? I.services env).bind fun v => (a.window v).bind fun u =>
          if a.fields.isEmpty then u.force
          else u.each e.field.definition.shape fun z =>
            (finish false (I.key? e.field) a.element a.fields).toRecord.forced? I.services
              (env.bind a.element z) := by
  obtain ⟨-, hget⟩ := ha.includes hbelow hbound
  rw [ha.compiled_eq, forced?_projected context (ha.not_mem_freeParameters hbelow hown) hshape,
    ha.moved_calls hne, ha.calls env fun b hb => henv _ _ (hget b hb), Option.bind_assoc,
    isEmpty_finish]

end Parts

/-! ## Evaluating -/

/-- Wherever the field is compiled in full, in a context that is no record, it evaluates to what it
answers. -/
def Answers (compiler : Compiler) (I : Interpretation) (next : Nat) (e : Expanded) : Prop :=
  ∀ {context : Expr} {c : Parameter} {scope : Scope} {m m' : Memory} {compiled : Compiled}
    {source : Value → Option Value} {env : Environment} {x : Value},
    Gives (compiler.compileExpanded context scope e) m compiled m' → scope.mode = .full →
    context.ty.Bare → context.ReadsOf c → c ∈ scope.parameters →
    I.Sources next context e.field source → next ≤ m.next →
    I.Runs next context x compiled.constants env → x.Eager →
    compiled.expression.forced? I.services env
      = (source x).bind (I.below e.field (I.answers e.selection))

theorem forced?_toRecord_merge {α : Type} {fields : SelectionMap} {entries : List (String × α)}
    {f : α → Expr} (h : fields.fields = Merge.merge (entries.map (Prod.map id f))) :
    fields.toRecord.forced? services env
      = (mapEntries (fun a => (f a).forced? services env) (Merge.merge entries)).map .object := by
  have hnodup : (fields.fields.map Prod.fst).Nodup := by
    rw [h, Merge.keys_merge]
    exact Merge.nodup_firstSpellings _
  rw [SelectionMap.toRecord, Expr.forced?_record (by simp) hnodup, h, ← Merge.map_merge,
    mapEntries_map]

/-- The record of an element evaluates member by member: the fields that were made, and the
position. -/
theorem forced?_finish {made : List (Expanded × Compiled)} {fields : SelectionMap}
    (hfields : fields.fields = Merge.merge (made.map fun e =>
      (e.1.field.responseKey, e.2.expression)))
    (hne : fields.isEmpty = false) {materialized : Bool} {position : Expr}
    (hposition : ∀ k ∈ key, (Expr.parameter element).recordMember?
      (if materialized then k else "index")
      = some position) :
    (finish materialized key element fields).toRecord.forced? services env
      = (mapEntries (fun slot => slot.elim (position.forced? services env) fun e =>
            e.2.expression.forced? services env)
          (Merge.merge (slots (fun e => e.1.responseKey) key made))).map .object := by
  have hfinish : (finish materialized key element fields).fields
      = Merge.merge ((slots (fun e => e.1.responseKey) key made).map
          (Prod.map id fun slot => slot.elim position fun e => e.2.expression)) := by
    rw [fields_finish hfields hne hposition, slots_eq_map]
    rfl
  rw [forced?_toRecord_merge hfinish]
  refine congrArg (Option.map Value.object) (mapEntries_congr fun e _ => ?_)
  cases e.2 <;> rfl

/-- The record of an element evaluates to what the selected fields answer for the object of the
element, with the position of the element. -/
theorem forced?_compileSelection (hI : I.Regular) (hvalues : I.values = compiler.values)
    (hne : fields ≠ []) {ty : Ty} (hty : ty.Bare)
    (helement : element.ty = (View.of key).elementTy ty)
    (h : Gives (compiler.compileSelection ((View.of key).context ty element) scope
      (.selects fields)) m selection m')
    (hfields : ∀ f ∈ fields, f.Every (SelectedField.Regular I.services compiler.values next))
    (hbelow : ∀ f ∈ fields, Answers compiler I next f) (hmode : scope.mode = .full)
    (hmem : element ∈ scope.parameters) (hid : next ≤ element.id)
    (hnext : next ≤ m.next) {z : Value}
    (hruns : I.Runs next (.parameter element) z selection.constants env)
    (hfits : (View.of key).Fits z) :
    (finish false key element selection.fields).toRecord.forced? I.services env
      = (mapEntries (I.fill (View.of key) z)
        (Merge.merge (slots Expanded.responseKey key fields))).map
          .object := by
  have hdrawn : ∀ f ∈ fields, compiler.Draws Ty.IsRecord f :=
    fun f hf => drawn_of_compileExpanded ((hfields f hf).sound.imp fun _ _ h => h.draws)
  have hbare : ((View.of key).context ty element).ty.Bare := by
    rw [View.ty_context helement]
    exact hty
  have hempty := isEmpty_compileSelection h hmode
  obtain ⟨made, m₁, rfl, hfields', hassemble, hrecord, hmade⟩ :=
    compileSelection_full (I := fun m => next ≤ m.next) hmode
      (fun f hf {_ _ _} hc hm => Nat.le_trans hm (hdrawn f hf hc).1.next) hnext h
  have hincludes := includes_of_assemble (drawn_of_compileFields hdrawn hfields').2 hassemble
  obtain ⟨x, hx, heager⟩ := hfits.item
  -- Each field that was made evaluates to what it answers for the object of the element.
  have hvalues : ∀ e ∈ made, e.2.expression.forced? I.services env = I.answer e.1 x := by
    intro e he
    obtain ⟨m₂, m₃, hm₂, hc⟩ := hmade e he
    obtain ⟨selections, hown⟩ := (hfields e.1 (mem_map_of_mem he)).holds
    rw [I.answer_eq]
    refine hbelow e.1 (mem_map_of_mem he) hc hmode hbare (View.readsOf_context _ _ _) hmem
      (sources_of_le hI (hvalues ▸ hown) (View.readsOf_context _ _ _) hid) hm₂
      ⟨hruns.base, ?_, fun p v hv => hruns.constants p v (hincludes _ (mem_map_of_mem he) p v hv)⟩
        heager
    rw [View.value?_context, (Expr.value?_parameter element).symm.trans hruns.context]
    exact hx
  have hposition :
      ∀ k ∈ key, (Expr.parameter element).recordMember? (if false = true then k else "index")
        = some (.member (.parameter element) "index" .int) := by
    intro k hk
    rw [if_neg Bool.false_ne_true]
    rw [hk] at helement
    exact (Extension.recordMember?_indexed helement).1
  rw [forced?_finish hrecord (hempty.trans (by simpa using hne)) hposition, slots_map,
    ← Merge.map_merge, mapEntries_map]
  refine congrArg (Option.map Value.object) (mapEntries_congr fun e he => ?_)
  rcases e with ⟨k, _ | e⟩
  · exact Expr.forced?_member_of_eager hruns.context hfits.eager _ _
  · refine (hvalues e (mem_of_mem_slots he)).trans ?_
    rw [Option.map_some, fill, hx, Option.bind_some]

theorem outputType?_of_selects (hreg : e.Every (SelectedField.Sound services next))
    (hsel : e.selection = .selects fields) (hne : fields ≠ []) :
    e.field.definition.outputType?.isSome = true := by
  obtain ⟨selections, hown, hempty, -⟩ := hreg
  refine hown.selections ?_
  rintro rfl
  have := (hempty rfl).symm.trans hsel
  cases this
  exact hne rfl

theorem forced?_compileResolved (hI : I.Regular) (hvalues : I.values = compiler.values)
    (hreg : e.Every (SelectedField.Regular I.services compiler.values next))
    (hbelow : ∀ fields, e.selection = .selects fields → ∀ f ∈ fields, Answers compiler I next f)
    {record : Option (List (String × Value))}
    (hrecord : e.field.record? compiler.values = some record) {n : Nat} (hnext : next ≤ n)
    (hn : m.next = n + record.toList.length) {source : Expr}
    (h : Gives (compileResolved e.field (compiler.selectOf e)
      ⟨source, false, bound e.field record n⟩ scope) m compiled m')
    (hmode : scope.mode = .full) (hunder : Ty.Under Ty.Bare source.ty e.field.definition.resolve.ty)
    {own : Option Parameter} (hown : ∀ q ∈ own, next ≤ q.id ∧ q.id < n)
    (hbase : ∀ p, p.id < next → env p = I.base p)
    (hconstants : ∀ p v, compiled.constants.get? p = some v → env p = some v)
    (heager : ∀ v, (source.moved own context).value? I.services env = some v → v.Eager) :
    (compiled.expression.moved own context).forced? I.services env
      = ((source.moved own context).value? I.services env).bind
          (I.below e.field (I.answers e.selection)) := by
  obtain ⟨selections, hfield⟩ := hreg.holds
  by_cases hshape : e.field.definition.shape = .leaf
  · obtain ⟨rfl, -⟩ := (compileResolved_leaf hshape).1 h
    unfold Expr.forced? below
    refine Option.bind_congr fun v hv => ?_
    rw [if_pos hshape, Value.force_eq_self v (heager v hv)]
  · have hbound : ∀ b ∈ bound e.field record n, b.1.id = n ∧ b.1.id < m.next := by
      intro b hb
      have hlt := id_bound e.field record n b hb
      exact ⟨id_eq_of_bound b hb, by omega⟩
    have hnew : ∀ q ∈ own, next ≤ q.id ∧ q.id < m.next := by
      intro q hq
      have := hown q hq
      omega
    have hne : ∀ b ∈ bound e.field record n, b.1 ∉ own := by
      intro b hb hq
      have := hown _ hq
      have := hbound b hb
      omega
    obtain ⟨a, ha⟩ := anatomy_of_compileResolved hI hfield.definition hshape (hvalues ▸ hrecord)
      (fun b hb => (hbound b hb).2) h
    obtain ⟨selected, hsel, hselect⟩ := ha.exists_selects
    rw [ha.forced?_moved (soundBelow hreg.sound) hnew hshape hne
      (fun b hb => (hbound b hb).2) hconstants, ha.full hmode]
    refine Option.bind_congr fun v hv => ?_
    rw [below, if_neg hshape, hsel, answers, Option.bind_some, ha.window,
      Option.bind_some, I.isEmpty_answerAll]
    refine Option.bind_congr fun u hu => ?_
    obtain ⟨hu, hfits⟩ := fits_of_window? hI hfield.definition ha.window (heager v hv) hu
    rw [isEmpty_compileSelection hselect (ha.mode.trans hmode)]
    cases selected with
    | nil => exact Value.force_eq_self u hu
    | cons first rest =>
      have hbare : a.ty.Bare :=
        under_objectTy? (outputType?_of_selects hreg.sound hsel (cons_ne_nil _ _))
          hunder ha.objectTy
      have hold := ha.element_old
      have hlt := ha.element_new
      have hid : next ≤ a.element.id := by omega
      simp only [isEmpty_cons, Bool.false_eq_true, if_false]
      refine Value.each_congr hfits fun z hz => ?_
      rw [project?_members]
      have hruns := runs_bind hid hlt (ha.drawn (soundBelow hreg.sound)) hbase
        (fun p v hv => hconstants p v
        ((ha.includes (soundBelow hreg.sound) fun b hb => (hbound b hb).2).1 p v hv)) z
      exact forced?_compileSelection hI hvalues (cons_ne_nil _ _) hbare ha.element_ty hselect
        (fun f hf => hreg.of_selects hsel hf) (hbelow _ hsel) (ha.mode.trans hmode)
        (ha.parameters ▸ mem_cons_self) hid (by omega) hruns hz

/-- **The full pass answers.**  A field that is compiled in full, in a context that is no record,
evaluates to what it answers for the value of the context. -/
theorem forced?_compileExpanded (hI : I.Regular) (hvalues : I.values = compiler.values)
    (hreg : e.Every (SelectedField.Regular I.services compiler.values next)) :
    Answers compiler I next e := by
  induction e using Expanded.induct with
  | field e ih =>
    intro context c scope m m' compiled source env x h hmode hty hreads hmem hsource hnext henv hx
    obtain ⟨p, hp⟩ := placement_of_compileExpanded hvalues hreg.sound hty hreads hmem hnext h
    have hfull : (ownScope scope p.own).mode = .full := (mode_ownScope scope p.own).trans hmode
    have heager : ∀ v, (p.source.moved p.own context).value? I.services env = some v → v.Eager := by
      intro v hv
      rw [hp.value hsource.value henv] at hv
      exact hsource.eager hx hv
    rw [hp.compiled_eq, forced?_compileResolved hI hvalues hreg
      (fun fields hsel f hf => ih fields hsel f hf (hreg.of_selects hsel hf)) (hvalues ▸ hp.record)
      (Nat.le_trans hnext hp.number) rfl hp.gives hfull
        (hp.under (fun _ => rfl) hty) hp.own henv.base
      (hp.constants_eq ▸ henv.constants) heager, hp.value hsource.value henv]

end Compiler
end QueryProjection
