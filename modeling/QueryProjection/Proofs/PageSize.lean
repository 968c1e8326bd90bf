import QueryProjection.Proofs.Conformance
import QueryProjection.Proofs.Expr.Rebase
import QueryProjection.Proofs.ServiceFree
import QueryProjection.Proofs.Stages.Order
import QueryProjection.Proofs.TwoPass.Refinement

/-!
# The size of a page

A maximum of the page size bounds the list that a field gives, wherever the extension that pages
stands among others and whatever the other arguments are, as long as the argument `take` has an
integer for its value and is not mistaken for another one (`Executor.page_bounded`).

## Why the form of the expression is enough

The hook that pages checks the size and puts a call around the collection, and later hooks put more
calls around that.  `Expr.Limited` is what all of them keep: at one point so many elements are
taken, and nothing that is called on them makes a collection longer.  Predicates and keys are not
looked at, so nothing is assumed of them.  The selection then makes one element of each element
(`Expr.ListOf`).  Both survive that a fragment is moved to another context, and so does the size,
which is read from the arguments of the field.

## Why fields below need the answers

Over fetched data a list is read back, and nothing in the expression bounds it: it is a page because
one was fetched.  For a field of the operation that shows in the two expressions that are evaluated.
Below it the list has gone through the records of all fields around it, and no expression for it is
left to look at.  There the bound is one on what the field answers
(`Interpretation.atMost_of_below`), and where two passes refine one, `Expanded.Finds` leads from
what is answered for the field of the operation to the answers in it.
-/

namespace QueryProjection

open List Resolve

/-! ## Lengths -/

namespace Value

/-- The value has at most `n` elements. -/
def AtMost (n : Nat) (v : Value) : Prop :=
  ∀ items, v.items? = some items → items.length ≤ n

variable {n k : Nat} {v w : Value}

theorem AtMost.mono (h : v.AtMost n) (hnk : n ≤ k) : v.AtMost k :=
  fun items hitems => Nat.le_trans (h items hitems) hnk

theorem AtMost.through (h : v.AtMost n)
    (hthrough : v.Through (fun items items' => items'.length ≤ items.length) w) :
    w.AtMost n := by
  intro items' hitems'
  obtain ⟨items, hitems, hle⟩ := hthrough.items items' hitems'
  exact Nat.le_trans hle (h items hitems)

theorem AtMost.project {f : Value → Option Value} (h : v.AtMost n)
    (hw : v.project f = some w) : w.AtMost n := by
  cases hnull : v.isNull with
  | true =>
    cases v with
    | null =>
      obtain rfl := Option.some.inj hw
      exact h
    | _ => cases hnull
  | false =>
    intro records hrecords
    obtain ⟨items, results, hitems, hresults, hw⟩ := items?_of_project hnull hw
    obtain rfl := Option.some.inj (hw.symm.trans hrecords)
    rw [← (mapM_eq_some_iff.1 hresults).length_eq]
    exact h items hitems

theorem AtMost.force (h : v.AtMost n) (hw : v.force = some w) : w.AtMost n := by
  have hitems : ∀ {items results : List Value}, v.items? = some items →
    items.mapM Value.force = some results →
      w.items? = some results → w.AtMost n := by
    intro items results hitems hresults hw records hrecords
    obtain rfl := Option.some.inj (hw.symm.trans hrecords)
    rw [← (mapM_eq_some_iff.1 hresults).length_eq]
    exact h items hitems
  cases v with
  | object members =>
    rw [force_object] at hw
    obtain ⟨results, hresults, rfl⟩ := Option.map_eq_some_iff.1 hw
    exact hitems rfl (mapM_map_snd hresults) rfl
  | list items =>
    rw [force_list] at hw
    obtain ⟨results, hresults, rfl⟩ := Option.map_eq_some_iff.1 hw
    exact hitems rfl hresults rfl
  | lazy iterate =>
    rw [force_lazy] at hw
    obtain ⟨items, hiterate, hw⟩ := Option.bind_eq_some_iff.1 hw
    obtain ⟨results, hresults, rfl⟩ := Option.map_eq_some_iff.1 hw
    exact hitems hiterate hresults rfl
  | _ => exact Option.some.inj hw ▸ h

end Value

namespace Method

/-- Methods that never make a collection longer. -/
inductive Shortens : Method → Prop
  | filter : Shortens .filter
  | orderBy : Shortens .orderBy
  | skip : Shortens .skip
  | take : Shortens .take
  | enumerate : Shortens .enumerate

theorem length_indexedFrom (start : Nat) (items : List Value) :
    (indexedFrom start items).length = items.length := by
  induction items generalizing start with
  | nil => rfl
  | cons item rest ih => exact congrArg Nat.succ (ih (start + 1))

variable {w : Value}

theorem Shortens.through {method : Method} (hm : method.Shortens) {w' : Value}
    {operands : List Operand} (h : (method.apply w operands).value? = some w') :
    w.Through (fun items items' => items'.length ≤ items.length) w' := by
  refine through_of_apply (fun items hitems => ?_) h
  cases hm with
  | enumerate =>
    rw [applyToItems, Run.value?_pure] at hitems
    exact ⟨_, (Option.some.inj hitems).symm, Nat.le_of_eq (length_indexedFrom 0 items)⟩
  | _ =>
    obtain ⟨picked, rfl, hpicked⟩ := subperm_of_applyToItems rfl hitems
    exact ⟨picked, rfl, hpicked.length_le⟩

end Method

/-! ## The form of expressions -/

namespace Expr

/-- The expression takes `size` elements of a collection, and calls on them methods that do not make
the collection longer again. -/
inductive Limited (size : Expr) : Expr → Prop
  | take (source : Expr) : Limited size (.call .take source [size])
  | call {method : Method} {source : Expr} (hm : method.Shortens) (h : Limited size source)
      (arguments : List Expr) : Limited size (.call method source arguments)

/-- The expression makes one element of each element of the source. -/
inductive ListOf (source : Expr) : Expr → Prop
  | self : ListOf source source
  | each (p : Parameter) (body : Expr) : ListOf source (.projectEach source p body)
  | materialize {e : Expr} (h : ListOf source e) : ListOf source (.materialize e)

variable {services : Provider} {env : Environment} {size source e : Expr} {n : Int64} {r : Value}

theorem Limited.atMost (h : Limited size e) (hsize : size.value? services env = some (.int n))
    {w : Value} (hw : e.value? services env = some w) : w.AtMost n.toInt.toNat := by
  induction h generalizing w with
  | take source =>
    rw [value?_call] at hw
    obtain ⟨v, -, hw⟩ := Option.bind_eq_some_iff.1 hw
    have hamount : (size.operand services env none).value? = some (.int n) := hsize
    intro items' hitems'
    obtain ⟨items, -, rfl⟩ := (Method.through_take hamount hw).items items' hitems'
    exact length_take_le _ _
  | call hm _ arguments ih =>
    rw [value?_call] at hw
    obtain ⟨v, hv, hw⟩ := Option.bind_eq_some_iff.1 hw
    exact (ih hv).through (hm.through hw)

theorem Limited.replaced (picks : Parameter → Bool) (target : Expr) (bound : List Parameter)
    (h : Limited size e) :
    Limited (replaceUnder picks target bound size) (replaceUnder picks target bound e) := by
  induction h with
  | take source =>
    rw [replaceUnder, replaceUnderAll_eq_map]
    exact .take _
  | call hm _ arguments ih =>
    rw [replaceUnder]
    exact .call hm ih _

theorem ListOf.atMost {n : Nat} (h : ListOf source e)
    (hsource : ∀ w, source.value? services env = some w → w.AtMost n)
    (hr : e.forced? services env = some r) : r.AtMost n := by
  induction h with
  | self =>
    obtain ⟨w, hw, hr⟩ := Option.bind_eq_some_iff.1 hr
    exact (hsource w hw).force hr
  | each p body =>
    rw [forced?_projectEach] at hr
    obtain ⟨w, hw, hr⟩ := Option.bind_eq_some_iff.1 hr
    exact (hsource w hw).project hr
  | materialize _ ih =>
    rw [forced?_materialize] at hr
    exact ih hr

theorem ListOf.replaced (picks : Parameter → Bool) (target : Expr) (bound : List Parameter)
    (h : ListOf source e) :
    ListOf (replaceUnder picks target bound source) (replaceUnder picks target bound e) := by
  induction h with
  | self => exact .self
  | each p body =>
    rw [replaceUnder]
    exact .each p _
  | materialize _ ih =>
    rw [replaceUnder]
    exact .materialize ih

/-- The expression makes one element of each element of a page of this size. -/
def Paged (size e : Expr) : Prop :=
  ∃ source, ListOf source e ∧ Limited size source

theorem Paged.atMost (h : Paged size e) (hsize : size.value? services env = some (.int n))
    (hr : e.forced? services env = some r) : r.AtMost n.toInt.toNat := by
  obtain ⟨source, hlist, hlimited⟩ := h
  exact hlist.atMost (fun _ hw => hlimited.atMost hsize hw) hr

theorem Paged.replaced {picks : Parameter → Bool}
    (hsize : ∀ q ∈ size.freeParameters, picks q = false)
    (h : Paged size e) (target : Expr) : Paged size (replaceUnder picks target [] e) := by
  obtain ⟨source, hlist, hlimited⟩ := h
  refine ⟨_, hlist.replaced picks target [], ?_⟩
  have hsame : replaceUnder picks target [] size = size :=
    replaceUnder_of_not_picked size [] fun q hq => hsize q (mem_freeParameters.2 hq)
  rw [← hsame]
  exact hlimited.replaced picks target []

theorem Paged.rebased {old : Parameter} (hsize : ∀ q ∈ size.freeParameters, q.ty ≠ old.ty)
    (h : Paged size e)
    {policy : TypeMatching} {new moved : Expr} {scope : List Parameter} {path : FieldPath}
    (hmoved : (e.rebase policy old new scope path).result = .ok moved) : Paged size moved := by
  have hidentity :
      ∀ q ∈ size.freeParameters, (Replacement.identity old).picks q = false := fun q hq =>
    Bool.eq_false_iff.2 fun hpicks => hsize q hq (congrArg Parameter.ty (picks_identity.1 hpicks))
  have htype :
      ∀ q ∈ size.freeParameters, (Replacement.typeMatch old.ty scope).picks q = false := fun q hq =>
    Bool.eq_false_iff.2 fun hpicks => hsize q hq (Replacement.picks_typeMatch.1 hpicks).1
  rcases rebase_eq_ok hmoved with rfl | rfl
  · exact h.replaced hidentity new
  · exact (h.replaced hidentity new).replaced htype new

end Expr

/-! ## Hooks -/

variable {limit : Int64} {size : Expr} {services : Provider} {env : Environment} {result : Value}

namespace Extension

variable {context : HookContext} {x : Extension} {pre pre' : PreSelection} {j j' : Journal}

theorem le_of_withinMaximum {arguments : HookArguments} (hsees : context.Sees arguments) {n : Int64}
    (hvalue : arguments.value? "take" = some (.int n))
    (h : withinMaximum context (some limit) = true) : n.toInt ≤ limit.toInt := by
  rw [withinMaximum, hsees.argumentValue?, hvalue] at h
  have hle : ¬ limit < n := by simpa [sizeAllowed, Value.asInt?] using h
  rwa [Int64.lt_iff_toInt_lt, Int.not_lt] at hle

theorem Known.limited (h : x.Known) (hgives : Gives (x.preSelection context pre) j pre' j')
    (hpre : Expr.Limited size pre.collection) : Expr.Limited size pre'.collection := by
  cases h with
  | filter argument predicate =>
    rcases filter_gives.1 hgives with ⟨-, rfl, -⟩ | ⟨-, _, _, _, -, -, -, rfl, -⟩
    · exact hpre
    · exact .call .filter hpre _
  | sort key =>
    rcases sort_gives.1 hgives with ⟨-, rfl, -⟩ | ⟨-, _, _, _, -, -, -, rfl, -⟩
    · exact hpre
    · exact .call .orderBy hpre _
  | offsetPaging defaultSize maxSize =>
    rcases offsetPaging_gives.1 hgives with ⟨-, rfl, -⟩ | ⟨-, -, _, _, -, -, rfl, -⟩
    · exact hpre
    · exact .call .take (.call .skip hpre _) _
  | position key =>
    rcases position_gives.1 hgives with ⟨-, rfl, -⟩ | ⟨-, _, _, -, -, rfl, -⟩
    · exact hpre
    · exact .call .enumerate hpre _

end Extension

namespace Compiler

section Hooks

variable {context : HookContext} {extensions : List Extension} {pre pre' : PreSelection}
  {m m' : Memory}
  (hknown : ∀ x ∈ extensions, x.Known)
  (h : Gives (runPreSelection context extensions pre) m pre' m')

include hknown h

theorem limited_of_runPreSelection (hpre : Expr.Limited size pre.collection) :
    Expr.Limited size pre'.collection :=
  keeps_of_runPreSelection (I := fun pre _ => Expr.Limited size pre.collection)
    (fun x hmem _ _ _ _ hhook hpre => (hknown x hmem).limited hhook hpre) h hpre

/-- Wherever the extension that pages stands, it has checked the size, and the collection is a page
in the end. -/
theorem exists_limited_of_runPreSelection (hmaterialized : context.materialized = false)
    {defaultSize : Option Int64} (hmem : .offsetPaging defaultSize (some limit) ∈ extensions) :
    Extension.withinMaximum context (some limit) = true
      ∧ ∃ size, context.argument? "take" = some size ∧ Expr.Limited size pre'.collection := by
  obtain ⟨before, after, rfl⟩ := append_of_mem hmem
  obtain ⟨pre₁, m₁, -, h⟩ := runPreSelection_append_gives.1 h
  obtain ⟨pre₂, j, hpaging, h⟩ := runPreSelection_cons_gives.1 h
  rw [Extension.offsetPaging_gives, hmaterialized] at hpaging
  obtain ⟨hpaging, -⟩ | ⟨-, hwithin, skip, size, -, hsize, rfl, -⟩ := hpaging
  · cases hpaging
  have hafter : ∀ x ∈ after, x.Known := fun x hx =>
    hknown x (mem_append_right _ (mem_cons_of_mem _ hx))
  exact ⟨hwithin, size, hsize, limited_of_runPreSelection hafter h (.take _)⟩

end Hooks

/-! ## Fields -/

variable {compiler : Compiler} {field : SelectedField} {select : Select} {context : Expr}
  {resolved : Resolved} {scope : Scope} {m m' : Memory} {compiled : Compiled}

theorem listOf_of_compileResolved (hshape : field.definition.shape = .list)
    (h : Gives (compileResolved field select resolved scope) m compiled m') :
    ∃ element pre m₁ inner selection m₂,
      Gives (runPreSelection (hookContext (withArguments scope resolved.arguments).2 resolved)
        field.definition.extensions ⟨resolved.expression, element, .parameter element⟩)
        { m with next := m.next + 1 } pre m₁
      ∧ Gives (select pre.elementContext inner) m₁ selection m₂
      ∧ compiled.constants = (withArguments scope resolved.arguments).1.extend selection.constants
      ∧ pre.collection.ListOf compiled.expression := by
  rw [compileResolved_eq, hshape] at h
  obtain ⟨ty, element, pre, m₁, selection, m₂, fields, -, -, hpre, hselect, -, h⟩ :=
    compileList_gives.1 h
  refine ⟨element, pre, m₁, _, selection, m₂, hpre, hselect, ?_⟩
  split at h
  · obtain ⟨-, rfl⟩ := h
    exact ⟨rfl, .self⟩
  · obtain ⟨post, -, rfl⟩ := h
    refine ⟨rfl, ?_⟩
    unfold projectList
    dsimp only
    split
    · exact .materialize (.each _ _)
    · exact .each _ _

theorem atMost_of_materialized (hknown : ∀ x ∈ field.definition.extensions, x.Known)
    (hshape : field.definition.shape = .list) (hmaterialized : resolved.materialized = true)
    (h : Gives (compileResolved field select resolved scope) m compiled m') {n : Nat}
    (hsource : ∀ w, resolved.expression.value? services env = some w → w.AtMost n)
    (hresult : compiled.expression.forced? services env = some result) : result.AtMost n := by
  obtain ⟨element, pre, m₁, inner, selection, m₂, hpre, -, -, hlist⟩ :=
    listOf_of_compileResolved hshape h
  obtain ⟨rfl, -⟩ := (runPreSelection_idle fun x hx =>
    (hknown x hx).preSelection_gives hmaterialized).1 hpre
  exact hlist.atMost hsource hresult

end Compiler

/-- A list field that pages, with this maximum.  Its extensions are of the known kinds, whatever
their predicates and keys are made of, and no other argument of the field differs from `take` in
case only. -/
structure Expanded.Paged (e : Expanded) (limit : Int64) : Prop where
  built :
    ∃ (declaration : FieldDeclaration) (parent : Parameter) (n : Nat) (defaultSize : Option Int64),
    e.field.definition = ((declaration.build parent).run n).1
      ∧ .offsetPaging defaultSize (some limit) ∈ declaration.extensions
      ∧ ∀ name ∈ declaration.argumentNames, Text.sameIgnoringCase name "take" = true → name = "take"
  list : e.field.definition.shape = .list
  known : ∀ x ∈ e.field.definition.extensions, x.Known
  draws : e.Every fun field _ => field.definition.Hooks Extension.Draws

namespace Expanded.Paged

variable {e : Expanded} {limit : Int64} (h : e.Paged limit)

include h

theorem mem_extensions :
    ∃ defaultSize, .offsetPaging defaultSize (some limit) ∈ e.field.definition.extensions := by
  obtain ⟨declaration, parent, n, defaultSize, hbuilt, hmem, -⟩ := h.built
  exact ⟨defaultSize, by rw [hbuilt]; exact hmem⟩

theorem draws_own : ∀ x ∈ e.field.definition.extensions, x.Draws := by
  obtain ⟨_, hdraws⟩ := h.draws.holds
  exact hdraws h.list

theorem plain {given : VariableValues} {record : Option (List (String × Value))}
    (hrecord : e.field.record? given = some record) :
    (e.field.hookArguments record).Plain "take" := by
  obtain ⟨declaration, parent, n, defaultSize, hbuilt, hmem, halone⟩ := h.built
  refine HookArguments.plain_of_declares (hbuilt ▸ declaration.argumentsTyped_build parent n)
    hrecord ?_
  rw [hbuilt]
  exact FieldDeclaration.declares_build parent n
    (declaration.mem_argumentNames hmem (mem_cons_of_mem _ mem_cons_self)) halone

theorem typed : ∃ shape, e.field.definition.argumentsParameter.ty = .record shape := by
  obtain ⟨declaration, parent, n, defaultSize, hbuilt, -, -⟩ := h.built
  rw [hbuilt]
  exact ⟨_, declaration.argumentsTyped_build parent n⟩

theorem selectsDrawn (compiler : Compiler) :
    Compiler.SelectsDrawn (fun _ => True) (compiler.selectOf e) :=
  Compiler.selectsDrawn fun _ hsel _ hf => Compiler.drawn_of_compileExpanded
    ((h.draws.of_selects hsel hf).imp fun _ _ hdraws => ⟨trivial, hdraws⟩)

end Expanded.Paged

namespace Compiler

variable {compiler : Compiler} {e : Expanded} {limit n : Int64}
  {record : Option (List (String × Value))}
  (hpaged : e.Paged limit) (hrecord : e.field.record? compiler.values = some record)
  (htake : record.bind (Assoc.find? "take") = some (.int n)) {context : Expr} {scope : Scope}
  {m m' : Memory} {compiled : Compiled}

include hpaged hrecord htake

/-- A paged field that is not read back is a page, of the size that is asked for, and this is within
the maximum. -/
theorem exists_paged_of_compileField (hdirect : readBack? e.field context scope = none)
    (h : Gives (compiler.compileField e.field (compiler.selectOf e) context scope) m compiled m') :
    n.toInt ≤ limit.toInt ∧ ∃ size, Expr.Paged size compiled.expression
      ∧ (∀ q ∈ size.freeParameters, q.ty = e.field.definition.argumentsParameter.ty)
      ∧ ∀ (services : Provider) (env : Environment),
        (∀ p v, compiled.constants.get? p = some v → env p = some v) →
          size.value? services env = some (.int n) := by
  obtain ⟨-, resolved, m₁, hresolved, h⟩ := compileField_gives.1 h
  obtain ⟨_, hback, -⟩ | ⟨-, hbuild⟩ := resolve_gives.1 hresolved
  · rw [hdirect] at hback
    cases hback
  obtain ⟨arguments, resolver, hbind, -, rfl, -⟩ := build_gives.1 hbuild
  obtain ⟨-, record', hrecord', rfl, rfl⟩ := bindArguments_gives_iff.1 hbind
  obtain rfl := Option.some.inj (hrecord'.symm.trans hrecord)
  obtain ⟨element, pre, m₂, inner, selection, m₃, hpre, hselect, hconstants, hlist⟩ :=
    listOf_of_compileResolved hpaged.list h
  obtain ⟨defaultSize, hmem⟩ := hpaged.mem_extensions
  obtain ⟨hwithin, size, hsize, hlimited⟩ :=
    exists_limited_of_runPreSelection hpaged.known hpre rfl hmem
  have hvalue : (e.field.hookArguments record').value? "take" = some (.int n) := by
    cases record' <;> exact htake
  have hbefore : ∀ b ∈ bound e.field record' m.next, b.1.id < m₂.next := fun b hb =>
    Nat.lt_of_lt_of_le (Nat.lt_succ_of_lt (id_bound _ _ _ b hb))
      (@onward_of_runPreSelection _ _ .full .operation _ _ hpaged.draws_own _ _ hpre).next
  obtain ⟨-, hincludes⟩ := includes_withArguments scope
    (hpaged.selectsDrawn compiler hselect).2 hbefore
  -- The hook looks the size up by its very name, the expression without regard to case.
  refine ⟨Extension.le_of_withinMaximum (sees_bound _) hvalue hwithin, size, ⟨_, hlist, hlimited⟩,
    fun q hq => ?_, fun services env henv => ?_⟩
  · obtain ⟨_, -, hfree, -⟩ := (sees_bound _).value?_argument .empty hsize
    exact ty_bound _ _ _ q (hfree q hq)
  · obtain ⟨v, hv, -, hbound⟩ := (sees_bound _).value?_argument services hsize
    rw [hconstants] at henv
    obtain rfl : v = .int n := Option.some.inj (hv.symm.trans ((hpaged.plain hrecord).trans hvalue))
    exact hbound env (boundIn_of_bound _ fun b hb => henv b.1 b.2 (hincludes b hb)) none

/-- What a paged field evaluates to, in either pass.  What is read back has to be a page already. -/
theorem atMost_of_compileExpanded
    (h : Gives (compiler.compileExpanded context scope e) m compiled m')
    (henv : ∀ p v, compiled.constants.get? p = some v → env p = some v)
    (hfetched : ∀ source, readBack? e.field context scope = some source →
      ∀ w, source.value? services env = some w → w.AtMost limit.toInt.toNat)
    (hresult : compiled.expression.forced? services env = some result) :
    result.AtMost limit.toInt.toNat := by
  rw [compileExpanded_eq] at h
  obtain ⟨-, h⟩ | ⟨name, typeCondition, own, compiled', m₁, run, -, -, rfl, h, rfl,
      hmoved, hcompiled, -⟩ :=
    compileFrom_gives.1 h
  · cases hback : readBack? e.field context scope with
    | none =>
      obtain ⟨hle, size, hpage, -, hsize⟩ := exists_paged_of_compileField hpaged
        hrecord htake hback h
      exact (hpage.atMost (hsize services env henv) hresult).mono (Int.toNat_le_toNat hle)
    | some source =>
      obtain ⟨-, resolved, m₁, hresolved, h⟩ := compileField_gives.1 h
      obtain ⟨_, hback', rfl, rfl⟩ | ⟨hback', -⟩ := resolve_gives.1 hresolved
      · obtain rfl := Option.some.inj (hback.symm.trans hback')
        exact atMost_of_materialized hpaged.known hpaged.list rfl h (hfetched _ hback) hresult
      · rw [hback] at hback'
        cases hback'
  · have hdirect :
        readBack? e.field (.parameter (fragmentParameter name typeCondition m.next))
          (scope.bind (fragmentParameter name typeCondition m.next)) = none := by
      unfold readBack?
      split <;> rfl
    obtain ⟨hle, size, hpage, htypes, hsize⟩ :=
      exists_paged_of_compileField hpaged hrecord htake hdirect h
    obtain ⟨shape, hshape⟩ := hpaged.typed
    have hother :
        ∀ q ∈ size.freeParameters, q.ty ≠ (fragmentParameter name typeCondition m.next).ty := by
      intro q hq hty
      rw [htypes q hq, hshape] at hty
      cases hty
    rw [hcompiled] at henv
    exact ((hpage.rebased hother hmoved).atMost (hsize services env henv) hresult).mono
      (Int.toNat_le_toNat hle)

end Compiler

/-! ## Answers -/

/-- The objects that a value of this shape consists of. -/
def FieldShape.objects : FieldShape → Value → List Value
  | .leaf, _ => []
  | .object, v => [v]
  | .list, v => v.items?.getD []

/-- In the answer `v` of the field `e` the field `f` has the value `w`: it is `e` itself, or it is
found in the value of a member for a field that is selected of `e`.  For that field the member
stands, and not for a position. -/
inductive Expanded.Finds : Expanded → Value → Expanded → Value → Prop
  | self (e : Expanded) (v : Value) : Finds e v e v
  | member {e g f : Expanded} {v u w : Value} {fields : List Expanded}
      {members : List (String × Value)} {key : String}
      (selection : e.selection = .selects fields)
      (object : .object members ∈ e.field.definition.shape.objects v)
      (member : (key, u) ∈ members) (stands : StandsFor fields key g)
      (unnumbered : ∀ k, .position k ∈ e.field.definition.extensions →
        Text.sameIgnoringCase k key = false)
      (found : Finds g u f w) : Finds e v f w

theorem Expanded.Finds.within {e f : Expanded} {v w : Value} (h : e.Finds v f w) : f.Within e := by
  induction h with
  | self e v => exact .here
  | member hsel _ _ hstands _ _ ih => exact .under hsel hstands.mem ih

theorem Value.exists_of_each {shape : FieldShape} {f : Value → Option Value} {v w x : Value}
    (h : v.each shape f = some w) (hx : x ∈ shape.objects w) (hnull : x.isNull = false) :
    ∃ element, f element = some x := by
  cases shape with
  | leaf => cases hx
  | object =>
    obtain rfl := mem_singleton.1 hx
    rw [each] at h
    split at h
    · cases h
      cases hnull
    · exact ⟨v, h⟩
  | list =>
    cases hv : v.isNull with
    | true =>
      cases v with
      | null =>
        cases h
        cases hx
      | _ => cases hv
    | false =>
      obtain ⟨items, results, -, hresults, hw⟩ := items?_of_project hv h
      rw [FieldShape.objects, hw] at hx
      obtain ⟨element, -, helement⟩ := exists_mem_of_forall₂ (mapM_eq_some_iff.1 hresults) hx
      exact ⟨element, helement⟩

namespace Interpretation

variable {I : Interpretation} (hI : I.Regular) {e f : Expanded} {limit : Int64}
  {v w : Value} {next : Nat}

include hI

/-- Whatever is found in what a field answers is what another field answers. -/
theorem exists_below_of_finds (hreg : e.Every (SelectedField.Sound I.services next))
    {source : Value}
    (hv : I.below e.field (I.answers e.selection) source = some v) (h : e.Finds v f w) :
    ∃ source', I.below f.field (I.answers f.selection) source' = some w := by
  induction h generalizing source with
  | self => exact ⟨source, hv⟩
  | @member e g f v u w fields members key hsel hobject hmember hstands hunnumbered _ ih =>
    have hg := hstands.mem
    obtain ⟨selections, hsound⟩ := hreg.holds
    unfold Interpretation.below at hv
    split at hv
    · rename_i hleaf
      rw [hleaf] at hobject
      cases hobject
    rw [hsel] at hv
    obtain ⟨_, hanswers, hv⟩ := Option.bind_eq_some_iff.1 hv
    obtain rfl := Option.some.inj hanswers
    obtain ⟨window, -, hv⟩ := Option.bind_eq_some_iff.1 hv
    obtain ⟨collection, -, hv⟩ := Option.bind_eq_some_iff.1 hv
    rw [isEmpty_answerAll, isEmpty_eq_false_iff.2 (ne_nil_of_mem hg),
      if_neg Bool.false_ne_true] at hv
    obtain ⟨element, helement⟩ := Value.exists_of_each hv hobject rfl
    rw [project?_members] at helement
    obtain ⟨_, hmembers, heq⟩ := Option.map_eq_some_iff.1 helement
    cases heq
    obtain ⟨slot, hslot, hu⟩ := mem_of_mapEntries hmembers hmember
    have hposition : (I.key? e.field).any (Text.sameIgnoringCase · key) = false := by
      cases hkey : I.key? e.field with
      | none => rfl
      | some k => exact hunnumbered k (mem_of_key? hI hsound.definition hkey).2
    -- The member is not taken by a position, so the last field with its key fills it.
    obtain rfl : slot = some g := by
      have hlast := (Merge.mem_merge.1 hslot).2
      rw [Compiler.last?_slots, hposition, if_neg Bool.false_ne_true, hstands] at hlast
      exact (Option.some.inj hlast).symm
    obtain ⟨x, -, hu⟩ := Option.bind_eq_some_iff.1 hu
    rw [answer_eq] at hu
    obtain ⟨_, -, hu⟩ := Option.bind_eq_some_iff.1 hu
    exact ih (hreg.of_selects hsel hg) hu

end Interpretation

/-- A hook that sees the arguments. -/
def HookArguments.seen (arguments : HookArguments) : HookContext :=
  ⟨.full, false, .root "", arguments.map fun a => ⟨0, "", a.1⟩, arguments.map fun a => .object a.2⟩

theorem HookArguments.sees_seen (arguments : HookArguments) : arguments.seen.Sees arguments where
  types := by cases arguments <;> rfl
  values := rfl

/-- What extensions make of a collection is a page, if one of them pages: for they would write an
expression for it that takes so many elements. -/
theorem Arrangement.atMost {extensions : List Extension} {key : Option String}
    {window : HookArguments → Option (Value → Option Value)}
    (h : Arrangement services extensions key window)
    (hknown : ∀ x ∈ extensions, x.Known) {defaultSize : Option Int64}
    (hmem : .offsetPaging defaultSize (some limit) ∈ extensions) {arguments : HookArguments}
    (hplain : arguments.Plain "take") {n : Int64} (hvalue : arguments.value? "take" = some (.int n))
    {f : Value → Option Value} (hf : window arguments = some f) {v w : Value} (hw : f v = some w) :
    w.AtMost limit.toInt.toNat := by
  have hsees := arguments.sees_seen
  have hbound : arguments.seen.BoundIn fun _ => arguments.seen.argumentValues := fun _ _ => rfl
  have hold : ∀ p ∈ arguments.seen.arguments, p.id < 1 := by
    intro p hp
    obtain ⟨_, -, rfl⟩ := Option.map_eq_some_iff.1 hp
    exact Nat.one_pos
  obtain ⟨pre, m, hpre⟩ := h.accepts rfl hsees (Option.isSome_iff_exists.2 ⟨f, hf⟩)
    ⟨.constant 0 v (.list .null), ⟨0, "", .null⟩, .parameter ⟨0, "", .null⟩⟩ { next := 1 }
  obtain ⟨_, cs, _, hf', rfl, -, -, -, heval⟩ := h.acts rfl hsees rfl hold hpre
  obtain rfl := Option.some.inj (hf'.symm.trans hf)
  obtain ⟨hwithin, size, hsize, hlimited⟩ :=
    Compiler.exists_limited_of_runPreSelection hknown hpre rfl hmem
  obtain ⟨take, htake, -, heval'⟩ := hsees.value?_argument services hsize
  obtain rfl : take = .int n := Option.some.inj (htake.symm.trans (hplain.trans hvalue))
  exact (hlimited.atMost (heval' _ hbound none) ((heval _ hbound _).trans hw)).mono
    (Int.toNat_le_toNat (Extension.le_of_withinMaximum hsees hvalue hwithin))

/-- A paged field answers with a page, whatever it resolves to. -/
theorem Interpretation.atMost_of_below {I : Interpretation} (hI : I.Regular)
    {e : Expanded} {next : Nat}
    (hdefinition : e.field.definition.Regular I.services next) (hpaged : e.Paged limit)
    {record : Option (List (String × Value))}
    (hrecord : e.field.record? I.values = some record) {n : Int64}
    (htake : record.bind (Assoc.find? "take") = some (.int n)) {source w : Value}
    (h : I.below e.field (I.answers e.selection) source = some w) : w.AtMost limit.toInt.toNat := by
  unfold below at h
  split at h
  · rename_i hleaf
    rw [hpaged.list] at hleaf
    cases hleaf
  obtain ⟨answers, -, h⟩ := Option.bind_eq_some_iff.1 h
  obtain ⟨f, hf, h⟩ := Option.bind_eq_some_iff.1 h
  obtain ⟨page, hpage, h⟩ := Option.bind_eq_some_iff.1 h
  have hwindow :
      I.window e.field.definition.extensions (e.field.hookArguments record) = some f := by
    rwa [window?, if_pos hpaged.list, hrecord] at hf
  have hvalue : (e.field.hookArguments record).value? "take" = some (.int n) := by
    cases record <;> exact htake
  obtain ⟨_, hmem⟩ := hpaged.mem_extensions
  have hbound := (hI.window (hdefinition.extensions hpaged.list)).atMost hpaged.known hmem
    (hpaged.plain hrecord) hvalue hwindow hpage
  split at h
  · exact Option.some.inj h ▸ hbound
  · rw [hpaged.list] at h
    exact hbound.project h

/-! ## Execution -/

namespace Executor

variable {executor : Executor} {compiler : Compiler} {e : Expanded} {limit : Int64}

theorem directEnvironment_of_get? (hpaged : e.Paged limit)
    (hid : executor.schema.context.id < executor.schema.next)
    {context : Expr} {scope : Scope} {m m' : Memory} {compiled : Compiled}
    (h : Gives (compiler.compileExpanded context scope e)
      { m with next := executor.schema.next } compiled m')
    (data : Value) {p : Parameter} {v : Value} (hp : compiled.constants.get? p = some v) :
    executor.directEnvironment compiled data p = some v := by
  have hdrawn := (Compiler.drawn_of_compileExpanded (T := fun _ => True)
    (hpaged.draws.imp fun _ _ hdraws => ⟨trivial, hdraws⟩) h).2
  have hrange := (hdrawn.range p (Constants.mem_keys_of_get? hp)).1
  have hne : p ≠ executor.schema.context := by
    rintro rfl
    exact absurd hid (Nat.not_lt.2 hrange)
  exact (Environment.bind_of_ne _ hne data).trans hp

/-- **The maximum page size is a bound**, if an integer is asked for: on what a paged field
evaluates to in either pass, where what is read back was a page already; on what is answered for a
paged field of the operation; and, where two passes refine one, on every list that is found for a
paged field in what is answered. -/
theorem page_bounded (hpaged : e.Paged limit) {record : Option (List (String × Value))}
    (hrecord : e.field.record? compiler.values = some record) {n : Int64}
    (htake : record.bind (Assoc.find? "take") = some (.int n)) :
    (∀ (context : Expr) (scope : Scope) (m m' : Memory) (compiled : Compiled),
      Gives (compiler.compileExpanded context scope e) m compiled m' →
      ∀ (services : Provider) (env : Environment) (result : Value),
        (∀ p v, compiled.constants.get? p = some v → env p = some v) →
        (∀ source, readBack? e.field context scope = some source →
          ∀ w, source.value? services env = some w → w.AtMost limit.toInt.toNat) →
        compiled.expression.forced? services env = some result → result.AtMost limit.toInt.toNat)
    ∧ (∀ (executor : Executor) (root : RootField) (data v : Value) (m m' : Memory), root.field = e →
        executor.schema.context.id < executor.schema.next →
        Gives (executor.executeRoot compiler root data) m v m' → v.AtMost limit.toInt.toNat)
    ∧ ∀ (executor : Executor) (root : RootField) (data v w : Value) (m m' : Memory),
        executor.Refinable compiler root data →
        Gives (executor.executeRoot compiler root data) m v m' →
        root.field.Finds v e w → w.AtMost limit.toInt.toNat := by
  refine ⟨fun context scope m m' compiled h services env result henv hfetched hresult =>
    Compiler.atMost_of_compileExpanded hpaged hrecord htake h henv hfetched hresult, ?_, ?_⟩
  rotate_left
  · intro executor root data v w m m' hroot h hfinds
    obtain ⟨I, hservices, hvalues, hbase, hI⟩ :=
      exists_interpretation hroot.services hroot.data compiler.values
    have hanswer := (answer_of_executeRoot hroot hI hservices hvalues hbase h).2
    obtain ⟨source, -, hanswer⟩ := Option.bind_eq_some_iff.1 hanswer
    have hreg := hroot.regular
    rw [← hservices] at hreg
    obtain ⟨source', hw⟩ := Interpretation.exists_below_of_finds hI hreg.sound hanswer hfinds
    obtain ⟨_, hfield⟩ := hreg.within hfinds.within
    exact Interpretation.atMost_of_below hI hfield.definition hpaged (hvalues ▸ hrecord) htake hw
  rintro executor root data v m m' rfl hid h
  -- Nothing is read back where a field of the operation is compiled against the schema.
  have hdirect : ∀ {mode : Mode} {m m' : Memory} {compiled : Compiled} {result : Value},
      Gives (compiler.compileExpanded (.parameter executor.schema.context)
        (Compiler.rootScope executor.schema root mode) root.field)
          { m with next := executor.schema.next } compiled m' →
      compiled.expression.forced? executor.services (executor.directEnvironment compiled data)
        = some result →
      result.AtMost limit.toInt.toNat := fun h hresult =>
    Compiler.atMost_of_compileExpanded hpaged hrecord htake h
      (fun _ _ hp => directEnvironment_of_get? hpaged hid h data hp)
        (fun _ hback => nomatch hback) hresult
  obtain ⟨fetch, m₁, hfetch, hpass⟩ := exists_executeRoot_iff.1 ⟨m', h⟩
  rcases hpass with ⟨compiled, rfl, -, hrun⟩ | ⟨-, hrun⟩
  · obtain ⟨fetched, compiled', m₂, hfetched, hcompiled, hv⟩ := exists_runFetched_iff.1 hrun
    rw [Compiler.compileRoot_schema_gives] at hfetch
    split at hfetch
    · cases hfetch.1
    · obtain ⟨_, hsome, hfetch⟩ := hfetch
      cases hsome
      refine Compiler.atMost_of_materialized hpaged.known hpaged.list rfl hcompiled
        (fun w hw => ?_) hv
      rw [Expr.value?_parameter, Environment.bind_self] at hw
      exact Option.some.inj hw ▸ hdirect hfetch hfetched
  · obtain ⟨compiled, m₂, hcompiled, hv⟩ := exists_runDirect_iff.1 hrun
    exact hdirect hcompiled hv

end Executor

namespace Roster

/-- Two people at most, of whom the older is ranked first. -/
def pair : List Stage := [.page none (some 2), byAge, .position "rank"]

def secondPair :
    List (String × Value) := [("skip", .int 1), ("take", .int 2), ("descending", .boolean true)]

def registry : Executor where
  schema := ⟨"Query", context, [], 6⟩
  services := .empty

theorem hooks_pair : ∀ x ∈ pair.map Stage.extension, x.Known ∧ x.Draws := by
  have hpage : (Extension.offsetPaging none (some 2)).BuiltIn fun _ => True :=
    .offsetPaging none (some 2)
  have hposition : (Extension.position "rank").BuiltIn fun _ => True := .position "rank"
  have hsort : byAge.extension.Known ∧ byAge.extension.Draws := by
    rw [byAge, Stage.extension]
    refine ⟨.sort _, fun hpre => ?_, fun hpost =>
      ((Extension.Known.sort _).postSelection_gives hpost).1 ▸ Nat.le_refl _⟩
    rcases Extension.sort_gives.1 hpre with ⟨-, -, rfl⟩ | ⟨-, _, _, _, -, -, rfl, -, rfl⟩
    · exact Nat.le_refl _
    · exact Nat.le_succ _
  exact forall_mem_cons.2 ⟨⟨hpage.known, hpage.draws⟩, forall_mem_cons.2 ⟨hsort,
    forall_mem_singleton.2 ⟨hposition.known, hposition.draws⟩⟩⟩

theorem paged_pair : (names pair secondPair).Paged 2 where
  built := ⟨people pair, context, 4, none, rfl, mem_cons_self, by decide +kernel⟩
  list := rfl
  known x hx := (hooks_pair x (extensions_people pair ▸ hx)).1
  draws := by
    refine .intro [.spread "names" []] (fun _ x hx =>
      (hooks_pair x (extensions_people pair ▸ hx)).2) nofun fun fields hfields f hf => ?_
    cases hfields
    obtain rfl := mem_singleton.1 hf
    exact .intro [] nofun (fun _ => rfl) fun fields hfields f hf => by cases hfields; cases hf

end Roster

/-! People with friends, two of whom are asked for.  A service greets the people and their
friends. -/

namespace Executor.Neighbours

def circle : FieldDeclaration where
  name := "friends"
  attached := [.extension (.offsetPaging none (some 2))]
  resolve person _ := return .member (.parameter person) "friends" (.list (.object "Person"))

def welcome : Expanded := .mk ⟨"greeting", greeting [nick], []⟩ .direct [] fun _ => .selects []

def companions : Expanded :=
  .mk ⟨"friends", ((circle.build person).run 3).1,
    [("skip", .literal (.int 0)), ("take", .literal (.int 2))]⟩ .direct []
    fun _ => .selects [welcome]

def guests : RootField :=
  ⟨"people", .mk ⟨"people", people [], []⟩ .direct [] fun _ => .selects [companions, welcome]⟩

def welcomer : Executor := greeter [nick] []

def party : Value :=
  .object [("people", .list [.object [("nick", .string "A"),
    ("friends", .list (["B", "C", "D"].map fun nick => .object [("nick", .string nick)]))]])]

/-- The friends of the first of the people. -/
def firstFriends? : Value → Option Value
  | .list (.object (("friends", v) :: _) :: _) => some v
  | _ => none

theorem finds_of_firstFriends? {v w : Value} (h : firstFriends? v = some w) :
    guests.field.Finds v companions w := by
  unfold firstFriends? at h
  split at h
  · rename_i v rest items
    obtain rfl := Option.some.inj h
    have hstands : StandsFor [companions, welcome] "friends" companions := by
      have hother : Text.sameIgnoringCase welcome.field.responseKey "friends" = false := by
        decide +kernel
      have hsame : Text.sameIgnoringCase companions.field.responseKey "friends" = true := by
        decide +kernel
      simp [StandsFor, Merge.last?, Merge.first?, Expanded.entry, hother, hsame]
    refine .member rfl (mem_cons_self : _ ∈ Value.object (("friends", v) :: rest) :: items)
      mem_cons_self hstands ?_ (.self _ _)
    intro key hposition
    exact absurd hposition not_mem_nil
  · cases h

theorem every_guests {P : SelectedField → List Selection → Prop}
    (hpeople : P guests.field.field [.spread "friends" []])
    (hfriends : P companions.field [.spread "greeting" []]) (hgreeting : P welcome.field []) :
    guests.field.Every P := by
  have hwelcome : welcome.Every P :=
    .intro [] hgreeting (fun _ => rfl) fun fields hfields f hf => by cases hfields; cases hf
  have hcompanions : companions.Every P := by
    refine .intro [.spread "greeting" []] hfriends nofun fun fields hfields f hf => ?_
    cases hfields
    exact mem_singleton.1 hf ▸ hwelcome
  refine .intro [.spread "friends" []] hpeople nofun fun fields hfields f hf => ?_
  cases hfields
  rcases mem_cons.1 hf with rfl | hf
  · exact hcompanions
  · exact mem_singleton.1 hf ▸ hwelcome

theorem refinable_guests : welcomer.Refinable Roster.compiler guests party where
  context_ty := ⟨"Query", rfl⟩
  context_id := Nat.zero_lt_succ 3
  services := keep_services _ _
  data := by simp [party, Value.Eager, Value.EagerItems, Value.EagerMembers]
  regular := by
    have hschema : welcomer.schema.Regular welcomer.services :=
      regular_directory ⟨none, forall_mem_nil _⟩ (forall_mem_nil _)
    refine every_guests ⟨hschema.fields _ ⟨_, mem_cons_self, _, mem_cons_self, rfl⟩,
      nofun, fun _ => rfl⟩
      ⟨.of_member rfl ⟨"Person", rfl⟩ ⟨_, rfl⟩ (by decide : 1 < 4) (by decide : 3 < 4) ?_
        fun _ => ⟨none, forall_mem_singleton.2 (.offsetPaging none (some 2))⟩, ?_, fun _ => rfl⟩
      ⟨regular_greeting _, nofun, nofun⟩
    · exact forall_mem_cons.2 ⟨fun v hv => Option.some.inj hv ▸ trivial,
        forall_mem_singleton.2 nofun⟩
    · exact forall_mem_cons.2 ⟨fun v hv => Except.ok.inj hv ▸ trivial,
        forall_mem_singleton.2 fun v hv => Except.ok.inj hv ▸ trivial⟩
  apart := every_guests nofun nofun fun _ _ => trivial
  numbers x hx _ key hkey := by
    have hpage : ∀ key, .position key ∉ companions.field.definition.extensions := by
      intro key hmem
      exact absurd (congrArg Extension.name (mem_singleton.1 hmem))
        (by decide : "position" ≠ "offset_paging")
    obtain ⟨_, hnone⟩ := (every_guests (P := fun field _ => ∀ key,
      .position key ∉ field.definition.extensions)
      (fun _ => not_mem_nil) hpage fun _ => not_mem_nil).within hx
    exact absurd hkey (hnone key)

theorem paged_companions : companions.Paged 2 where
  built := ⟨circle, person, 3, none, rfl, mem_cons_self, by decide +kernel⟩
  list := rfl
  known := forall_mem_singleton.2 (.offsetPaging none (some 2))
  draws := (refinable_guests.regular.of_selects rfl mem_cons_self).imp fun _ _ h =>
    h.definition.builtIn.imp fun _ hx => hx.draws

end Executor.Neighbours

open Roster Executor.Neighbours in
/-- The second and the third of the people, by their ages; and of three friends of a person, who are
greeted by a service, the first two. -/
theorem registry_bounded :
    ((names pair secondPair).Paged 2
      ∧ (names pair secondPair).field.record? compiler.values = some (some secondPair)
      ∧ registry.schema.context.id < registry.schema.next
      ∧ ∃ v m', Gives (registry.executeRoot compiler ⟨"people", names pair secondPair⟩
          (.object [("people", Roster.everyone)])) { next := 6 } v m'
        ∧ v.text = "[\x7bname: \"Eve\", rank: 0\x7d, \x7bname: \"Ada\", rank: 1\x7d]"
        ∧ v.AtMost 2)
    ∧ companions.Paged 2
      ∧ companions.field.record? compiler.values = some (some [("skip", .int 0), ("take", .int 2)])
      ∧ welcomer.Refinable compiler guests party
      ∧ ∃ v m' w, Gives (welcomer.executeRoot compiler guests party) { next := 4 } v m'
        ∧ guests.field.Finds v companions w
        ∧ w.text = "[\x7bgreeting: [\"B\"]\x7d, \x7bgreeting: [\"C\"]\x7d]"
        ∧ w.AtMost 2 := by
  constructor
  · have hanswer : (outcome (registry.executeRoot compiler ⟨"people", names pair secondPair⟩
        (.object [("people", Roster.everyone)])) { next := 6 }).1.toOption.map Value.text
          = some "[\x7bname: \"Eve\", rank: 0\x7d, \x7bname: \"Ada\", rank: 1\x7d]" := by
      decide +kernel
    obtain ⟨v, hv, htext⟩ := Option.map_eq_some_iff.1 hanswer
    obtain ⟨m', hgives⟩ := exists_gives_iff.2 hv
    have hrecord :
        (names pair secondPair).field.record? compiler.values = some (some secondPair) := rfl
    exact ⟨paged_pair, hrecord, by decide, v, m', hgives, htext,
      (Executor.page_bounded paged_pair hrecord rfl).2.1 registry _ _ v _ _ rfl (by decide) hgives⟩
  · have hanswer : ((outcome (welcomer.executeRoot compiler guests party)
        { next := 4 }).1.toOption.bind firstFriends?).map Value.text
        = some "[\x7bgreeting: [\"B\"]\x7d, \x7bgreeting: [\"C\"]\x7d]" := by
      decide +kernel
    obtain ⟨w, hw, htext⟩ := Option.map_eq_some_iff.1 hanswer
    obtain ⟨v, hv, hw⟩ := Option.bind_eq_some_iff.1 hw
    obtain ⟨m', hgives⟩ := exists_gives_iff.2 hv
    have hrecord :
        companions.field.record? compiler.values
          = some (some [("skip", .int 0), ("take", .int 2)]) := rfl
    have hfinds := finds_of_firstFriends? hw
    exact ⟨paged_companions, hrecord, refinable_guests, v, m', w, hgives, hfinds, htext,
      (Executor.page_bounded paged_companions hrecord rfl).2.2 welcomer guests party v w _ _
        refinable_guests hgives hfinds⟩

end QueryProjection
