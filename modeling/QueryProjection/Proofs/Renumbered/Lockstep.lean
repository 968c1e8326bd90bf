import QueryProjection.Proofs.Compile.Over
import QueryProjection.Proofs.Renumbered.Operations

/-!
# Compilations in lockstep, up to numbers

Two compilations that go through the same steps need not draw the same numbers, because one of them
may draw some that the other does without.  `Compile.Matches w R x y` compares them: started where
the numbering `w` has got to, they fail with the same error, or they give results that `R` relates
in a numbering that has come of `w`.

* `Compile.Matches.bind` is for one compilation after the other;
* `Compile.matches_fresh` is for numbers that both draw, `Compile.Matches.skip` for one that only
  the first draws;
* `Extension.Uniform` says of an extension that it does not look at numbers, and
  `Compiler.matches_runPreSelection` and `Compiler.matches_runPostSelection` what follows from it.
-/

namespace QueryProjection

open Expr List PreSelection SelectionMap

/-! ## Memories -/

/-- The memories are the same but for the numbers. -/
structure Memory.Agree (m m' : Memory) : Prop where
  events : m'.events = m.events
  fetched : m'.fetched = m.fetched

/-- The memories are the same but for the numbers, and those are where the numbering has got to. -/
structure Memory.Numbered {base : Nat} (w : Numbering base) (m m' : Memory) :
    Prop extends m.Agree m' where
  next : m.next = w.next
  next' : m'.next = w.next'

/-- Both draw the same count of numbers, for expressions that are the same up to numbers. -/
def Fresh.Renumbered {base : Nat} (w : Numbering base) (x y : Fresh Expr) : Prop :=
  ∃ count, (x.run w.next).2 = w.next + count ∧ (y.run w.next').2 = w.next' + count
    ∧ (x.run w.next).1.Renumbered (w.draw count) .none [] (y.run w.next').1

namespace Compile

variable {base : Nat} {w w' : Numbering base} {α β γ δ : Type}

/-! ## Lockstep -/

/-- From where the numbering has got to, both compilations fail with the same error, or both give
results that are related, in a numbering that has come of the first one. -/
def Matches (w : Numbering base) (R : Numbering base → α → β → Prop) (x : Compile α)
    (y : Compile β) : Prop :=
  ∀ m n, Memory.Numbered w m n →
    (∃ e m' n', outcome x m = (.error e, m') ∧ outcome y n = (.error e, n') ∧ m'.Agree n')
      ∨ ∃ w' a b m' n', w ≤ w' ∧ Gives x m a m' ∧ Gives y n b n' ∧ R w' a b
        ∧ Memory.Numbered w' m' n'

variable {R : Numbering base → α → β → Prop} {S : Numbering base → γ → δ → Prop} {x : Compile α}
  {y : Compile β} {f : α → Compile γ} {g : β → Compile δ}

theorem matches_pure {a : α} {b : β} (h : R w a b) : Matches w R (pure a) (pure b) :=
  fun m n hmn => .inr ⟨w, a, b, m, n, Numbering.le_refl w, rfl, rfl, h, hmn⟩

theorem matches_throw (e : CompileError) : Matches w R (throw e) (throw e) :=
  fun m n hmn => .inl ⟨e, m, n, rfl, rfl, hmn.toAgree⟩

/-- One after the other.  The second need match only for what the first can give. -/
theorem Matches.bind_of_gives (hx : Matches w R x y)
    (hf : ∀ w' a b m m', w ≤ w' → Gives x m a m' → R w' a b → Matches w' S (f a) (g b)) :
    Matches w S (x >>= f) (y >>= g) := by
  intro m n hmn
  rcases hx m n hmn with ⟨e, m', n', hm, hn, h⟩ | ⟨w', a, b, m', n', hw, hm, hn, hR, h⟩
  · refine .inl ⟨e, m', n', ?_, ?_, h⟩
    · rw [outcome_bind, hm]
    · rw [outcome_bind, hn]
  · have hnext := hf w' a b m m' hw hm hR m' n' h
    unfold Gives
    rw [outcome_bind_gives hm, outcome_bind_gives hn]
    exact hnext.imp_right fun ⟨w₂, c, d, m₂, n₂, hw₂, h⟩ =>
      ⟨w₂, c, d, m₂, n₂, Numbering.le_trans hw hw₂, h⟩

theorem Matches.bind (hx : Matches w R x y)
    (hf : ∀ w' a b, w ≤ w' → R w' a b → Matches w' S (f a) (g b)) :
    Matches w S (x >>= f) (y >>= g) :=
  hx.bind_of_gives fun w' a b _ _ hw _ => hf w' a b hw

theorem matches_ofExcept {r : Except CompileError α} {r' : Except CompileError β}
    (h : Except.Rel (R w) r r') : Matches w R (ofExcept r) (ofExcept r') := by
  cases h with
  | ok h => exact matches_pure h
  | error e => exact matches_throw e

/-! ## Drawing numbers -/

theorem matches_fresh (w : Numbering base) (name : String) (ty : Ty) :
    Matches w (fun w' p p' => p.Renumbered w' p' ∧ w.next ≤ p.id ∧ w.next' ≤ p'.id)
      (ofFresh (Parameter.fresh name ty)) (ofFresh (Parameter.fresh name ty)) := by
  intro m n hmn
  refine .inr ⟨w.draw 1, _, _, _, _, w.le_draw 1, rfl, rfl, ?_, ⟨hmn.events, hmn.fetched⟩, ?_, ?_⟩
  · show (⟨m.next, name, ty⟩ : Parameter).Renumbered (w.draw 1) ⟨n.next, name, ty⟩
      ∧ _ ≤ m.next ∧ _ ≤ n.next
    rw [hmn.next, hmn.next']
    exact ⟨.drawn w name ty, Nat.le_refl _, Nat.le_refl _⟩
  · exact congrArg (· + 1) hmn.next
  · exact congrArg (· + 1) hmn.next'

theorem Matches.skip {name : String} {ty : Ty} {f : Parameter → Compile α}
    (h : Matches w.skip R (f ⟨w.next, name, ty⟩) y) :
    Matches w R (ofFresh (Parameter.fresh name ty) >>= f) y := by
  intro m n hmn
  have hfresh : Gives (ofFresh (Parameter.fresh name ty)) m ⟨w.next, name, ty⟩
      { m with next := w.next + 1 } := by
    rw [gives_ofFresh, Parameter.run_fresh, hmn.next]
    exact ⟨rfl, rfl⟩
  unfold Gives
  rw [outcome_bind_gives hfresh]
  refine (h { m with next := w.next + 1 } n
    ⟨⟨hmn.events, hmn.fetched⟩, rfl, hmn.next'⟩).imp_right ?_
  rintro ⟨w', a, b, m', n', hw, h⟩
  exact ⟨w', a, b, m', n', Numbering.le_trans w.le_skip hw, h⟩

theorem matches_ofFresh {x y : Fresh Expr} (h : Fresh.Renumbered w x y) :
    Matches w (fun w' e e' => e.Renumbered w' .none [] e') (ofFresh x) (ofFresh y) := by
  intro m n hmn
  obtain ⟨count, hx, hy, h⟩ := h
  refine .inr ⟨w.draw count, _, _, _, _, w.le_draw count, rfl, rfl, ?_,
    ⟨hmn.events, hmn.fetched⟩, ?_, ?_⟩
  · rw [hmn.next, hmn.next']
    exact h
  · show (x.run m.next).2 = _
    rw [hmn.next]
    exact hx
  · show (y.run n.next).2 = _
    rw [hmn.next']
    exact hy

/-! ## Hooks as compilations -/

section Hooks

variable (path : FieldPath) (extension : String)

theorem ofHook_pure (a : α) : ofHook path extension (pure a) = pure a := rfl

theorem ofHook_bind (x : Hook α) (f : α → Hook γ) :
    ofHook path extension (x >>= f) = ofHook path extension x >>= fun a =>
      ofHook path extension (f a) := by
  have houtcome : ∀ m, outcome (ofHook path extension (x >>= f)) m
      = outcome (ofHook path extension x >>= fun a => ofHook path extension (f a)) m := by
    intro m
    rw [outcome_ofHook, outcome_bind, outcome_bind, outcome_ofHook]
    rcases outcome x m.toJournal with ⟨r, journal⟩
    cases r with
    | error message => rfl
    | ok a =>
      show _ = outcome (ofHook path extension (f a)) { m with toJournal := journal }
      rw [outcome_ofHook]
  exact funext houtcome

theorem ofHook_ofFresh (x : Fresh α) : ofHook path extension (Hook.ofFresh x) = ofFresh x := rfl

end Hooks

end Compile

/-! ## Hooks -/

/-- The hooks know the same up to numbers. -/
structure HookContext.Renumbered {base : Nat} (w : Numbering base)
    (context context' : HookContext) : Prop where
  mode : context'.mode = context.mode
  materialized : context'.materialized = context.materialized
  path : context'.path = context.path
  arguments : Option.Rel (Parameter.Renumbered w) context.arguments context'.arguments
  argumentValues : context'.argumentValues = context.argumentValues

/-- What the first hooks change is the same up to numbers.  In the collection something may be yet
to be replaced; the element was drawn, and its context is read from it. -/
structure PreSelection.Renumbered {base : Nat} (w : Numbering base) (M : Moved)
    (pre pre' : PreSelection) : Prop where
  collection : pre.collection.Renumbered w M [] pre'.collection
  ty : pre'.collection.ty = pre.collection.ty
  element : pre.element.Renumbered w pre'.element
  context : pre.elementContext.Renumbered w .none [] pre'.elementContext
  reads : pre'.elementContext.ReadsOf pre'.element
  drawn : base ≤ pre'.element.id

/-- The fields of a selection are the same up to numbers. -/
def SelectionMap.Renumbered {base : Nat} (w : Numbering base)
    (fields fields' : SelectionMap) : Prop :=
  Assoc.Entries Eq (fun e e' => e.Renumbered w .none [] e') fields.fields fields'.fields

/-- What the second hooks change is the same up to numbers. -/
structure PostSelection.Renumbered {base : Nat} (w : Numbering base)
    (post post' : PostSelection) : Prop where
  selection : post.selection.Renumbered w post'.selection
  element : post.element.Renumbered w post'.element

/-- An extension of one of the known kinds, whose predicate or key is made of what it is given and
does not depend on the numbers in it. -/
inductive Extension.Uniform : Extension → Prop
  | filter (argument : ArgumentDefinition) {predicate : Expr → Expr → Fresh Expr}
      (made : ∀ element value, MadeOf (fun _ => True) [element, value]
        (predicate element value))
      (renumbers : ∀ {base : Nat} (w : Numbering base) {element element' value value' : Expr},
        element.Renumbered w .none [] element' → value.Renumbered w .none [] value' →
        Fresh.Renumbered w (predicate element value) (predicate element' value')) :
      Uniform (.filter argument predicate)
  | sort {key : Expr → Fresh Expr} (made : ∀ element, MadeOf (fun _ => True) [element]
      (key element)) (renumbers : ∀ {base : Nat} (w : Numbering base) {element element' : Expr},
        element.Renumbered w .none [] element' → Fresh.Renumbered w (key element) (key element')) :
      Uniform (.sort key)
  | offsetPaging (defaultSize maxSize : Option Int64) : Uniform (.offsetPaging defaultSize maxSize)
  | position (key : String) : Uniform (.position key)

theorem Extension.Uniform.builtIn {extension : Extension} (h : extension.Uniform) :
    extension.BuiltIn fun _ => True := by
  cases h with
  | filter argument made => exact .filter argument made
  | sort made => exact .sort made
  | offsetPaging defaultSize maxSize => exact .offsetPaging defaultSize maxSize
  | position key => exact .position key

/-! ## Selections -/

namespace SelectionMap

variable {base : Nat} {w w' : Numbering base} {fields fields' : SelectionMap} {e e' : Expr}
  (h : fields.Renumbered w fields')

include h

theorem Renumbered.isEmpty : fields'.isEmpty = fields.isEmpty := by
  obtain ⟨fields⟩ := fields
  obtain ⟨fields'⟩ := fields'
  cases h <;> rfl

theorem Renumbered.field? (key : String) :
    Option.Rel (fun f f' => f.1 = f'.1 ∧ f.2.Renumbered w .none [] f'.2) (fields.field? key)
      (fields'.field? key) := by
  obtain ⟨fields⟩ := fields
  obtain ⟨fields'⟩ := fields'
  change Assoc.Entries Eq _ fields fields' at h
  unfold field?
  induction h with
  | nil => exact .none
  | cons hf _ ih =>
    rw [List.find?_cons, List.find?_cons, ← hf.1]
    split
    · exact .some hf
    · exact ih

theorem Renumbered.insert (key : String) (he : e.Renumbered w .none [] e') :
    (fields.insert key e).Renumbered w (fields'.insert key e') := by
  rw [Renumbered, fields_insert, fields_insert]
  exact Merge.forall₂_write h key he

theorem Renumbered.insertIfAbsent (key : String) (he : e.Renumbered w .none [] e') :
    (fields.insertIfAbsent key e).2.Renumbered w (fields'.insertIfAbsent key e').2 := by
  have hcontains : fields'.contains key = fields.contains key := by
    have hfield := h.field? key
    unfold SelectionMap.contains
    generalize fields.field? key = f, fields'.field? key = f' at hfield
    cases hfield <;> rfl
  rw [SelectionMap.insertIfAbsent, SelectionMap.insertIfAbsent, hcontains]
  split
  · exact h
  · exact h.insert key he

theorem Renumbered.insertFetched (name : String) (he : e.Renumbered w .none [] e') :
    (fields'.insertFetched name e').1 = (fields.insertFetched name e).1
      ∧ (fields.insertFetched name e).2.Renumbered w (fields'.insertFetched name e').2 := by
  have hfrom : ∀ fuel attempt, (fields'.insertFetchedFrom name e' fuel attempt).1
        = (fields.insertFetchedFrom name e fuel attempt).1
      ∧ (fields.insertFetchedFrom name e fuel attempt).2.Renumbered w
          (fields'.insertFetchedFrom name e' fuel attempt).2 := by
    intro fuel
    induction fuel with
    | zero => exact fun attempt => ⟨rfl, h⟩
    | succ fuel ih =>
      intro attempt
      have hfield := h.field? (fetchedKey name attempt)
      simp only [insertFetchedFrom]
      generalize fields.field? (fetchedKey name attempt) = f,
        fields'.field? (fetchedKey name attempt) = f' at hfield
      cases hfield with
      | none => exact ⟨rfl, h.insert _ he⟩
      | @some f f' hf =>
        obtain ⟨spelling, found⟩ := f
        obtain ⟨spelling', found'⟩ := f'
        obtain ⟨rfl, hfound⟩ := hf
        dsimp only
        rw [hfound.same he]
        split
        · exact ⟨rfl, h⟩
        · exact ih (attempt + 1)
  have hsize : fields'.size = fields.size := (Forall₂.length_eq h).symm
  rw [SelectionMap.insertFetched, SelectionMap.insertFetched, hsize]
  exact hfrom _ _

theorem Renumbered.toRecord : fields.toRecord.Renumbered w .none [] fields'.toRecord := by
  obtain ⟨fields⟩ := fields
  obtain ⟨fields'⟩ := fields'
  change Assoc.Entries Eq _ fields fields' at h
  have hshape : (fields'.map fun f => (f.1, f.2.ty)) = fields.map fun f => (f.1, f.2.ty) := by
    induction h with
    | nil => rfl
    | cons hf _ ih => rw [map_cons, map_cons, ih, hf.1, hf.2.ty]
  have hvalues : RenumberedAll w .none [] (fields.map Prod.snd) (fields'.map Prod.snd) := by
    rw [renumberedAll_iff, List.forall₂_map_left_iff, List.forall₂_map_right_iff]
    exact Forall₂.imp (fun _ _ h => h.2) h
  rw [toRecord, toRecord, hshape]
  exact .record _ hvalues

end SelectionMap

section Hooks

variable {base : Nat} {w w' : Numbering base} {M : Moved} {context context' : HookContext}
  {extension : Extension}

theorem HookContext.Renumbered.mono (h : context.Renumbered w context') (hw : w ≤ w') :
    context.Renumbered w' context' :=
  { h with arguments := Option.rel_imp h.arguments fun _ _ hp => hp.mono hw }

theorem HookContext.Renumbered.argument? (h : context.Renumbered w context') (name : String) :
    Option.Rel (fun e e' => e.Renumbered w .none [] e') (context.argument? name)
      (context'.argument? name) :=
  Option.rel_bind h.arguments fun _ _ hp => Renumbered.recordMember? (.parameter hp) name

theorem HookContext.Renumbered.argumentValue? (h : context.Renumbered w context') (name : String) :
    context'.argumentValue? name = context.argumentValue? name := by
  rw [HookContext.argumentValue?, HookContext.argumentValue?, h.argumentValues]

variable {pre pre' : PreSelection} {post post' : PostSelection}

theorem PreSelection.Renumbered.mono (h : pre.Renumbered w M pre') (hw : w ≤ w') :
    pre.Renumbered w' M pre' :=
  ⟨h.collection.mono hw, h.ty, h.element.mono hw, h.context.mono hw, h.reads, h.drawn⟩

theorem PreSelection.Renumbered.contextOf (h : pre.Renumbered w M pre') {p p' : Parameter}
    (hp : p.Renumbered w p') :
    (Extension.contextOf pre p).Renumbered w .none [] (Extension.contextOf pre' p') :=
  h.context.replace h.element (.parameter hp)

open Compile

/-- The first hook of the extension does the same up to numbers. -/
def Extension.MatchesFirst (w : Numbering base) (M : Moved) (x : Extension) : Prop :=
  ∀ {context context' : HookContext}, context.Renumbered w context' →
    ∀ {pre pre' : PreSelection}, pre.Renumbered w M pre' →
    ∀ (path : FieldPath) (name : String), Matches w (fun w' => PreSelection.Renumbered w' M)
      (ofHook path name (x.preSelection context pre))
        (ofHook path name (x.preSelection context' pre'))

theorem Extension.matches_filter {argument : ArgumentDefinition}
    {predicate : Expr → Expr → Fresh Expr}
    (renumbers : ∀ {base : Nat} (w : Numbering base) {element element' value value' : Expr},
      element.Renumbered w .none [] element' → value.Renumbered w .none [] value' →
      Fresh.Renumbered w (predicate element value) (predicate element' value')) :
    MatchesFirst w M (filter argument predicate) := by
  intro context context' hcontext pre pre' hpre path name
  have hargument := hcontext.argument? argument.name
  have hgiven : given context' argument = given context argument := by
    rw [given, given, hcontext.argumentValue?]
  show Matches w _
    (ofHook _ _ (if (context.materialized || !given context argument) = true then _ else _))
    (ofHook _ _ (if (context'.materialized || !given context' argument) = true then _ else _))
  rw [hcontext.materialized, hgiven]
  split
  · exact matches_pure (R := fun w' => Renumbered w' M) hpre
  · generalize context.argument? argument.name = value, context'.argument? argument.name
      = value' at hargument
    cases hargument with
    | none => exact matches_throw _
    | some hvalue =>
      simp only [ofHook_bind, ofHook_ofFresh, ofHook_pure, hpre.element.ty]
      refine (matches_fresh w "filter" _).bind fun w₁ p p' hw₁ hp => ?_
      refine (matches_ofFresh (renumbers w₁ ((hpre.mono hw₁).contextOf hp.1)
        (hvalue.mono hw₁))).bind fun w₂ condition condition' hw₂ hcondition => matches_pure ?_
      have hpre' := hpre.mono (Numbering.le_trans hw₁ hw₂)
      exact { hpre' with
        collection := .call _ hpre'.collection
          (.cons (.lambda (hp.1.mono hw₂) (hcondition.under _ _)) .nil)
        ty := congrArg (callTy .filter) hpre'.ty }

theorem Extension.matches_sort {key : Expr → Fresh Expr}
    (renumbers : ∀ {base : Nat} (w : Numbering base) {element element' : Expr},
      element.Renumbered w .none [] element' → Fresh.Renumbered w (key element) (key element')) :
    MatchesFirst w M (sort key) := by
  intro context context' hcontext pre pre' hpre path name
  have hargument := hcontext.argument? "descending"
  show Matches w _ (ofHook _ _ (if context.materialized = true then _ else _))
    (ofHook _ _ (if context'.materialized = true then _ else _))
  rw [hcontext.materialized]
  split
  · exact matches_pure (R := fun w' => Renumbered w' M) hpre
  · generalize context.argument? "descending" = descending, context'.argument? "descending"
      = descending' at hargument
    cases hargument with
    | none => exact matches_throw _
    | some hdescending =>
      simp only [ofHook_bind, ofHook_ofFresh, ofHook_pure, hpre.element.ty]
      refine (matches_fresh w "sort" _).bind fun w₁ p p' hw₁ hp => ?_
      refine (matches_ofFresh (renumbers w₁ ((hpre.mono hw₁).contextOf hp.1))).bind
        fun w₂ k k' hw₂ hk => matches_pure ?_
      have hw := Numbering.le_trans hw₁ hw₂
      have hpre' := hpre.mono hw
      exact { hpre' with
        collection := .call _ hpre'.collection (.cons (.lambda (hp.1.mono hw₂) (hk.under _ _))
          (.cons ((hdescending.mono hw).under _ _) .nil))
        ty := congrArg (callTy .orderBy) hpre'.ty }

theorem Extension.matches_offsetPaging (defaultSize maxSize : Option Int64) :
    MatchesFirst w M (offsetPaging defaultSize maxSize) := by
  intro context context' hcontext pre pre' hpre path name
  have hpage : Option.Rel (Renumbered w M) (page? context pre) (page? context' pre') := by
    refine Option.rel_bind (hcontext.argument? "skip") fun skip skip' hskip => ?_
    refine Option.rel_bind (hcontext.argument? "take") fun take take' htake => .some ?_
    exact { hpre with
      collection := .call _ (.call _ hpre.collection (.cons (hskip.under _ _) .nil))
        (.cons (htake.under _ _) .nil)
      ty := congrArg (fun ty => callTy .take (callTy .skip ty)) hpre.ty }
  have hmaximum : withinMaximum context' maxSize = withinMaximum context maxSize := by
    rw [withinMaximum, withinMaximum, hcontext.argumentValue?]
  rw [offsetPaging_eq, offsetPaging_eq, hcontext.materialized, hmaximum, hcontext.argumentValue?]
  split
  · exact matches_pure (R := fun w' => Renumbered w' M) hpre
  · split
    · generalize page? context pre = page, page? context' pre' = page' at hpage
      cases hpage with
      | none => exact matches_throw _
      | some hpage => exact matches_pure (R := fun w' => Renumbered w' M) hpage
    · exact matches_throw _

theorem Extension.matches_position (key : String) : MatchesFirst w M (position key) := by
  intro context context' hcontext pre pre' hpre path name
  show Matches w _ (ofHook _ _ (if context.materialized = true then _ else _))
    (ofHook _ _ (if context'.materialized = true then _ else _))
  rw [hcontext.materialized]
  split
  · exact matches_pure (R := fun w' => Renumbered w' M) hpre
  · simp only [ofHook_bind, ofHook_ofFresh, hpre.ty]
    refine (matches_fresh w "positioned" _).bind fun w₁ p p' hw₁ hp => ?_
    have hitem : Option.Rel (fun e e' => e.Renumbered w₁ .none [] e')
        ((parameter p).recordMember? "item") ((parameter p').recordMember? "item") :=
      Renumbered.recordMember? (.parameter hp.1) "item"
    have hreads : ∀ item, (parameter p').recordMember? "item" = some item → item.ReadsOf p' :=
      fun item h => ReadsOf.parameter.recordMember? h
    generalize (parameter p).recordMember? "item" = item at hitem
    generalize (parameter p').recordMember? "item" = item' at hitem hreads
    cases hitem with
    | none => exact matches_throw _
    | some hitem =>
      have hpre' := hpre.mono hw₁
      refine matches_pure (R := fun w' => Renumbered w' M) ?_
      exact {
        collection := .call _ hpre'.collection .nil
        ty := congrArg (callTy .enumerate) hpre'.ty
        element := hp.1
        context := hpre'.context.replace hpre'.element hitem
        reads := hpre'.reads.replace (hreads _ rfl)
        drawn := Nat.le_trans w.base_le_next' hp.2.2 }

theorem Extension.Uniform.matches_preSelection (hx : extension.Uniform) :
    MatchesFirst w M extension := by
  cases hx with
  | filter argument made renumbers => exact matches_filter renumbers
  | sort made renumbers => exact matches_sort renumbers
  | offsetPaging defaultSize maxSize => exact matches_offsetPaging defaultSize maxSize
  | position key => exact matches_position key

theorem Extension.Uniform.matches_postSelection (hx : extension.Uniform)
    (hcontext : context.Renumbered w context') (hpost : post.Renumbered w post') (path : FieldPath)
    (name : String) :
    Matches w PostSelection.Renumbered (ofHook path name (extension.postSelection context post))
      (ofHook path name (extension.postSelection context' post')) := by
  cases hx with
  | filter | sort | offsetPaging => exact matches_pure hpost
  | position key =>
    have hmember : Option.Rel (fun e e' => e.Renumbered w .none [] e')
        ((parameter post.element).recordMember?
          (if context.materialized then key else "index"))
        ((parameter post'.element).recordMember?
          (if context.materialized then key else "index")) :=
      Renumbered.recordMember? (.parameter hpost.element) _
    unfold Extension.position
    dsimp only
    rw [hcontext.materialized]
    generalize (parameter post.element).recordMember? _ = member,
      (parameter post'.element).recordMember? _ = member' at hmember
    cases hmember with
    | none => exact matches_pure hpost
    | some hmember => exact matches_pure ⟨hpost.selection.insert key hmember, hpost.element⟩

namespace Compiler

variable {extensions : List Extension}

theorem matches_runPreSelection (hx : ∀ x ∈ extensions, x.Uniform)
    (hcontext : context.Renumbered w context') (hpre : pre.Renumbered w M pre') :
    Matches w (fun w' => Renumbered w' M) (runPreSelection context extensions pre)
      (runPreSelection context' extensions pre') := by
  induction extensions generalizing w pre pre' with
  | nil => exact matches_pure (R := fun w' => Renumbered w' M) hpre
  | cons x rest ih =>
    obtain ⟨hx, hrest⟩ := forall_mem_cons.1 hx
    rw [runPreSelection, runPreSelection, hcontext.path]
    exact (hx.matches_preSelection hcontext hpre context.path x.name).bind
      fun w' _ _ hw hpre => ih hrest (hcontext.mono hw) hpre

theorem matches_runPostSelection (hx : ∀ x ∈ extensions, x.Uniform)
    (hcontext : context.Renumbered w context') (hpost : post.Renumbered w post') :
    Matches w PostSelection.Renumbered (runPostSelection context extensions post)
      (runPostSelection context' extensions post') := by
  induction extensions generalizing w post post' with
  | nil => exact matches_pure hpost
  | cons x rest ih =>
    obtain ⟨hx, hrest⟩ := forall_mem_cons.1 hx
    rw [runPostSelection, runPostSelection, hcontext.path]
    exact (hx.matches_postSelection hcontext hpost context.path x.name).bind
      fun w' _ _ hw hpost => ih hrest (hcontext.mono hw) hpost

end Compiler

end Hooks
end QueryProjection
