import QueryProjection.Extension.Paging
import QueryProjection.Extension.Position
import QueryProjection.Extension.Sort
import QueryProjection.Proofs.Compile.Outcome

/-!
# What the hooks of extensions give

One lemma for the first hook of each kind of extension: `Extension.filter_gives`,
`Extension.sort_gives`, `Extension.offsetPaging_gives` and `Extension.position_gives`.  Over fetched
data all of them leave everything as it is, because the data pass has run them already.

Extensions of the first three kinds (`Extension.Windows`) change which elements of a collection
there are, and in what order; the elements stay what they are.  The fourth kind swaps the elements.
-/

namespace QueryProjection

/-- A property that hooks have if their steps have it. -/
structure Hook.Stepwise (Q : (α : Type) → Hook α → Prop) : Prop where
  pure : ∀ {α : Type} (a : α), Q α (pure a)
  throw : ∀ {α : Type} (message : String), Q α (throw message)
  ofFresh : ∀ {α : Type} (x : Fresh α), Q α (Hook.ofFresh x)
  bind : ∀ {α β : Type} {x : Hook α} {f : α → Hook β}, Q α x → (∀ a, Q β (f a)) → Q β (x >>= f)

namespace Extension

variable {context : HookContext} {pre pre' : PreSelection} {j j' : Journal}

/-- Whether an argument is there and not null. -/
def given (context : HookContext) (argument : ArgumentDefinition) : Bool :=
  match context.argumentValue? argument.name with
  | some value => !value.isNull
  | none => false

/-- The placeholder for an element in the predicate of a filter. -/
def filterParameter (pre : PreSelection) (next : Nat) : Parameter :=
  ⟨next, "filter", pre.element.ty⟩

theorem filter_gives {argument : ArgumentDefinition} {predicate : Expr → Expr → Fresh Expr} :
    Gives ((filter argument predicate).preSelection context pre) j pre' j'
      ↔ (context.materialized || !given context argument) = true ∧ pre' = pre ∧ j' = j
        ∨ (context.materialized || !given context argument) = false ∧ ∃ value p condition,
            context.argument? argument.name = some value
            ∧ p = filterParameter pre j.next
            ∧ condition = (predicate (contextOf pre p) value).run (j.next + 1)
            ∧ pre' = { pre with collection := .call .filter pre.collection [.lambda p condition.1] }
            ∧ j' = { j with next := condition.2 } := by
  show Gives (if (context.materialized || !given context argument) = true then _ else _) j pre'
    j' ↔ _
  split
  · rename_i h
    simp [h]
  · rename_i h
    simp only [h, Bool.false_eq_true, false_and, false_or, true_and]
    cases context.argument? argument.name with
    | none => simp
    | some value =>
      simp only [gives_bind, Hook.gives_ofFresh, Parameter.run_fresh, gives_pure, existsAndEq,
        Option.some.injEq, true_and]
      rfl

/-- The placeholder for an element in the key of a sort. -/
def sortParameter (pre : PreSelection) (next : Nat) : Parameter :=
  ⟨next, "sort", pre.element.ty⟩

theorem sort_gives {key : Expr → Fresh Expr} :
    Gives ((sort key).preSelection context pre) j pre' j'
      ↔ context.materialized = true ∧ pre' = pre ∧ j' = j
        ∨ context.materialized = false ∧ ∃ descending p k,
            context.argument? "descending" = some descending
            ∧ p = sortParameter pre j.next
            ∧ k = (key (contextOf pre p)).run (j.next + 1)
            ∧ pre' = { pre with
                collection := .call .orderBy pre.collection [.lambda p k.1, descending] }
            ∧ j' = { j with next := k.2 } := by
  show Gives (if context.materialized = true then _ else _) j pre' j' ↔ _
  split
  · rename_i h
    simp [h]
  · rename_i h
    simp only [h, Bool.false_eq_true, false_and, false_or, true_and]
    cases context.argument? "descending" with
    | none => simp
    | some descending =>
      simp only [gives_bind, Hook.gives_ofFresh, Parameter.run_fresh, gives_pure, existsAndEq,
        Option.some.injEq, true_and]
      rfl

/-- Whether a page size, if there is one, is within the maximum, if there is one. -/
def sizeAllowed (size maxSize : Option Int64) : Bool :=
  match size, maxSize with
  | some size, some limit => !decide (limit < size)
  | _, _ => true

/-- Whether the page size that is asked for is within the maximum. -/
def withinMaximum (context : HookContext) (maxSize : Option Int64) : Bool :=
  sizeAllowed ((context.argumentValue? "take").bind Value.asInt?) maxSize

/-- The page that the arguments ask for, if they are bound. -/
def page? (context : HookContext) (pre : PreSelection) : Option PreSelection := do
  let skip ← context.argument? "skip"
  let take ← context.argument? "take"
  return { pre with collection := .call .take (.call .skip pre.collection [skip]) [take] }

/-- What is said of a page size that is too large. -/
def pageRefusal (size maxSize : Option Int64) : String :=
  match size, maxSize with
  | some size, some limit =>
    "requested page size " ++ size.toInt.repr ++ " exceeds the maximum of " ++ limit.toInt.repr
  | _, _ => ""

theorem offsetPaging_eq (defaultSize maxSize : Option Int64) (context : HookContext)
    (pre : PreSelection) :
    (offsetPaging defaultSize maxSize).preSelection context pre
      = if context.materialized = true then pure pre
        else if withinMaximum context maxSize = true then
          (page? context pre).elim (throw "paging arguments are not bound") pure
        else throw (pageRefusal ((context.argumentValue? "take").bind Value.asInt?) maxSize) := by
  unfold withinMaximum sizeAllowed offsetPaging page? pageRefusal
  dsimp only
  rcases (context.argumentValue? "take").bind Value.asInt? with _ | size
  · rcases context.argument? "skip" with _ | skip <;> rcases context.argument? "take" <;> rfl
  · rcases maxSize with _ | limit
    · rcases context.argument? "skip" with _ | skip <;> rcases context.argument? "take" <;> rfl
    · by_cases h : limit < size
      · simp only [h, decide_true, Bool.not_true, Bool.false_eq_true, ↓reduceIte]
        rfl
      · simp only [h, decide_false, Bool.not_false, ↓reduceIte]
        rcases context.argument? "skip" with _ | skip <;> rcases context.argument? "take" <;> rfl

theorem offsetPaging_gives {defaultSize maxSize : Option Int64} :
    Gives ((offsetPaging defaultSize maxSize).preSelection context pre) j pre' j'
      ↔ context.materialized = true ∧ pre' = pre ∧ j' = j
        ∨ context.materialized = false ∧ withinMaximum context maxSize = true ∧ ∃ skip take,
            context.argument? "skip" = some skip
            ∧ context.argument? "take" = some take
            ∧ pre' = { pre with
                collection := .call .take (.call .skip pre.collection [skip]) [take] }
            ∧ j' = j := by
  rw [offsetPaging_eq]
  split
  · rename_i h
    simp [h]
  · rename_i h
    simp only [h, Bool.false_eq_true, false_and, false_or, true_and]
    split
    · rename_i hw
      unfold page?
      cases context.argument? "skip" with
      | none => simp
      | some skip => cases context.argument? "take" <;> simp [hw]
    · rename_i hw
      simp [hw]

/-- The placeholder for an element paired with its position. -/
def positionParameter (pre : PreSelection) (next : Nat) : Parameter :=
  ⟨next, "positioned", .record (Shape.indexed pre.collection.ty.elementOrNull)⟩

theorem position_gives {key : String} :
    Gives ((position key).preSelection context pre) j pre' j'
      ↔ context.materialized = true ∧ pre' = pre ∧ j' = j
        ∨ context.materialized = false ∧ ∃ element item,
            element = positionParameter pre j.next
            ∧ Expr.recordMember? (.parameter element) "item" = some item
            ∧ pre' = ⟨.call .enumerate pre.collection [], element,
                pre.elementContext.replace (.identity pre.element) item⟩
            ∧ j' = { j with next := j.next + 1 } := by
  show Gives (if context.materialized = true then _ else _) j pre' j' ↔ _
  split
  · rename_i h
    simp [h]
  · rename_i h
    simp only [h, Bool.false_eq_true, false_and, false_or, true_and, gives_bind,
      Hook.gives_ofFresh, Parameter.run_fresh]
    constructor
    · rintro ⟨_, _, ⟨rfl, rfl⟩, hitem⟩
      split at hitem
      · simp at hitem
      · rename_i item hsome
        obtain ⟨rfl, rfl⟩ := gives_pure.1 hitem
        exact ⟨_, item, rfl, hsome, rfl, rfl⟩
    · rintro ⟨_, item, rfl, hsome, rfl, rfl⟩
      refine ⟨_, _, ⟨rfl, rfl⟩, ?_⟩
      rw [← positionParameter, hsome]
      exact gives_pure.2 ⟨rfl, rfl⟩

theorem position_injective : Function.Injective position := by
  intro a b h
  -- What they add to an empty selection tells them apart.
  let context : HookContext := ⟨.full, false, .operation, none, none⟩
  let input : PostSelection := ⟨{}, ⟨0, "positioned", .record [("index", .int)]⟩⟩
  have hpost : outcome ((position a).postSelection context input) ⟨0, []⟩
      = outcome ((position b).postSelection context input) ⟨0, []⟩ := by rw [h]
  have hadded : ∀ key, outcome ((position key).postSelection context input) ⟨0, []⟩
      = (.ok ⟨⟨[(key, .member (.parameter input.element) "index" .int)]⟩, input.element⟩,
        ⟨0, []⟩) := by
    intro key
    have hindex : Expr.recordMember? (.parameter input.element) "index"
        = some (.member (.parameter input.element) "index" .int) := by
      simp [Expr.recordMember?, input, Shape.field?, Expr.ty, Ty.shape?]
    simp only [position, context, Bool.false_eq_true, ↓reduceIte, hindex]
    rfl
  rw [hadded, hadded] at hpost
  simpa using hpost

/-- An extension that changes which elements of a collection there are, and in what order, but not
the elements. -/
inductive Windows : Extension → Prop
  | filter (argument : ArgumentDefinition) (predicate : Expr → Expr → Fresh Expr) :
      Windows (.filter argument predicate)
  | sort (key : Expr → Fresh Expr) : Windows (.sort key)
  | offsetPaging (defaultSize maxSize : Option Int64) : Windows (.offsetPaging defaultSize maxSize)

/-- An extension of one of the four kinds, with any predicate or key. -/
inductive Known : Extension → Prop
  | filter (argument : ArgumentDefinition) (predicate : Expr → Expr → Fresh Expr) :
      Known (.filter argument predicate)
  | sort (key : Expr → Fresh Expr) : Known (.sort key)
  | offsetPaging (defaultSize maxSize : Option Int64) : Known (.offsetPaging defaultSize maxSize)
  | position (key : String) : Known (.position key)

variable {x : Extension}

/-- Over fetched data the hooks change nothing. -/
theorem Known.preSelection_gives (h : x.Known) (hmaterialized : context.materialized = true) :
    Gives (x.preSelection context pre) j pre' j' ↔ pre' = pre ∧ j' = j := by
  cases h with
  | filter argument predicate => simp [filter_gives, hmaterialized]
  | sort key => simp [sort_gives, hmaterialized]
  | offsetPaging defaultSize maxSize => simp [offsetPaging_gives, hmaterialized]
  | position key => simp [position_gives, hmaterialized]

theorem Known.postSelection_gives (h : x.Known) {post post' : PostSelection}
    (hpost : Gives (x.postSelection context post) j post' j') :
    j' = j ∧ (post' = post ∨ ∃ key name e, Expr.recordMember?
      (.parameter post.element) name = some e
      ∧ post' = { post with selection := post.selection.insert key e }) := by
  cases h with
  | position key =>
    simp only [Extension.position] at hpost
    split at hpost
    · rename_i e he
      obtain ⟨rfl, rfl⟩ := gives_pure.1 hpost
      exact ⟨rfl, .inr ⟨_, _, e, he, rfl⟩⟩
    · exact (gives_pure.1 hpost).symm.imp_right .inl
  | _ => exact (gives_pure.1 hpost).symm.imp_right .inl

theorem Known.stepwise {Q : (α : Type) → Hook α → Prop} (hQ : Hook.Stepwise Q) (h : x.Known)
    (context : HookContext) :
    (∀ input, Q _ (x.preSelection context input))
      ∧ ∀ input, Q _ (x.postSelection context input) := by
  cases h with
  | filter argument predicate =>
    refine ⟨fun input => ?_, fun input => hQ.pure _⟩
    show Q _ (if (context.materialized || !given context argument) = true then _ else _)
    split
    · exact hQ.pure _
    · split
      · exact hQ.throw _
      · exact hQ.bind (hQ.ofFresh _) fun p => hQ.bind (hQ.ofFresh _) fun c => hQ.pure _
  | sort key =>
    refine ⟨fun input => ?_, fun input => hQ.pure _⟩
    show Q _ (if context.materialized = true then _ else _)
    split
    · exact hQ.pure _
    · split
      · exact hQ.throw _
      · exact hQ.bind (hQ.ofFresh _) fun p => hQ.bind (hQ.ofFresh _) fun c => hQ.pure _
  | offsetPaging defaultSize maxSize =>
    refine ⟨fun input => ?_, fun input => hQ.pure _⟩
    rw [offsetPaging_eq]
    split
    · exact hQ.pure _
    · split
      · cases page? context input with
        | none => exact hQ.throw _
        | some page => exact hQ.pure _
      · exact hQ.throw _
  | position key =>
    refine ⟨fun input => ?_, fun input => ?_⟩
    · show Q _ (if context.materialized = true then _ else _)
      split
      · exact hQ.pure _
      · refine hQ.bind (hQ.ofFresh _) fun p => ?_
        split
        · exact hQ.throw _
        · exact hQ.pure _
    · unfold Extension.position
      dsimp only
      split
      · exact hQ.pure _
      · exact hQ.pure _

theorem Windows.postSelection_eq (h : x.Windows) (post : PostSelection) :
    x.postSelection context post = pure post := by
  cases h <;> rfl

end Extension

/-- `P` holds of the extensions that are run for the field.  The hooks of extensions are run for
list fields only. -/
def FieldDefinition.Hooks (P : Extension → Prop) (definition : FieldDefinition) : Prop :=
  definition.shape = .list → ∀ x ∈ definition.extensions, P x

theorem FieldDefinition.Hooks.imp {P Q : Extension → Prop} (hPQ : ∀ x, P x → Q x)
    {definition : FieldDefinition} (h : definition.Hooks P) : definition.Hooks Q :=
  fun hshape x hx => hPQ x (h hshape x hx)

namespace Compiler

variable {context : HookContext} {extensions : List Extension} {m m' : Memory}

theorem runPreSelection_idle {pre pre' : PreSelection}
    (h : ∀ x ∈ extensions, ∀ {j pre' j'}, Gives (x.preSelection context pre) j pre' j'
      ↔ pre' = pre ∧ j' = j) :
    Gives (runPreSelection context extensions pre) m pre' m' ↔ pre' = pre ∧ m' = m := by
  induction extensions with
  | nil => exact gives_pure
  | cons x rest ih =>
    obtain ⟨hx, hrest⟩ := List.forall_mem_cons.1 h
    simp only [runPreSelection_cons_gives, hx, existsAndEq, true_and]
    exact ih hrest

theorem runPostSelection_gives (h : ∀ x ∈ extensions, x.Windows) {input post : PostSelection} :
    Gives (runPostSelection context extensions input) m post m' ↔ post = input ∧ m' = m := by
  have hkept : runPostSelection context extensions input = pure input := by
    induction extensions with
    | nil => rfl
    | cons x rest ih =>
      obtain ⟨hx, hrest⟩ := List.forall_mem_cons.1 h
      rw [runPostSelection, hx.postSelection_eq]
      exact ih hrest
  rw [hkept, gives_pure]

end Compiler
end QueryProjection
