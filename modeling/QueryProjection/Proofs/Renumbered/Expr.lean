import QueryProjection.Proofs.Expr.Rename

/-!
# Expressions up to the numbers of their parameters

Two compilations of the same thing need not draw the same numbers for their new parameters.  What
they give is then the same up to these numbers.

* `Numbering` says which numbers of one compilation stand for which numbers of another one, so far.
  Drawing more numbers extends it;
* `Expr.Renumbered` compares two expressions.  Besides the numbers, the one may have a parameter
  where the other has an expression that is yet to be put in its place: `Moved`;
* what the compiler does with expressions it does alike with renumbered ones:
  `Expr.Renumbered.replaceUnder`, `Expr.Renumbered.substituteIn`, `Expr.Renumbered.collect`; and so
  does evaluation, `Expr.Renumbered.operand`.

A numbering relates numbers and not parameters, and it only ever grows, so what was compared once
need not be compared again.  That something is yet to be put in place has to be part of the
relation: a field of a fragment is compiled as a whole before it is moved, and all that time the
other compilation has the context itself where this one has the parameter of the fragment.
-/

namespace QueryProjection

open List

/-! ## Numberings -/

/-- Which numbers stand for which: `pairs i j` says that `j` stands for `i`.  Numbers below `base`
stand for themselves, and all of them are below the numbers that will be drawn next. -/
structure Numbering (base : Nat) where
  pairs : Nat → Nat → Prop
  /-- The number that the one compilation draws next. -/
  next : Nat
  /-- The number that the other compilation draws next. -/
  next' : Nat
  known : ∀ {i}, i < base → pairs i i
  left_unique : ∀ {i j k}, pairs i k → pairs j k → i = j
  right_unique : ∀ {i j k}, pairs i j → pairs i k → j = k
  left_lt : ∀ {i j}, pairs i j → i < next
  right_lt : ∀ {i j}, pairs i j → j < next'

namespace Numbering

variable {base : Nat} {w w₁ w₂ : Numbering base} {i j : Nat}

/-- Numbers that are both drawn first stand for each other, and so on. -/
def draw (w : Numbering base) (count : Nat) : Numbering base where
  pairs i j := w.pairs i j ∨ ∃ d < count, i = w.next + d ∧ j = w.next' + d
  next := w.next + count
  next' := w.next' + count
  known h := .inl (w.known h)
  left_unique := by
    rintro i j k (hi | ⟨d, hd, rfl, rfl⟩) (hj | ⟨d', hd', rfl, hk⟩)
    · exact w.left_unique hi hj
    · have := w.right_lt hi
      omega
    · have := w.right_lt hj
      omega
    · omega
  right_unique := by
    rintro i j k (hi | ⟨d, hd, rfl, rfl⟩) (hj | ⟨d', hd', hk, rfl⟩)
    · exact w.right_unique hi hj
    · have := w.left_lt hi
      omega
    · have := w.left_lt hj
      omega
    · omega
  left_lt := by
    rintro i j (h | ⟨d, hd, rfl, rfl⟩)
    · exact Nat.lt_add_right count (w.left_lt h)
    · omega
  right_lt := by
    rintro i j (h | ⟨d, hd, rfl, rfl⟩)
    · exact Nat.lt_add_right count (w.right_lt h)
    · omega

/-- The one compilation draws a number that nothing stands for. -/
def skip (w : Numbering base) : Numbering base where
  pairs := w.pairs
  next := w.next + 1
  next' := w.next'
  known := w.known
  left_unique := w.left_unique
  right_unique := w.right_unique
  left_lt h := Nat.lt_succ_of_lt (w.left_lt h)
  right_lt := w.right_lt

/-- Nothing has been drawn yet. -/
def initial (base : Nat) : Numbering base where
  pairs i j := i = j ∧ i < base
  next := base
  next' := base
  known h := ⟨rfl, h⟩
  left_unique := by
    rintro i j k ⟨rfl, -⟩ ⟨rfl, -⟩
    rfl
  right_unique := by
    rintro i j k ⟨rfl, -⟩ ⟨rfl, -⟩
    rfl
  left_lt h := h.2
  right_lt h := h.1 ▸ h.2

/-- The one numbering came of the other by drawing numbers. -/
structure Le (w w' : Numbering base) : Prop where
  pairs : ∀ {i j}, w.pairs i j → w'.pairs i j
  next : w.next ≤ w'.next
  next' : w.next' ≤ w'.next'
  drawn : ∀ {i j}, w'.pairs i j → w.pairs i j ∨ (w.next ≤ i ∧ w.next' ≤ j)

instance : LE (Numbering base) := ⟨Le⟩

theorem le_refl (w : Numbering base) : w ≤ w :=
  ⟨id, Nat.le_refl _, Nat.le_refl _, .inl⟩

theorem le_trans (h₁ : w ≤ w₁) (h₂ : w₁ ≤ w₂) : w ≤ w₂ where
  pairs h := h₂.pairs (h₁.pairs h)
  next := Nat.le_trans h₁.next h₂.next
  next' := Nat.le_trans h₁.next' h₂.next'
  drawn h := (h₂.drawn h).elim h₁.drawn fun hlt =>
    .inr ⟨Nat.le_trans h₁.next hlt.1, Nat.le_trans h₁.next' hlt.2⟩

theorem le_draw (w : Numbering base) (count : Nat) : w ≤ w.draw count where
  pairs := .inl
  next := Nat.le_add_right _ _
  next' := Nat.le_add_right _ _
  drawn h := h.imp_right fun ⟨_, _, hi, hj⟩ =>
    ⟨hi ▸ Nat.le_add_right _ _, hj ▸ Nat.le_add_right _ _⟩

theorem le_skip (w : Numbering base) : w ≤ w.skip :=
  ⟨id, Nat.le_succ _, Nat.le_refl _, .inl⟩

theorem base_le_next' (w : Numbering base) : base ≤ w.next' := by
  cases base with
  | zero => exact Nat.zero_le _
  | succ n => exact w.right_lt (w.known n.lt_succ_self)

end Numbering

/-! ## Parameters -/

/-- The parameters are the same up to their numbers. -/
structure Parameter.Renumbered {base : Nat} (w : Numbering base) (p p' : Parameter) : Prop where
  id : w.pairs p.id p'.id
  name : p'.name = p.name
  ty : p'.ty = p.ty

namespace Parameter.Renumbered

variable {base : Nat} {w w' : Numbering base} {p p' q q' : Parameter}

theorem mono (h : p.Renumbered w p') (hw : w ≤ w') : p.Renumbered w' p' :=
  ⟨hw.pairs h.id, h.name, h.ty⟩

theorem known (h : p.id < base) : p.Renumbered w p :=
  ⟨w.known h, rfl, rfl⟩

theorem drawn (w : Numbering base) (name : String) (ty : Ty) :
    (⟨w.next, name, ty⟩ : Parameter).Renumbered (w.draw 1) ⟨w.next', name, ty⟩ :=
  ⟨.inr ⟨0, Nat.zero_lt_one, rfl, rfl⟩, rfl, rfl⟩

theorem eq_iff (hp : p.Renumbered w p') (hq : q.Renumbered w q') : p' = q' ↔ p = q := by
  obtain ⟨i, name, ty⟩ := p
  obtain ⟨i', _, _⟩ := p'
  obtain ⟨j, name', ty'⟩ := q
  obtain ⟨j', _, _⟩ := q'
  obtain ⟨hi, rfl, rfl⟩ := hp
  obtain ⟨hj, rfl, rfl⟩ := hq
  simp only [Parameter.mk.injEq]
  refine and_congr_left fun _ => ?_
  constructor
  · rintro rfl
    exact w.left_unique hi hj
  · rintro rfl
    exact w.right_unique hi hj

variable {l l' : List Parameter}

theorem mem_iff (h : Forall₂ (Parameter.Renumbered w) l l') (hp : p.Renumbered w p') :
    p' ∈ l' ↔ p ∈ l := by
  induction h with
  | nil => exact iff_of_false not_mem_nil not_mem_nil
  | cons hq _ ih => rw [mem_cons, mem_cons, ih, hp.eq_iff hq]

theorem exists_of_mem (h : Forall₂ (Parameter.Renumbered w) l l') (hp : p ∈ l) :
    ∃ i, w.pairs p.id i := by
  induction h with
  | nil => exact absurd hp not_mem_nil
  | cons hq _ ih =>
    rcases mem_cons.1 hp with rfl | hp
    · exact ⟨_, hq.id⟩
    · exact ih hp

end Parameter.Renumbered

/-! ## Expressions -/

/-- What a parameter that is yet to be replaced stands for, below some binders. -/
abbrev Moved := Parameter → Expr → List Parameter → Prop

/-- Nothing is yet to be replaced. -/
def Moved.none : Moved := fun _ _ _ => False

/-- This parameter is yet to be replaced by this expression.  No binder may stand in between. -/
def Moved.to (own : Parameter) (context : Expr) : Moved := fun p e bound =>
  p = own ∧ e = context ∧ ∀ q ∈ context.freeParameters, q ∉ bound

namespace Expr

section Renumbered

variable {base : Nat} (w : Numbering base) (M : Moved)

mutual

/-- The expressions are the same up to the numbers of parameters and constants, and up to parameters
that are yet to be replaced.  The expressions stand below some binders, those of the second one are
given. -/
inductive Renumbered : List Parameter → Expr → Expr → Prop
  | parameter {bound : List Parameter} {p p' : Parameter} (hp : p.Renumbered w p') :
      Renumbered bound (.parameter p) (.parameter p')
  | moved {bound : List Parameter} {p : Parameter} {e' : Expr} (h : M p e' bound) :
      Renumbered bound (.parameter p) e'
  | constant {bound : List Parameter} {site site' : Nat} (h : w.pairs site site')
      (value : Value) (ty : Ty) :
      Renumbered bound (.constant site value ty) (.constant site' value ty)
  | member {bound : List Parameter} {receiver receiver' : Expr}
      (h : Renumbered bound receiver receiver')
      (name : String) (ty : Ty) :
        Renumbered bound (.member receiver name ty) (.member receiver' name ty)
  | call {bound : List Parameter} {receiver receiver' : Expr} {arguments arguments' : List Expr}
      (method : Method) (hr : Renumbered bound receiver receiver')
      (ha : RenumberedAll bound arguments arguments') :
      Renumbered bound (.call method receiver arguments) (.call method receiver' arguments')
  | binary {bound : List Parameter} {left left' right right' : Expr} (op : Operator)
      (hl : Renumbered bound left left') (hr : Renumbered bound right right') :
      Renumbered bound (.binary op left right) (.binary op left' right')
  | serviceCall {bound : List Parameter} {arguments arguments' : List Expr}
      (service method : String) (ha : RenumberedAll bound arguments arguments') (ty : Ty) :
      Renumbered bound (.serviceCall service method arguments ty)
        (.serviceCall service method arguments' ty)
  | lambda {bound : List Parameter} {p p' : Parameter} {body body' : Expr} (hp : p.Renumbered w p')
      (hb : Renumbered (p' :: bound) body body') :
        Renumbered bound (.lambda p body) (.lambda p' body')
  | record {bound : List Parameter} {values values' : List Expr} (shape : Shape)
      (hv : RenumberedAll bound values values') :
        Renumbered bound (.record shape values) (.record shape values')
  | projectEach {bound : List Parameter} {source source' body body' : Expr} {p p' : Parameter}
      (hs : Renumbered bound source source') (hp : p.Renumbered w p')
      (hb : Renumbered (p' :: bound) body body') :
      Renumbered bound (.projectEach source p body) (.projectEach source' p' body')
  | projectOne {bound : List Parameter} {source source' body body' : Expr} {p p' : Parameter}
      (hs : Renumbered bound source source') (hp : p.Renumbered w p')
      (hb : Renumbered (p' :: bound) body body') :
      Renumbered bound (.projectOne source p body) (.projectOne source' p' body')
  | materialize {bound : List Parameter} {inner inner' : Expr} (h : Renumbered bound inner inner') :
      Renumbered bound (.materialize inner) (.materialize inner')

/-- The same for several expressions. -/
inductive RenumberedAll : List Parameter → List Expr → List Expr → Prop
  | nil {bound : List Parameter} : RenumberedAll bound [] []
  | cons {bound : List Parameter} {e e' : Expr} {es es' : List Expr} (h : Renumbered bound e e')
      (hs : RenumberedAll bound es es') : RenumberedAll bound (e :: es) (e' :: es')

end

end Renumbered

variable {base : Nat} {w w' : Numbering base} {M M' : Moved} {bound bound' : List Parameter}
  {e e' : Expr} {es : List Expr} {i : Nat}

theorem renumberedAll_iff {es' : List Expr} :
    RenumberedAll w M bound es es' ↔ Forall₂ (Renumbered w M bound) es es' := by
  constructor
  · intro h
    induction es generalizing es' with
    | nil =>
      cases h
      exact .nil
    | cons e es ih =>
      cases h with
      | cons h hs => exact .cons h (ih hs)
  · intro h
    induction h with
    | nil => exact .nil
    | cons h _ ih => exact .cons h ih

theorem Renumbered.of_layer (h : Layer w.pairs (Parameter.Renumbered w)
    (fun _ bs x x' => x.Renumbered w M (bs ++ bound) x') e e') : e.Renumbered w M bound e' := by
  cases h with
  | call _ hr ha => exact .call _ hr (renumberedAll_iff.2 ha)
  | serviceCall _ _ ha => exact .serviceCall _ _ (renumberedAll_iff.2 ha) _
  | record _ hv => exact .record _ (renumberedAll_iff.2 hv)
  | _ => constructor <;> assumption

theorem Renumbered.layer (he : e.asParameter? = none) (h : e.Renumbered w M bound e') :
    Layer w.pairs (Parameter.Renumbered w) (fun _ bs x x' =>
      x.Renumbered w M (bs ++ bound) x') e e' := by
  cases h with
  | parameter | moved => cases he
  | call _ hr ha => exact .call _ hr (renumberedAll_iff.1 ha)
  | serviceCall _ _ ha => exact .serviceCall _ _ (renumberedAll_iff.1 ha) _
  | record _ hv => exact .record _ (renumberedAll_iff.1 hv)
  | _ => constructor <;> assumption

/-- Induction over renumbered expressions by their parts. -/
theorem Renumbered.induct
    {motive : (bound : List Parameter) → (e e' : Expr) → e.Renumbered w M bound e' → Prop}
    (parameter : ∀ bound p p' (hp : p.Renumbered w p'), motive bound (.parameter p) (.parameter p')
      (.parameter hp))
    (moved : ∀ bound p e' (h : M p e' bound), motive bound (.parameter p) e' (.moved h))
    (layer : ∀ bound e e' h, Layer w.pairs (Parameter.Renumbered w)
      (fun _ bs x x' => ∃ hx, motive (bs ++ bound) x x' hx) e e' → motive bound e e' h)
    (bound : List Parameter) (e e' : Expr) (h : e.Renumbered w M bound e') :
    motive bound e e' h := by
  induction e using induct_parts generalizing bound e' with
  | parameter p =>
    cases h with
    | parameter hp => exact parameter bound p _ hp
    | moved h => exact moved bound p e' h
  | node e he ih =>
    exact layer bound e e' h ((h.layer he).with_mem.imp fun bs bs' x x' _ hx =>
      ⟨hx.1, ih _ hx.2.1 _ _ hx.1⟩)

/-- More numbers may have been drawn, and more may be yet to be replaced.  `R` relates the binders
around both. -/
theorem Renumbered.imp {R : List Parameter → List Parameter → Prop}
    (hcons : ∀ bound bound' p, R bound bound' → R (p :: bound) (p :: bound')) (hw : w ≤ w')
    (hmoved : ∀ p e bound bound', R bound bound' → M p e bound → M' p e bound')
    (hbound : R bound bound') (h : e.Renumbered w M bound e') : e.Renumbered w' M' bound' e' := by
  have happend {bound bound' : List Parameter} (h : R bound bound') (bs : List Parameter) :
      R (bs ++ bound) (bs ++ bound') := by
    induction bs with
    | nil => exact h
    | cons p bs ih => exact hcons _ _ p ih
  induction bound, e, e', h using Renumbered.induct generalizing bound' with
  | parameter bound p p' hp => exact .parameter (hp.mono hw)
  | moved bound p e' h => exact .moved (hmoved p e' bound bound' hbound h)
  | layer bound e e' _ h =>
    exact .of_layer (h.change (fun _ _ => hw.pairs) (fun _ _ hp => hp.mono hw)
      fun _ bs _ _ _ ⟨_, hx⟩ => hx (happend hbound bs))

theorem Renumbered.mono (h : e.Renumbered w M bound e') (hw : w ≤ w') :
    e.Renumbered w' M bound e' :=
  h.imp (fun _ _ p h => congrArg (p :: ·) h) hw (fun _ _ _ _ h hm => h ▸ hm) rfl

/-- Where nothing is yet to be replaced the binders around the expressions do not matter. -/
theorem Renumbered.under (h : e.Renumbered w .none bound e') (M : Moved) (bound' : List Parameter) :
    e.Renumbered w M bound' e' :=
  h.imp (R := fun _ _ => True) (fun _ _ _ _ => trivial) (Numbering.le_refl w)
    (fun _ _ _ _ _ hm => hm.elim) trivial

theorem Renumbered.ty (h : e.Renumbered w .none bound e') : e'.ty = e.ty := by
  induction bound, e, e', h using Renumbered.induct with
  | parameter bound p p' hp => exact hp.ty
  | moved bound p e' h => exact h.elim
  | layer bound e e' _ h => exact (h.imp fun _ _ _ _ _ ⟨_, hx⟩ => hx).ty

/-! ## Numbers of an expression -/

mutual

/-- The numbers of the parameters and constants in an expression. -/
def ids : Expr → List Nat
  | .parameter p => [p.id]
  | .constant site _ _ => [site]
  | .member receiver _ _ => ids receiver
  | .call _ receiver arguments => ids receiver ++ idsAll arguments
  | .binary _ left right => ids left ++ ids right
  | .serviceCall _ _ arguments _ => idsAll arguments
  | .lambda p body => p.id :: ids body
  | .record _ values => idsAll values
  | .projectEach source element body => ids source ++ element.id :: ids body
  | .projectOne source element body => ids source ++ element.id :: ids body
  | .materialize inner => ids inner

/-- The same for several expressions. -/
def idsAll : List Expr → List Nat
  | [] => []
  | e :: es => ids e ++ idsAll es

end

theorem mem_idsAll : i ∈ idsAll es ↔ ∃ e ∈ es, i ∈ e.ids := by
  induction es with
  | nil => simp [idsAll]
  | cons e es ih => simp [idsAll, ih]

theorem mem_ids (he : e.asParameter? = none) :
    i ∈ e.ids ↔ (∃ value ty, e = .constant i value ty)
      ∨ ∃ part ∈ e.parts, i ∈ part.1.map Parameter.id ∨ i ∈ part.2.ids := by
  cases e with
  | parameter p => cases he
  | _ => simp [ids, parts, mem_idsAll, eq_comm]

theorem renumbered_self (w : Numbering base) (M : Moved) (bound : List Parameter)
    (h : ∀ i ∈ e.ids, i < base) : e.Renumbered w M bound e := by
  induction e using induct_parts generalizing bound with
  | parameter p => exact .parameter (.known (h _ (mem_singleton.2 rfl)))
  | node e he ih =>
    refine .of_layer (layer_self he (fun site value ty heq => w.known (h site ?_)) fun part hpart =>
      ⟨fun q hq => .known (h q.id ?_), ih part hpart _ fun i hi => h i ?_⟩)
    · exact (mem_ids he).2 (.inl ⟨value, ty, heq⟩)
    · exact (mem_ids he).2 (.inr ⟨part, hpart, .inl (mem_map_of_mem hq)⟩)
    · exact (mem_ids he).2 (.inr ⟨part, hpart, .inr hi⟩)

end Expr
end QueryProjection
