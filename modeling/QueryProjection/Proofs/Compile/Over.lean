import QueryProjection.Proofs.Expr.Kept
import QueryProjection.Proofs.Extension
import QueryProjection.Proofs.Merge

/-!
# Expressions over some parameters

`Expr.Over P allowed e` says what it takes to evaluate `e`: its free parameters are among the
allowed ones, and `P` holds of its constants.  The operations of the compiler on expressions keep to
the allowed parameters, and so do the hooks of the extensions of the known kinds, as long as their
predicates and keys are made of what they are given (`Extension.BuiltIn`).
-/

namespace QueryProjection

open Expr List

variable {P : Value → Prop}

/-! ## Expressions over some parameters -/

/-- The free parameters of the expression are among the allowed ones, and `P` holds of its
constants. -/
structure Expr.Over (P : Value → Prop) (allowed : Parameter → Prop) (e : Expr) : Prop where
  free : ∀ p ∈ e.freeParameters, allowed p
  built : e.Built P True

namespace Expr.Over

variable {A B : Parameter → Prop} {e target : Expr}

theorem mono (h : e.Over P A) (hAB : ∀ p, A p → B p) : e.Over P B :=
  ⟨fun p hp => hAB p (h.free p hp), h.built⟩

theorem parameter {p : Parameter} (h : A p) : (parameter p).Over P A :=
  ⟨fun q hq => by rw [mem_freeParameters_parameter.1 hq]; exact h, trivial⟩

theorem member (h : e.Over P A) (name : String) (ty : Ty) : (member e name ty).Over P A :=
  ⟨fun p hp => h.free p (mem_freeParameters_member.1 hp), h.built⟩

variable {name : String} {body source : Expr} {element old : Parameter}

theorem recordMember? {m : Expr} (h : e.Over P A) (hm : e.recordMember? name = some m) :
    m.Over P A := by
  obtain ⟨shape, -, hm⟩ := Option.bind_eq_some_iff.1 hm
  obtain ⟨field, -, hm⟩ := Option.bind_eq_some_iff.1 hm
  cases hm
  exact h.member _ _

theorem call {method : Method} {receiver : Expr} {arguments : List Expr} (h : receiver.Over P A)
    (ha : ∀ a ∈ arguments, a.Over P A) : (call method receiver arguments).Over P A where
  free p hp := by
    rcases mem_freeParameters_call.1 hp with hp | ⟨a, hmem, hp⟩
    · exact h.free p hp
    · exact (ha a hmem).free p hp
  built := ⟨h.built, builtAll_iff.2 fun a hmem => (ha a hmem).built⟩

theorem lambda {q : Parameter} (h : body.Over P fun p => A p ∨ p = q) :
    (lambda q body).Over P A where
  free p hp := by
    obtain ⟨hp, hne⟩ := mem_freeParameters_lambda.1 hp
    exact (h.free p hp).resolve_right hne
  built := h.built

theorem toRecord {fields : SelectionMap} (h : ∀ f ∈ fields.fields, f.2.Over P A) :
    fields.toRecord.Over P A where
  free p hp := by
    obtain ⟨e, he, hp⟩ := mem_freeParameters_record.1 hp
    obtain ⟨f, hf, rfl⟩ := mem_map.1 he
    exact (h f hf).free p hp
  built := builtAll_iff.2 fun e he => by
    obtain ⟨f, hf, rfl⟩ := mem_map.1 he
    exact (h f hf).built

theorem projectOne (hs : source.Over P A) (hb : body.Over P fun p => A p ∨ p = element) :
    (projectOne source element body).Over P A where
  free p hp := by
    rcases mem_freeParameters_projectOne.1 hp with hp | ⟨hp, hne⟩
    · exact hs.free p hp
    · exact (hb.free p hp).resolve_right hne
  built := ⟨hs.built, hb.built⟩

theorem projectEach (hs : source.Over P A) (hb : body.Over P fun p => A p ∨ p = element) :
    (projectEach source element body).Over P A where
  free p hp := by
    rcases mem_freeParameters_projectEach.1 hp with hp | ⟨hp, hne⟩
    · exact hs.free p hp
    · exact (hb.free p hp).resolve_right hne
  built := ⟨trivial, hs.built, hb.built⟩

theorem materialize (h : e.Over P A) : (materialize e).Over P A :=
  ⟨fun p hp => h.free p (mem_freeParameters_materialize.1 hp), h.built⟩

theorem replace (h : e.Over P fun p => A p ∨ p = old) (ht : target.Over P A) :
    (e.replace (.identity old) target).Over P A where
  free p hp := by
    rcases mem_freeParameters_replace hp with ⟨hp, hne⟩ | hp
    · exact (h.free p hp).resolve_right hne
    · exact ht.free p hp
  built := (nodewise_built P _).replace h.built ht.built _

theorem rebase {new moved : Expr} (h : e.Over P fun p => A p ∨ p = old) (hnew : new.Over P A)
    {policy : TypeMatching} {scope : List Parameter} {path : FieldPath}
    (hmoved : (e.rebase policy old new scope path).result = .ok moved) : moved.Over P A where
  free p hp := by
    rcases mem_freeParameters_rebase hmoved hp with ⟨hp, hne⟩ | hp
    · exact (h.free p hp).resolve_right hne
    · exact hnew.free p hp
  built := (nodewise_built P _).rebase h.built hnew.built hmoved

theorem substitute {replacement : Expr} (h : e.Over P A) (hr : replacement.Over P A) :
    (e.substitute target replacement).Over P A where
  free p hp := (mem_freeParameters_substitute e hp).elim (h.free p) (hr.free p)
  built := (nodewise_built P _).substitute h.built hr.built

theorem replace_chain {d : Dependency} (h : ChainOn (.parameter d.root) name d.chain)
    {context : Expr} (hc : context.Over P A) :
    (d.chain.replace (.identity d.root) context).Over P A := by
  have hbuilt : ∀ {whole : Expr}, ChainOn (.parameter d.root) name whole → whole.Built P True := by
    intro whole h
    induction h with
    | first => trivial
    | next _ _ _ ih => exact ih
  refine replace ⟨fun p hp => .inr ?_, hbuilt h⟩ hc
  exact mem_freeParameters_parameter.1 (h.mem_freeParameters_iff.1 hp)

end Expr.Over

/-! ## Extensions -/

/-- The expression is made of the given ones: it mentions no other parameters, `P` holds of its
constants if it does of theirs, and what was drawn for it is not given back. -/
structure Expr.MadeOf (P : Value → Prop) (given : List Expr) (make : Fresh Expr) : Prop where
  draws : ∀ n, n ≤ (make.run n).2
  free : ∀ n, ∀ p ∈ (make.run n).1.freeParameters, ∃ e ∈ given, p ∈ e.freeParameters
  built : (∀ e ∈ given, e.Built P True) → ∀ n, (make.run n).1.Built P True

variable {A : Parameter → Prop}

theorem Expr.MadeOf.keeps {given : List Expr} {make : Fresh Expr} (h : MadeOf P given make)
    (hgiven : ∀ e ∈ given, e.Over P A) (n : Nat) :
    (make.run n).1.Over P A where
  free p hp := by
    obtain ⟨e, he, hp⟩ := h.free n p hp
    exact (hgiven e he).free p hp
  built := h.built (fun e he => (hgiven e he).built) n

/-- An extension of one of the known kinds, whose predicate or key is made of what it is given. -/
inductive Extension.BuiltIn (P : Value → Prop) : Extension → Prop
  | filter (argument : ArgumentDefinition) {predicate : Expr → Expr → Fresh Expr}
      (made : ∀ element value, MadeOf P [element, value] (predicate element value)) :
      BuiltIn P (.filter argument predicate)
  | sort {key : Expr → Fresh Expr} (made : ∀ element, MadeOf P [element] (key element)) :
      BuiltIn P (.sort key)
  | offsetPaging (defaultSize maxSize : Option Int64) :
      BuiltIn P (.offsetPaging defaultSize maxSize)
  | position (key : String) : BuiltIn P (.position key)

theorem Extension.BuiltIn.known {x : Extension} (h : x.BuiltIn P) : x.Known := by
  cases h with
  | filter argument _ => exact .filter argument _
  | sort _ => exact .sort _
  | offsetPaging defaultSize maxSize => exact .offsetPaging defaultSize maxSize
  | position key => exact .position key

/-- The collection is over the allowed parameters, and the element's context over the element. -/
structure PreSelection.Over (P : Value → Prop) (allowed : Parameter → Prop) (pre : PreSelection) :
    Prop where
  collection : pre.collection.Over P allowed
  context : pre.elementContext.Over P (· = pre.element)

theorem PreSelection.Over.initial {collection : Expr} {element : Parameter}
    (h : collection.Over P A) : PreSelection.Over P A ⟨collection, element, .parameter element⟩ :=
  ⟨h, .parameter (A := (· = element)) rfl⟩

section Hooks

variable {A : Parameter → Prop} {context : HookContext} {extension : Extension}
  {pre pre' : PreSelection} {j j' : Journal}

theorem HookContext.over_argument? (hargs : ∀ p ∈ context.arguments, A p) {name : String}
    {e : Expr} (h : context.argument? name = some e) : e.Over P A := by
  obtain ⟨p, hp, h⟩ := Option.bind_eq_some_iff.1 h
  exact (Over.parameter (hargs p hp)).recordMember? h

theorem PreSelection.Over.contextOf (h : pre.Over P A) (p : Parameter) :
    (Extension.contextOf pre p).Over P (· = p) :=
  (h.context.mono fun _ => .inr).replace (.parameter rfl)

theorem Extension.BuiltIn.over_preSelection (hx : extension.BuiltIn P)
    (hargs : ∀ p ∈ context.arguments, A p) (h : pre.Over P A)
    (hpre : Gives (extension.preSelection context pre) j pre' j') :
    pre'.Over P A := by
  cases hx with
  | filter argument made =>
    rcases filter_gives.1 hpre with ⟨-, rfl, -⟩ | ⟨-, value, p, condition, hvalue, -, rfl, rfl, -⟩
    · exact h
    · refine ⟨h.collection.call fun a ha => ?_, h.context⟩
      have hgiven : ∀ e ∈ [contextOf pre p, value], e.Over P fun q => A q ∨ q = p := by
        simp only [mem_cons, not_mem_nil, or_false, forall_eq_or_imp, forall_eq]
        exact ⟨(h.contextOf p).mono fun _ => .inr,
          (HookContext.over_argument? hargs hvalue).mono fun _ => .inl⟩
      exact mem_singleton.1 ha ▸ .lambda ((made _ _).keeps hgiven _)
  | sort made =>
    rcases sort_gives.1 hpre with ⟨-, rfl, -⟩ | ⟨-, descending, p, key, hdescending, -, rfl, rfl, -⟩
    · exact h
    · refine ⟨h.collection.call ?_, h.context⟩
      simp only [mem_cons, not_mem_nil, or_false, forall_eq_or_imp, forall_eq]
      refine ⟨.lambda ((made _).keeps ?_ _), HookContext.over_argument? hargs hdescending⟩
      exact fun e he => mem_singleton.1 he ▸ (h.contextOf p).mono fun _ => .inr
  | offsetPaging defaultSize maxSize =>
    rcases offsetPaging_gives.1 hpre with ⟨-, rfl, -⟩ | ⟨-, -, skip, take, hskip, htake, rfl, -⟩
    · exact h
    · refine ⟨(h.collection.call fun a ha => ?_).call fun a ha => ?_, h.context⟩
      · exact mem_singleton.1 ha ▸ HookContext.over_argument? hargs hskip
      · exact mem_singleton.1 ha ▸ HookContext.over_argument? hargs htake
  | position key =>
    rcases position_gives.1 hpre with ⟨-, rfl, -⟩ | ⟨-, element, item, -, hitem, rfl, -⟩
    · exact h
    · refine ⟨h.collection.call fun a ha => absurd ha not_mem_nil, ?_⟩
      have hitem : item.Over P (· = element) :=
        Over.recordMember? (.parameter rfl) hitem
      exact (h.context.mono fun _ => .inr).replace hitem

variable {post post' : PostSelection} {extensions : List Extension} {m m' : Memory}

theorem Extension.BuiltIn.over_postSelection (hx : extension.BuiltIn P) (helement : A post.element)
    (h : ∀ f ∈ post.selection.fields, f.2.Over P A)
    (hpost : Gives (extension.postSelection context post) j post' j') :
    (∀ f ∈ post'.selection.fields, f.2.Over P A) ∧ post'.element = post.element := by
  rcases (hx.known.postSelection_gives hpost).2 with rfl | ⟨key, name, e, he, rfl⟩
  · exact ⟨h, rfl⟩
  · refine ⟨fun f hf => ?_, rfl⟩
    rw [SelectionMap.fields_insert] at hf
    rcases Merge.mem_write hf with hf | hf
    · exact h f hf
    · exact hf ▸ (Over.parameter helement).recordMember? he

theorem Compiler.over_runPreSelection (hx : ∀ x ∈ extensions, x.BuiltIn P)
    (hargs : ∀ p ∈ context.arguments, A p) (h : pre.Over P A)
    (hpre : Gives (runPreSelection context extensions pre) m pre' m') : pre'.Over P A :=
  keeps_of_runPreSelection (I := fun pre _ => pre.Over P A)
    (fun x hmem _ _ _ _ hhook h => (hx x hmem).over_preSelection hargs h hhook) hpre h

theorem Compiler.over_runPostSelection (hx : ∀ x ∈ extensions, x.BuiltIn P)
    (helement : A post.element) (h : ∀ f ∈ post.selection.fields, f.2.Over P A)
    (hpost : Gives (runPostSelection context extensions post) m post' m') :
    (∀ f ∈ post'.selection.fields, f.2.Over P A) ∧ post'.element = post.element := by
  refine keeps_of_runPostSelection (I := fun post₁ _ => (∀ f ∈ post₁.selection.fields, f.2.Over P A)
    ∧ post₁.element = post.element) (fun x hmem _ _ _ _ hhook h => ?_) hpost ⟨h, rfl⟩
  obtain ⟨h₁, heq⟩ := (hx x hmem).over_postSelection (h.2 ▸ helement) h.1 hhook
  exact ⟨h₁, heq.trans h.2⟩

end Hooks

end QueryProjection
