import QueryProjection.Proofs.TwoPass.Service

/-!
# Service fields that can be separated from their context

Over fetched data the chains of members that the resolver of a service field reads of its context
are taken out, and members of the record are put in their place.  That works only if nothing of the
context is left then, and whether that is so depends on the resolver alone: not on the names that
the members have in the record, and not on the record itself.

* `FieldDefinition.Separable` says it of a definition;
* `Resolve.exists_substituteDependencies_iff`: wherever the members are found, the resolver can be
  made to read them exactly if the definition is separable.
-/

namespace QueryProjection

open Expr List
namespace Expr

/-! ## Members of a record, out of sight -/

mutual

/-- The expression with constants of the same type in place of the members of a parameter. -/
def masked (el : Parameter) : Expr → Expr
  | .parameter p => .parameter p
  | .constant site value ty => .constant site value ty
  | .member receiver name ty =>
    if receiver.asParameter? = some el then .constant 0 .null ty
    else .member (masked el receiver) name ty
  | .call method receiver arguments => .call method (masked el receiver) (maskedAll el arguments)
  | .binary op left right => .binary op (masked el left) (masked el right)
  | .serviceCall service method arguments ty =>
    .serviceCall service method (maskedAll el arguments) ty
  | .lambda p body => .lambda p (masked el body)
  | .record shape values => .record shape (maskedAll el values)
  | .projectEach source element body => .projectEach (masked el source) element (masked el body)
  | .projectOne source element body => .projectOne (masked el source) element (masked el body)
  | .materialize inner => .materialize (masked el inner)

/-- The same for several expressions. -/
def maskedAll (el : Parameter) : List Expr → List Expr
  | [] => []
  | e :: es => masked el e :: maskedAll el es

end

section Masked

variable {el p root : Parameter}

theorem maskedAll_eq_map (es : List Expr) : maskedAll el es = es.map (masked el) := by
  induction es with
  | nil => rfl
  | cons e es ih => rw [maskedAll, ih, map_cons]

variable {e : Expr}

theorem eq_parameter_of_asParameter? (h : e.asParameter? = some p) : e = .parameter p := by
  cases e with
  | parameter q => rw [Option.some.inj h]
  | _ => cases h

theorem masked_eq_mapParts (h : ∀ name ty, e ≠ .member (.parameter el) name ty) :
    e.masked el = e.mapParts fun _ part => part.masked el := by
  cases e with
  | member receiver name ty =>
    exact if_neg fun hel => h name ty (by rw [eq_parameter_of_asParameter? hel])
  | _ => simp [masked, mapParts, maskedAll_eq_map]

theorem mem_freeParameters_masked (hp : p ≠ el) (e : Expr) :
    p ∈ (e.masked el).freeParameters ↔ p ∈ e.freeParameters := by
  induction e using induct_parts with
  | parameter => rfl
  | node e he ih =>
    by_cases hel : ∃ name ty, e = .member (.parameter el) name ty
    · obtain ⟨name, ty, rfl⟩ := hel
      simp [masked, asParameter?, hp]
    · rw [masked_eq_mapParts (by simpa using hel), mem_freeParameters_mapParts he,
        mem_freeParameters_parts he]
      exact exists_congr fun part => and_congr_right fun hpart => and_congr_left' (ih part hpart)

theorem masked_of_not_mem (hfree : el ∉ e.freeParameters) (hbinders : el ∉ e.binders) :
    e.masked el = e := by
  induction e using induct_parts with
  | parameter => rfl
  | node e he ih =>
    rw [masked_eq_mapParts]
    · refine mapParts_eq_self fun part hpart => ?_
      obtain ⟨hown, hpart'⟩ := not_mem_of_not_mem_binders hbinders hpart
      exact ih part hpart (fun h => hfree ((mem_freeParameters_parts he).2 ⟨part, hpart, h, hown⟩))
        hpart'
    · rintro name ty rfl
      simp at hfree

/-- What looks like a chain on another parameter is that chain. -/
theorem ReadsOf.eq_of_masked {chain : Expr} (h : chain.ReadsOf root) (he : e.masked el = chain) :
    e = chain := by
  induction h generalizing e with
  | parameter =>
    cases e with
    | parameter q => exact he
    | member receiver name ty =>
      rw [masked] at he
      split at he <;> cases he
    | _ => cases he
  | member _ name ty ih =>
    cases e with
    | member receiver name' ty' =>
      rw [masked] at he
      split at he
      · cases he
      · injection he with hreceiver hname hty
        rw [ih hreceiver, hname, hty]
    | _ => cases he

/-- Taking a chain out does not depend on what is out of sight. -/
theorem masked_substitute {receiver : Expr} (hreads : receiver.ReadsOf root) (hroot : root ≠ el)
    (name spelling : String) (ty ty' : Ty) (e : Expr) :
    (e.substitute (.member receiver name ty) (.member (.parameter el) spelling ty')).masked el
      = (e.masked el).substitute (.member receiver name ty) (.constant 0 .null ty') := by
  have hmasked : (member (.parameter el) spelling ty').masked el = .constant 0 .null ty' := by
    exact if_pos rfl
  unfold substitute
  induction e using induct_all with
  | h e ih =>
    by_cases hmember : ∃ inner name' ty'', e = .member inner name' ty''
    · obtain ⟨inner, name', ty'', rfl⟩ := hmember
      replace ih := ih ([], inner) mem_cons_self
      have hchain : (member receiver name ty).ReadsOf root := .member hreads name ty
      rw [substituteIn]
      by_cases hsame : same (.member inner name' ty'') (.member receiver name ty) = true
      · -- The chain itself is as it was.
        have heq := hchain.eq_of_same hsame
        have hfree : el ∉ (member receiver name ty).freeParameters := fun hmem =>
          hroot (hchain.mem_freeParameters_iff.1 hmem).symm
        have hkept : (member receiver name ty).masked el = .member receiver name ty :=
          masked_of_not_mem hfree (by rw [hchain.binders_eq_nil]; exact not_mem_nil)
        rw [if_pos hsame, hmasked, heq, hkept, substituteIn, if_pos (same_refl _)]
      · rw [if_neg hsame]
        by_cases hel : inner.asParameter? = some el
        · rw [eq_parameter_of_asParameter? hel]
          simp [substituteIn, masked, same, asParameter?]
        · have hinner :
              (substituteIn (.member receiver name ty) (.member (.parameter el) spelling ty')
                inner).asParameter? ≠ some el := by
            intro h
            have hparameter := eq_parameter_of_asParameter? h
            cases inner with
            | parameter q =>
              simp only [substituteIn, same, Bool.false_eq_true, if_false] at hparameter
              rw [hparameter] at hel
              exact hel rfl
            | _ =>
              rw [substituteIn] at hparameter
              split at hparameter <;> cases hparameter
          have hother :
              ¬ same (.member (inner.masked el) name' ty'') (.member receiver name ty) = true := by
            intro hsame'
            refine hsame ?_
            have heq := hchain.eq_of_same hsame'
            injection heq with hreceiver hname hty
            rw [hreads.eq_of_masked hreceiver, hname, hty]
            exact same_refl _
          rw [masked, if_neg hinner, masked, if_neg hel, substituteIn, if_neg hother, ih]
    · -- What is not a member is neither taken out nor put out of sight.
      have hself : e.mapParts (fun _ part => part) = e := mapParts_eq_self fun _ _ => rfl
      have hsame (f : List Parameter → Expr → Expr) :
          ¬ same (e.mapParts f) (.member receiver name ty) = true := by
        cases e <;> simp_all [same, mapParts]
      have hel (f : List Parameter → Expr → Expr) (name : String) (ty : Ty) :
          e.mapParts f ≠ .member (.parameter el) name ty := by
        cases e <;> simp_all [mapParts]
      rw [substituteIn_eq, if_neg (hself ▸ hsame _), masked_eq_mapParts (hel _), mapParts_mapParts,
        masked_eq_mapParts (hself ▸ hel _), substituteIn_eq, if_neg (hsame _), mapParts_mapParts]
      exact mapParts_congr ih

end Masked

/-! ## Where dependencies are found -/

theorem toOption_bind {ε α β : Type} (x : Except ε α) (f : α → Except ε β) :
    (x >>= f).toOption = x.toOption.bind fun a => (f a).toOption := by
  cases x <;> rfl

theorem toOption_collect (tracked : Tracked) (path path' : FieldPath) (e : Expr)
    (bound : List Parameter) (chain : Option (Expr × String)) (found : Dependencies) :
    (collect tracked path bound chain e found).toOption
      = (collect tracked path' bound chain e found).toOption := by
  induction e using induct_parts generalizing bound chain found with
  | parameter q =>
    simp only [collect]
    split
    · cases chain <;> rfl
    · rfl
  | node e he ih =>
    rw [collect_eq_foldlM he, collect_eq_foldlM he]
    generalize e.chainBelow chain = below, e.parts = parts at ih
    induction parts generalizing found with
    | nil => rfl
    | cons part rest ihrest =>
      obtain ⟨hfirst, hrest⟩ := forall_mem_cons.1 ih
      simp only [foldlM_cons, toOption_bind, hfirst, fun found => ihrest found hrest]

theorem ChainOn.exists_member {base whole : Expr} {name : String} (h : ChainOn base name whole)
    {p : Parameter} (hbase : base.ReadsOf p) :
    ∃ receiver last ty, whole = .member receiver last ty ∧ receiver.ReadsOf p := by
  cases h with
  | first ty => exact ⟨base, name, ty, rfl, hbase⟩
  | next h last ty => exact ⟨_, last, ty, rfl, h.readsOf hbase⟩

/-- The expression with constants in place of chains. -/
def sealed (e : Expr) : Dependencies → Expr
  | [] => e
  | d :: rest => (e.substitute d.2.chain (.constant 0 .null d.2.chain.ty)).sealed rest

end Expr

/-! ## Separable definitions -/

variable {chains : Dependencies}

namespace FieldDefinition

variable {definition : FieldDefinition}

/-- The chains of members that the resolver of a field reads of its context, if it does not read the
context as a whole. -/
def chains? (definition : FieldDefinition) : Option Dependencies :=
  (definition.resolve.dependencies (.identity definition.context) .operation).toOption

theorem chains?_eq_some_iff (path : FieldPath) :
    definition.chains? = some chains
      ↔ definition.resolve.dependencies (.identity definition.context) path = .ok chains := by
  have hpath : definition.chains?
      = (definition.resolve.dependencies (.identity definition.context) path).toOption :=
    toOption_collect _ _ _ _ _ _ _
  rw [hpath]
  cases definition.resolve.dependencies (.identity definition.context) path <;>
    simp [Except.toOption]

/-- The resolver of a field reads its context by chains of members, and nothing of the context is
left when they are taken out. -/
def Separable (definition : FieldDefinition) : Prop :=
  ∃ chains, definition.chains? = some chains
    ∧ definition.context ∉ (definition.resolve.sealed chains).freeParameters

end FieldDefinition

namespace Resolve

variable {keys : List (String × String)} {path : FieldPath} {el : Parameter}

theorem exists_substituteChains (path : FieldPath) {root : Parameter} (hroot : root ≠ el)
    (hchains : ∀ d ∈ chains, ChainOn (.parameter root) d.1 d.2.chain)
    (hcarries : Carries el keys chains) (resolver : Expr) :
    ∃ e, substituteChains keys (.parameter el) path chains resolver = .ok e
      ∧ e.masked el = (resolver.masked el).sealed chains := by
  induction chains generalizing resolver with
  | nil => exact ⟨resolver, rfl, rfl⟩
  | cons d rest ih =>
    obtain ⟨hd, hchains⟩ := forall_mem_cons.1 hchains
    obtain ⟨⟨spelling, hmember⟩, hcarries⟩ := forall_mem_cons.1 hcarries
    obtain ⟨e, he, hmasked⟩ := ih hchains hcarries
      (resolver.substitute d.2.chain (.member (.parameter el) spelling d.2.chain.ty))
    refine ⟨e, ?_, ?_⟩
    · rw [substituteChains, hmember]
      exact he
    · obtain ⟨receiver, name, ty, hchain, hreads⟩ := hd.exists_member .parameter
      rw [hmasked, hchain, masked_substitute hreads hroot, sealed, hchain]

/-- **Reading what was fetched.**  Where members are found for the chains of a resolver, it can be
made to read them exactly if it is separable. -/
theorem exists_substituteDependencies_iff {definition : FieldDefinition}
    {services : Provider} {next : Nat} (hd : definition.Regular services next) (hel : next ≤ el.id)
    (hcarries : ∀ chains, definition.chains? = some chains → Carries el keys chains) :
    (∃ resolver, substituteDependencies definition keys (.parameter el) path = .ok resolver)
      ↔ definition.Separable := by
  have hold : ∀ {p : Parameter}, p.id < next → p ≠ el := by
    rintro p hp rfl
    exact absurd hp (Nat.not_lt_of_le hel)
  have hunseen : definition.resolve.masked el = definition.resolve :=
    masked_of_not_mem (fun h => hold (hd.free el h) rfl) fun h => hold (hd.binders el h) rfl
  have hsubstitute : ∀ chains, definition.chains? = some chains → ∃ e,
      substituteChains keys (.parameter el) path chains definition.resolve = .ok e
        ∧ (definition.context ∈ e.freeParameters
            ↔ definition.context ∈ (definition.resolve.sealed chains).freeParameters) := by
    intro chains hchains
    have hok := (FieldDefinition.chains?_eq_some_iff path).1 hchains
    obtain ⟨e, he, hmasked⟩ := exists_substituteChains path (hold hd.context_id)
      (fun d hd => root_of_dependencies hok d hd ▸ chainOn_of_dependencies hok d hd)
      (hcarries chains hchains) definition.resolve
    refine ⟨e, he, ?_⟩
    rw [← mem_freeParameters_masked (hold hd.context_id), hmasked, hunseen]
  constructor
  · rintro ⟨resolver, h⟩
    obtain ⟨chains, hchains, h, hleft⟩ := substituteDependencies_eq_ok h
    have hchains := (FieldDefinition.chains?_eq_some_iff path).2 hchains
    obtain ⟨e, he, hcontext⟩ := hsubstitute chains hchains
    obtain rfl := Except.ok.inj (h.symm.trans he)
    exact ⟨chains, hchains, fun hmem =>
      dependencies_eq_nil_iff.1 hleft (hcontext.2 hmem)⟩
  · rintro ⟨chains, hchains, hseparate⟩
    obtain ⟨e, he, hcontext⟩ := hsubstitute chains hchains
    have hleft : e.dependencies (.identity definition.context) path = .ok [] :=
      dependencies_eq_nil_iff.2 fun hmem => hseparate (hcontext.1 hmem)
    refine ⟨e, ?_⟩
    simp only [substituteDependencies, (FieldDefinition.chains?_eq_some_iff path).1 hchains, he,
      hleft, bind, Except.bind]
    rfl

end Resolve
end QueryProjection
