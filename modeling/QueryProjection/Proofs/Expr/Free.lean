import QueryProjection.Proofs.Assoc
import QueryProjection.Proofs.Expr.Parts

/-!
# Free parameters and replacement

`Expr.freeParameters` walks an expression with the list of parameters bound around it.  Nothing in
the theory wants to see that list, so the first thing here is to get rid of it:
`mem_freeOccurrences` says that a parameter is mentioned free below some binders exactly if it is
free and not one of them, and after that there is one equation for each kind of expression.

* `mem_freeParameters_parts`: what is free in an expression is free in one of its parts;
* `mem_freeParameters_replace` bounds the free parameters of a replacement,
  `mem_freeParameters_substitute` those of a substitution and `mem_freeParameters_rebase` those of
  an expression that is moved to another context;
* `Expr.ChainOn` is a chain of members, and `chainOn_of_dependencies` says that chains are what
  `Expr.dependencies` finds.
-/

namespace QueryProjection

open List

namespace Expr

/-! ## Free parameters -/

variable {bound scope : List Parameter} {p old q : Parameter}
  {e target replacement moved new whole : Expr} {name : String} {picks : Parameter → Bool}
  {policy : TypeMatching} {path : FieldPath}

theorem mem_freeOccurrencesAll {es : List Expr} :
    p ∈ freeOccurrencesAll bound es ↔ ∃ e ∈ es, p ∈ e.freeOccurrences bound := by
  rw [freeOccurrencesAll_eq_flatMap, mem_flatMap]

theorem mem_freeOccurrences (e : Expr) (bound : List Parameter) :
    p ∈ e.freeOccurrences bound ↔ p ∈ e.freeOccurrences [] ∧ p ∉ bound := by
  induction e using induct_parts generalizing bound with
  | parameter q =>
    by_cases hq : q ∈ bound
    · simp only [freeOccurrences, hq, if_true, not_mem_nil, if_false, mem_singleton,
        false_iff, not_and, not_not]
      rintro rfl
      exact hq
    · simp only [freeOccurrences, hq, not_mem_nil, if_false, mem_singleton]
      exact ⟨fun h => ⟨h, h ▸ hq⟩, fun h => h.1⟩
  | node e he ih =>
    have hpart (part : List Parameter × Expr) (h : part ∈ e.parts) (bound : List Parameter) :
        p ∈ part.2.freeOccurrences (part.1 ++ bound)
          ↔ p ∈ part.2.freeOccurrences (part.1 ++ []) ∧ p ∉ bound := by
      rw [ih part h (part.1 ++ bound), ih part h (part.1 ++ []), mem_append, append_nil,
        not_or, and_assoc]
    simp only [freeOccurrences_eq_flatMap he, mem_flatMap]
    constructor
    · rintro ⟨part, h, hp⟩
      exact ⟨⟨part, h, ((hpart part h bound).1 hp).1⟩, ((hpart part h bound).1 hp).2⟩
    · rintro ⟨⟨part, h, hp⟩, hb⟩
      exact ⟨part, h, (hpart part h bound).2 ⟨hp, hb⟩⟩

theorem mem_freeParameters : p ∈ e.freeParameters ↔ p ∈ e.freeOccurrences [] := by
  simp [freeParameters]

section FreeParameters

variable {p : Parameter} {e receiver body source : Expr} {q element : Parameter} {ty : Ty}
  {arguments : List Expr}

theorem mem_freeParameters_parts (he : e.asParameter? = none) :
    p ∈ e.freeParameters ↔ ∃ part ∈ e.parts, p ∈ part.2.freeParameters ∧ p ∉ part.1 := by
  simp only [mem_freeParameters, freeOccurrences_eq_flatMap he, mem_flatMap, append_nil]
  exact exists_congr fun part => and_congr_right fun _ => mem_freeOccurrences _ _

theorem mem_freeParameters_mapParts (he : e.asParameter? = none)
    {f : List Parameter → Expr → Expr} :
    p ∈ (e.mapParts f).freeParameters
      ↔ ∃ part ∈ e.parts, p ∈ (f part.1 part.2).freeParameters ∧ p ∉ part.1 := by
  rw [mem_freeParameters_parts (asParameter?_mapParts.trans he), parts_mapParts]
  simp only [mem_map, exists_exists_and_eq_and]

@[simp] theorem mem_freeParameters_parameter : p ∈ (Expr.parameter q).freeParameters ↔ p = q :=
  mem_freeParameters.trans mem_singleton

@[simp] theorem mem_freeParameters_constant {site : Nat} {value : Value} :
    p ∈ (Expr.constant site value ty).freeParameters ↔ False :=
  (mem_freeParameters_parts rfl).trans (by simp [parts])

@[simp] theorem mem_freeParameters_member :
    p ∈ (Expr.member receiver name ty).freeParameters ↔ p ∈ receiver.freeParameters :=
  (mem_freeParameters_parts rfl).trans (by simp [parts])

@[simp] theorem mem_freeParameters_call {method : Method} :
    p ∈ (Expr.call method receiver arguments).freeParameters
      ↔ p ∈ receiver.freeParameters ∨ ∃ a ∈ arguments, p ∈ a.freeParameters :=
  (mem_freeParameters_parts rfl).trans (by simp [parts])

@[simp] theorem mem_freeParameters_binary {op : Operator} {left right : Expr} :
    p ∈ (Expr.binary op left right).freeParameters
      ↔ p ∈ left.freeParameters ∨ p ∈ right.freeParameters :=
  (mem_freeParameters_parts rfl).trans (by simp [parts])

@[simp] theorem mem_freeParameters_serviceCall {service method : String} :
    p ∈ (Expr.serviceCall service method arguments ty).freeParameters
      ↔ ∃ a ∈ arguments, p ∈ a.freeParameters :=
  (mem_freeParameters_parts rfl).trans (by simp [parts])

@[simp] theorem mem_freeParameters_lambda :
    p ∈ (Expr.lambda q body).freeParameters ↔ p ∈ body.freeParameters ∧ p ≠ q :=
  (mem_freeParameters_parts rfl).trans (by simp [parts])

@[simp] theorem mem_freeParameters_record {shape : Shape} {values : List Expr} :
    p ∈ (Expr.record shape values).freeParameters ↔ ∃ a ∈ values, p ∈ a.freeParameters :=
  (mem_freeParameters_parts rfl).trans (by simp [parts])

@[simp] theorem mem_freeParameters_projectEach :
    p ∈ (Expr.projectEach source element body).freeParameters
      ↔ p ∈ source.freeParameters ∨ p ∈ body.freeParameters ∧ p ≠ element :=
  (mem_freeParameters_parts rfl).trans (by simp [parts])

@[simp] theorem mem_freeParameters_projectOne :
    p ∈ (Expr.projectOne source element body).freeParameters
      ↔ p ∈ source.freeParameters ∨ p ∈ body.freeParameters ∧ p ≠ element :=
  (mem_freeParameters_parts rfl).trans (by simp [parts])

@[simp] theorem mem_freeParameters_materialize {inner : Expr} :
    p ∈ (Expr.materialize inner).freeParameters ↔ p ∈ inner.freeParameters :=
  (mem_freeParameters_parts rfl).trans (by simp [parts])

end FreeParameters

/-! ## Replacing -/

@[simp] theorem replace_parameter (p : Parameter) (target : Expr) :
    (Expr.parameter p).replace (.identity p) target = target := by
  rw [replace, replaceUnder, if_pos ⟨not_mem_nil, by simp [Replacement.picks]⟩]

theorem mem_freeParameters_replaceUnder (e : Expr)
    (h : p ∈ (replaceUnder picks target bound e).freeParameters) :
    (p ∈ e.freeParameters ∧ (p ∈ bound ∨ picks p = false)) ∨ p ∈ target.freeParameters := by
  induction e using induct_parts generalizing bound with
  | parameter q =>
    rw [replaceUnder] at h
    split at h
    · exact .inr h
    · rename_i hq
      rw [mem_freeParameters_parameter] at h
      subst h
      refine .inl ⟨mem_freeParameters_parameter.2 rfl, ?_⟩
      by_cases hb : p ∈ bound
      · exact .inl hb
      · exact .inr (by simpa [hb] using hq)
  | node e he ih =>
    rw [replaceUnder_eq_mapParts he, mem_freeParameters_mapParts he] at h
    obtain ⟨part, hpart, h, hb⟩ := h
    exact (ih part hpart h).imp_left fun h =>
      ⟨(mem_freeParameters_parts he).2 ⟨part, hpart, h.1, hb⟩,
        h.2.imp_left fun hmem => (mem_append.1 hmem).resolve_left hb⟩

theorem mem_freeParameters_replace (h : p ∈ (e.replace (.identity old) target).freeParameters) :
    (p ∈ e.freeParameters ∧ p ≠ old) ∨ p ∈ target.freeParameters := by
  refine (mem_freeParameters_replaceUnder e h).imp_left fun h => ⟨h.1, fun heq => ?_⟩
  subst heq
  simp [Replacement.picks] at h

theorem ty_replaceUnder (hty : target.ty = old.ty) (e : Expr) (bound : List Parameter) :
    (replaceUnder (Replacement.identity old).picks target bound e).ty = e.ty := by
  induction e using induct_parts generalizing bound with
  | parameter p =>
    rw [replaceUnder]
    split
    · rename_i hp
      obtain rfl : old = p := by simpa [Replacement.picks] using hp.2
      exact hty
    · rfl
  | node e he ih =>
    rw [replaceUnder_eq_mapParts he]
    exact ty_mapParts fun part hpart => ih part hpart _

theorem mem_freeParameters_replaceUnder_of_not_picks (hp : picks p = false) (e : Expr)
    (h : p ∈ e.freeParameters) : p ∈ (replaceUnder picks target bound e).freeParameters := by
  induction e using induct_parts generalizing bound with
  | parameter q =>
    obtain rfl := mem_freeParameters_parameter.1 h
    rw [replaceUnder, if_neg (by simp [hp])]
    exact h
  | node e he ih =>
    rw [replaceUnder_eq_mapParts he, mem_freeParameters_mapParts he]
    obtain ⟨part, hpart, h, hb⟩ := (mem_freeParameters_parts he).1 h
    exact ⟨part, hpart, ih part hpart h, hb⟩

theorem mem_freeParameters_replace_of_ne (h : p ∈ e.freeParameters) (hne : p ≠ old)
    (target : Expr) : p ∈ (e.replace (.identity old) target).freeParameters :=
  mem_freeParameters_replaceUnder_of_not_picks (by simpa [Replacement.picks] using Ne.symm hne) e h

theorem mem_freeParameters_substitute (e : Expr)
    (h : p ∈ (e.substitute target replacement).freeParameters) :
    p ∈ e.freeParameters ∨ p ∈ replacement.freeParameters := by
  unfold substitute at h
  induction e using induct_parts with
  | parameter q =>
    rw [substituteIn] at h
    split at h
    · exact .inr h
    · exact .inl h
  | node e he ih =>
    rw [substituteIn_eq] at h
    split at h
    · exact .inr h
    · rw [mem_freeParameters_mapParts he] at h
      obtain ⟨part, hpart, h, hb⟩ := h
      exact (ih part hpart h).imp_left fun hp => (mem_freeParameters_parts he).2
        ⟨part, hpart, hp, hb⟩

theorem mem_freeParameters_substitute_of_mem (hsame : ∀ e, same e target = true → e = target)
    (hp : p ∈ target.freeParameters → p ∈ replacement.freeParameters) (e : Expr)
    (h : p ∈ e.freeParameters) : p ∈ (e.substitute target replacement).freeParameters := by
  have hat : ∀ {x : Expr}, same x target = true → p ∈ x.freeParameters →
      p ∈ replacement.freeParameters :=
    fun hx h => hp (hsame _ hx ▸ h)
  unfold substitute
  induction e using induct_parts with
  | parameter q =>
    rw [substituteIn]
    split
    · exact hat ‹_› h
    · exact h
  | node e he ih =>
    rw [substituteIn_eq]
    split
    · exact hat ‹_› h
    · obtain ⟨part, hpart, h, hb⟩ := (mem_freeParameters_parts he).1 h
      exact (mem_freeParameters_mapParts he).2 ⟨part, hpart, ih part hpart h, hb⟩

theorem rebase_eq_ok (h : (e.rebase policy old new scope path).result = .ok moved) :
    moved = e.replace (.identity old) new
      ∨ moved = (e.replace (.identity old) new).replace (.typeMatch old.ty scope) new := by
  unfold rebase at h
  dsimp only at h
  split at h
  · cases h
    exact .inl rfl
  · cases policy <;> cases h <;> exact .inr rfl

theorem mem_freeParameters_rebase (h : (e.rebase policy old new scope path).result = .ok moved)
    (hp : p ∈ moved.freeParameters) :
    (p ∈ e.freeParameters ∧ p ≠ old) ∨ p ∈ new.freeParameters := by
  rcases rebase_eq_ok h with rfl | rfl
  · exact mem_freeParameters_replace hp
  · rcases mem_freeParameters_replaceUnder _ hp with ⟨hp, -⟩ | hp
    · exact mem_freeParameters_replace hp
    · exact .inr hp

/-! ## Chains -/

/-- `whole` is a chain of members on `e`, the innermost of which is called `name`. -/
inductive ChainOn (e : Expr) (name : String) : Expr → Prop
  | first (ty : Ty) : ChainOn e name (.member e name ty)
  | next {whole : Expr} (h : ChainOn e name whole) (name' : String) (ty : Ty) :
      ChainOn e name (.member whole name' ty)

theorem ChainOn.mem_freeParameters_iff (h : ChainOn e name whole) :
    p ∈ whole.freeParameters ↔ p ∈ e.freeParameters := by
  induction h with
  | first ty => exact mem_freeParameters_member
  | next _ _ _ ih => exact mem_freeParameters_member.trans ih

/-- The expression is a parameter or a chain of its members. -/
inductive ReadsOf (p : Parameter) : Expr → Prop
  | parameter : ReadsOf p (.parameter p)
  | member {receiver : Expr} (h : ReadsOf p receiver) (name : String) (ty : Ty) :
      ReadsOf p (.member receiver name ty)

theorem ReadsOf.mem_freeParameters_iff (h : e.ReadsOf p) : q ∈ e.freeParameters ↔ q = p := by
  induction h with
  | parameter => exact mem_freeParameters_parameter
  | member _ _ _ ih => exact mem_freeParameters_member.trans ih

theorem ReadsOf.recordMember? {m : Expr} (h : e.ReadsOf p) (hm : e.recordMember? name = some m) :
    m.ReadsOf p := by
  obtain ⟨shape, -, hm⟩ := Option.bind_eq_some_iff.1 hm
  obtain ⟨field, -, hm⟩ := Option.bind_eq_some_iff.1 hm
  cases hm
  exact .member h _ _

theorem ReadsOf.replace (h : e.ReadsOf p) (ht : target.ReadsOf q) :
    (e.replace (.identity p) target).ReadsOf q := by
  induction h with
  | parameter => rwa [replace_parameter]
  | member _ name ty ih => exact .member ih name ty

theorem ChainOn.readsOf (h : ChainOn e name whole) (he : e.ReadsOf p) : whole.ReadsOf p := by
  induction h with
  | first ty => exact .member he name ty
  | next _ name' ty ih => exact .member ih name' ty

theorem ChainOn.receiver {receiver : Expr} {name' : String} {ty : Ty}
    (h : ChainOn (.member receiver name ty) name' whole) : ChainOn receiver name whole := by
  induction h with
  | first ty' => exact .next (.first ty) name' ty'
  | next _ _ _ ih => exact .next ih _ _

end Expr

theorem bind_eq_ok_iff {ε α β : Type} {x : Except ε α} {f : α → Except ε β} {b : β} :
    (x >>= f) = .ok b ↔ ∃ a, x = .ok a ∧ f a = .ok b := by
  cases x <;> simp [bind, Except.bind]

namespace Expr

variable {e : Expr} {chain : Option (Expr × String)} {found : Dependencies}

theorem chainOn_none : ∀ c ∈ (none : Option (Expr × String)), ChainOn e c.2 c.1 :=
  fun c hc => absurd hc (Option.not_mem_none c)

theorem chainOn_chainBelow (hchain : ∀ c ∈ chain, ChainOn e c.2 c.1) {part : List Parameter × Expr}
    (hpart : part ∈ e.parts) : ∀ c ∈ e.chainBelow chain, ChainOn part.2 c.2 c.1 := by
  cases e with
  | member receiver name ty =>
    obtain rfl := mem_singleton.1 hpart
    rintro c ⟨⟩
    rcases chain with _ | ⟨whole, name'⟩
    · exact .first ty
    · exact (hchain _ rfl).receiver
  | _ => exact chainOn_none

section Collect

variable {tracked : Tracked} {path : FieldPath} {I : Dependencies → Prop}
  (insert : ∀ bound p name whole found, tracked.tracks bound p = true →
    ChainOn (.parameter p) name whole → I found → I (Assoc.insert name ⟨p, whole⟩ found))

include insert

/-- What holds before collecting and is kept when a chain on a tracked parameter is added holds
afterwards.  Inside a chain, the whole of it has to be a chain on the expression. -/
theorem collect_induct (e : Expr) {bound : List Parameter} {found' : Dependencies}
    (hchain : ∀ c ∈ chain, ChainOn e c.2 c.1) (hfound : I found)
    (h : collect tracked path bound chain e found = .ok found') : I found' := by
  induction e using induct_parts generalizing bound chain found found' with
  | parameter p =>
    simp only [collect] at h
    split at h
    · rename_i ht
      rcases chain with _ | ⟨whole, name⟩
      · cases h
      · cases h
        exact insert bound p name whole found ht (hchain _ rfl) hfound
    · cases h
      exact hfound
  | node e he ih =>
    rw [collect_eq_foldlM he] at h
    have hbelow (part : List Parameter × Expr) (hpart : part ∈ e.parts) :=
      chainOn_chainBelow hchain hpart
    generalize e.chainBelow chain = below, e.parts = parts at h ih hbelow
    induction parts generalizing found with
    | nil =>
      cases h
      exact hfound
    | cons part rest ihrest =>
      obtain ⟨hfirst, hrest⟩ := forall_mem_cons.1 ih
      obtain ⟨hbfirst, hbrest⟩ := forall_mem_cons.1 hbelow
      rw [foldlM_cons] at h
      obtain ⟨mid, hmid, h⟩ := bind_eq_ok_iff.1 h
      exact ihrest (hfirst hbfirst hfound hmid) h hrest hbrest

end Collect

theorem chainOn_of_dependencies {tracked : Tracked} {path : FieldPath}
    (h : e.dependencies tracked path = .ok found) :
    ∀ d ∈ found, ChainOn (.parameter d.2.root) d.1 d.2.chain := by
  refine collect_induct (I := fun found => ∀ d ∈ found, ChainOn (.parameter d.2.root) d.1 d.2.chain)
    ?_ e chainOn_none (forall_mem_nil _) h
  intro bound p name whole found _ hwhole hfound d hd
  rcases Assoc.mem_insert hd with hd | rfl
  · exact hfound d hd
  · exact hwhole

end Expr
end QueryProjection
