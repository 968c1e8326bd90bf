import QueryProjection.Proofs.Expr.Free
import QueryProjection.Proofs.Merge

/-!
# Expressions that mention the same parameters

When an expression is moved to another context, what happens depends on the parameters that are free
in it.  The data pass and the full pass compile a field to expressions that differ, because the data
pass adds members of the elements of a list to their records, but they mention the same parameters
and go on to do so when they are moved: they are `Expr.Alike`.

* `Expr.rewritten` replaces parameters several times, and `Expr.Alike` compares what is free then;
* `Expr.ReadsOf` is a chain of members of one parameter, of which nothing is free where that is
  bound;
* `Expr.alike_projectEach` allows such chains to differ in the projection of elements.
-/

namespace QueryProjection

open List Merge

variable {p : Parameter} {bound : List Parameter}

namespace Expr

/-! ## Repeated replacement -/

/-- A replacement of the parameters that are picked, below some binders. -/
structure Rewrite where
  picks : Parameter → Bool
  target : Expr
  bound : List Parameter

/-- The replacement below one more binder. -/
def Rewrite.under (element : Parameter) (rewrite : Rewrite) : Rewrite :=
  { rewrite with bound := element :: rewrite.bound }

/-- Replaces parameters several times. -/
def rewritten (rewrites : List Rewrite) (e : Expr) : Expr :=
  rewrites.foldl (fun e rewrite => replaceUnder rewrite.picks rewrite.target rewrite.bound e) e

/-- Whatever is replaced, the same parameters are free in both expressions. -/
def Alike (e e' : Expr) : Prop :=
  ∀ rewrites bound p, p ∈ (rewritten rewrites e).freeOccurrences bound
    ↔ p ∈ (rewritten rewrites e').freeOccurrences bound

variable {e e' : Expr}

theorem Alike.refl (e : Expr) : e.Alike e :=
  fun _ _ _ => Iff.rfl

theorem Alike.symm (h : e.Alike e') : e'.Alike e :=
  fun rewrites bound p => (h rewrites bound p).symm

theorem Alike.replace (h : e.Alike e') (replacement : Replacement) (target : Expr) :
    (e.replace replacement target).Alike (e'.replace replacement target) :=
  fun rewrites => h (⟨replacement.picks, target, []⟩ :: rewrites)

theorem Alike.mem_freeParameters (h : e.Alike e') :
    p ∈ e.freeParameters ↔ p ∈ e'.freeParameters := by
  rw [Expr.mem_freeParameters, Expr.mem_freeParameters]
  exact h [] [] p

theorem Alike.staleParameters_eq_nil (h : e.Alike e') (ty : Ty) (scope : List Parameter) :
    e.staleParameters ty scope = [] ↔ e'.staleParameters ty scope = [] := by
  simp only [staleParameters, filter_eq_nil_iff, h.mem_freeParameters]

theorem Alike.rebase (h : e.Alike e') (policy : TypeMatching) (old : Parameter) (new : Expr)
    (scope : List Parameter) (path : FieldPath) :
    (∃ error, (e.rebase policy old new scope path).result = .error error
        ∧ (e'.rebase policy old new scope path).result = .error error)
      ∨ ∃ moved moved', (e.rebase policy old new scope path).result = .ok moved
        ∧ (e'.rebase policy old new scope path).result = .ok moved' ∧ moved.Alike moved' := by
  have hmoved := h.replace (.identity old) new
  have hstale := hmoved.staleParameters_eq_nil old.ty scope
  unfold Expr.rebase
  dsimp only
  cases hs : (e.replace (.identity old) new).staleParameters old.ty scope with
  | nil =>
    rw [hstale.1 hs]
    exact .inr ⟨_, _, rfl, rfl, hmoved⟩
  | cons p stale =>
    cases hs' : (e'.replace (.identity old) new).staleParameters old.ty scope with
    | nil => exact absurd (hstale.2 hs') (by rw [hs]; exact cons_ne_nil _ _)
    | cons p' stale' =>
      cases policy with
      | deny => exact .inl ⟨_, rfl, rfl⟩
      | warn => exact .inr ⟨_, _, rfl, rfl, hmoved.replace _ _⟩
      | allow => exact .inr ⟨_, _, rfl, rfl, hmoved.replace _ _⟩

/-! ## Projections -/

theorem rewritten_projectOne (rewrites : List Rewrite) (source : Expr) (element : Parameter)
    (body : Expr) :
    rewritten rewrites (.projectOne source element body)
      = .projectOne (rewritten rewrites source) element
          (rewritten (rewrites.map (Rewrite.under element)) body) := by
  induction rewrites generalizing source body with
  | nil => rfl
  | cons rewrite rest ih => exact ih _ _

theorem rewritten_projectEach (rewrites : List Rewrite) (source : Expr) (element : Parameter)
    (body : Expr) :
    rewritten rewrites (.projectEach source element body)
      = .projectEach (rewritten rewrites source) element
          (rewritten (rewrites.map (Rewrite.under element)) body) := by
  induction rewrites generalizing source body with
  | nil => rfl
  | cons rewrite rest ih => exact ih _ _

theorem rewritten_materialize (rewrites : List Rewrite) (inner : Expr) :
    rewritten rewrites (.materialize inner) = .materialize (rewritten rewrites inner) := by
  induction rewrites generalizing inner with
  | nil => rfl
  | cons rewrite rest ih => exact ih _

theorem rewritten_record (rewrites : List Rewrite) (shape : Shape) (values : List Expr) :
    rewritten rewrites (.record shape values)
      = .record shape (values.map (rewritten rewrites)) := by
  induction rewrites generalizing values with
  | nil => exact congrArg (Expr.record shape) (map_id values).symm
  | cons rewrite rest ih =>
    refine (ih _).trans ?_
    rw [replaceUnderAll_eq_map, map_map]
    rfl

theorem Alike.materialize_left (h : e.Alike e') : (Expr.materialize e).Alike e' := by
  intro rewrites bound p
  rw [rewritten_materialize, freeOccurrences]
  exact h rewrites bound p

namespace ReadsOf

variable {p : Parameter} {bound : List Parameter} {q : Parameter}

theorem replaceUnder_eq {picks : Parameter → Bool} {target : Expr} (h : e.ReadsOf p)
    (hp : p ∈ bound) : replaceUnder picks target bound e = e := by
  induction h with
  | parameter => rw [replaceUnder, if_neg fun hr => hr.1 hp]
  | member _ name ty ih => rw [replaceUnder, ih]

theorem not_mem_freeOccurrences (h : e.ReadsOf p) (hp : p ∈ bound) :
    q ∉ e.freeOccurrences bound := by
  induction h with
  | parameter =>
    rw [freeOccurrences, if_pos hp]
    exact not_mem_nil
  | member _ name ty ih => exact ih

theorem not_mem_rewritten (h : e.ReadsOf p) (hp : p ∈ bound) (rewrites : List Rewrite) :
    q ∉ (rewritten (rewrites.map (Rewrite.under p)) e).freeOccurrences bound := by
  have heq : rewritten (rewrites.map (Rewrite.under p)) e = e := by
    induction rewrites with
    | nil => rfl
    | cons rewrite rest ih =>
      rw [map_cons, rewritten, foldl_cons, Rewrite.under, h.replaceUnder_eq mem_cons_self]
      exact ih
  rw [heq]
  exact h.not_mem_freeOccurrences hp

end ReadsOf

end Expr

/-! ## Records of elements -/

/-- Fields with the same keys, and expressions that are alike. -/
def SameFields : List (String × Expr) → List (String × Expr) → Prop :=
  Forall₂ fun f d => f.1 = d.1 ∧ f.2.Alike d.2

variable {rewrites : List Expr.Rewrite}

namespace SameFields

variable {fs ds : List (String × Expr)} {key : String} {e e' : Expr}

theorem symm (h : SameFields fs ds) : SameFields ds fs := by
  induction h with
  | nil => exact .nil
  | cons hfd _ ih => exact .cons ⟨hfd.1.symm, hfd.2.symm⟩ ih

theorem write (h : SameFields fs ds) (key : String) (he : e.Alike e') :
    SameFields (Merge.write key e fs) (Merge.write key e' ds) :=
  Merge.forall₂_write h key he

theorem keys (h : SameFields fs ds) : fs.map Prod.fst = ds.map Prod.fst := by
  induction h with
  | nil => rfl
  | cons hfd _ ih => rw [map_cons, map_cons, hfd.1, ih]

theorem isEmpty (h : SameFields fs ds) : fs.isEmpty = ds.isEmpty := by
  cases h <;> rfl

theorem free (h : SameFields fs ds)
    (hp : ∃ f ∈ fs, p ∈ (f.2.rewritten rewrites).freeOccurrences bound) :
    ∃ d ∈ ds, p ∈ (d.2.rewritten rewrites).freeOccurrences bound := by
  induction h with
  | nil => exact hp
  | cons hfd _ ih =>
    obtain ⟨f, hf, hp⟩ := hp
    rcases mem_cons.1 hf with rfl | hf
    · exact ⟨_, mem_cons_self, (hfd.2 _ _ p).1 hp⟩
    · obtain ⟨d, hd, hp⟩ := ih ⟨f, hf, hp⟩
      exact ⟨d, mem_cons_of_mem _ hd, hp⟩

end SameFields

/-- The same fields, up to chains of members of the element behind them. -/
def Padded (element : Parameter) (fs ds : List (String × Expr)) : Prop :=
  ∃ own extra own' extra', fs = own ++ extra ∧ ds = own' ++ extra' ∧ SameFields own own'
    ∧ (∀ f ∈ extra, f.2.ReadsOf element) ∧ ∀ f ∈ extra', f.2.ReadsOf element

namespace Padded

variable {element : Parameter} {fs ds : List (String × Expr)}

theorem symm (h : Padded element fs ds) : Padded element ds fs :=
  let ⟨own, extra, own', extra', hfs, hds, hsame, hextra, hextra'⟩ := h
  ⟨own', extra', own, extra, hds, hfs, hsame.symm, hextra', hextra⟩

theorem free (h : Padded element fs ds) (hbound : element ∈ bound) (hp : ∃ f ∈ fs,
      p ∈ (f.2.rewritten (rewrites.map (Expr.Rewrite.under element))).freeOccurrences bound) :
    ∃ d ∈ ds,
      p ∈ (d.2.rewritten (rewrites.map (Expr.Rewrite.under element))).freeOccurrences bound := by
  obtain ⟨own, extra, own', extra', rfl, rfl, hsame, hextra, -⟩ := h
  obtain ⟨f, hf, hp⟩ := hp
  rcases mem_append.1 hf with hf | hf
  · obtain ⟨d, hd, hp⟩ := hsame.free ⟨f, hf, hp⟩
    exact ⟨d, mem_append_left _ hd, hp⟩
  · exact absurd hp ((hextra f hf).not_mem_rewritten hbound rewrites)

/-- A chain of members of the element is written over the same field of both, or else behind the
fields that are the same. -/
theorem write (h : Padded element fs ds) (key : String) {e : Expr} (he : e.ReadsOf element) :
    Padded element (write key e fs) (write key e ds) := by
  obtain ⟨own, extra, own', extra', rfl, rfl, hsame, hextra, hextra'⟩ := h
  by_cases hkey : (own.map Prod.fst).any fun k => Text.sameIgnoringCase k key
  · refine ⟨write key e own, extra, write key e own', extra', ?_, ?_,
      hsame.write key (.refl e), hextra, hextra'⟩
    · exact write_append_of_any hkey
    · exact write_append_of_any (hsame.keys ▸ hkey)
  · refine ⟨own, write key e extra, own', write key e extra', ?_, ?_, hsame, ?_, ?_⟩
    · exact write_append_of_not_any hkey
    · exact write_append_of_not_any (hsame.keys ▸ hkey)
    · exact fun f hf => (mem_write hf).elim (hextra f) fun hf => hf ▸ he
    · exact fun f hf => (mem_write hf).elim (hextra' f) fun hf => hf ▸ he

end Padded

namespace Expr

variable {source source' : Expr} {element : Parameter} {fields fields' : SelectionMap}

theorem mem_rewritten_toRecord {rewrites : List Rewrite} :
    p ∈ (fields.toRecord.rewritten rewrites).freeOccurrences bound
      ↔ ∃ f ∈ fields.fields, p ∈ (f.2.rewritten rewrites).freeOccurrences bound := by
  rw [SelectionMap.toRecord, rewritten_record, freeOccurrences, mem_freeOccurrencesAll]
  simp

theorem alike_projectOne (h : SameFields fields.fields fields'.fields) :
    (Expr.projectOne source element fields.toRecord).Alike
      (Expr.projectOne source element fields'.toRecord) := by
  intro rewrites bound p
  rw [rewritten_projectOne, rewritten_projectOne, freeOccurrences, freeOccurrences, mem_append,
    mem_append, mem_rewritten_toRecord, mem_rewritten_toRecord]
  exact or_congr Iff.rfl ⟨h.free, h.symm.free⟩

/-- Projections of elements are alike also if some of the fields are chains of members of the
element. -/
theorem alike_projectEach (h : Padded element fields.fields fields'.fields) :
    (Expr.projectEach source element fields.toRecord).Alike
      (Expr.projectEach source element fields'.toRecord) := by
  intro rewrites bound p
  rw [rewritten_projectEach, rewritten_projectEach, freeOccurrences, freeOccurrences,
    mem_append, mem_append, mem_rewritten_toRecord, mem_rewritten_toRecord]
  exact or_congr Iff.rfl ⟨h.free mem_cons_self, h.symm.free mem_cons_self⟩

end Expr
end QueryProjection
