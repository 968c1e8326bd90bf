import QueryProjection.Proofs.Compile.Comparison
import QueryProjection.Proofs.Compile.Supply
import QueryProjection.Proofs.Expansion

/-!
# Which errors a compilation reports

Compiling a field looks at the selection sets in its expanded tree, and an error about a cycle of
fragments comes from one of them: nothing else that can go wrong is of that kind.  Whatever goes
wrong is reported at the field or below it.

* `Compiler.failsWith_compileRoot`: what holds of every error of another kind that is reported at
  the field or below it, and of the failures in the tree, holds of the error that compiling the tree
  ends with;
* `Compiler.fragment_cycles_genuine`: expanding an operation and compiling its fields ends, and the
  cycles that are reported on the way are cycles of spreads.

## Why the errors are looked for in the tree

The selection set below a field is expanded only when it is compiled, and an expansion that fails is
part of the tree until then.  So most cycles are reported by the compiler, in one pass or the other,
and some never are, because another error ends the compilation before.  The statement is therefore
about every failure in the tree, reached or not.  The fragments around each selection set are kept,
and none of them is entered inside itself: so they are all different, there are no more of them than
the document has, and the bound on the nesting of spreads is never met (`Expansion.expands_iff`).
-/

namespace QueryProjection

variable {F : CompileError → Prop} {m : Memory}

/-! ## Errors of another kind -/

variable {path : FieldPath} {e : CompileError} {root : RootField} {name : String}
  {cycle : List String}

namespace Compile

variable {α : Type}

theorem failsWith_ofFresh (x : Fresh α) : FailsWith F (ofFresh x) m := by
  rw [FailsWith, outcome_ofFresh]
  exact fun _ h => nomatch h

theorem failsWith_ofRun {run : Run CompileError α} (h : ∀ e, run.result = .error e → F e) :
    FailsWith F (ofRun run) m := by
  rw [FailsWith, outcome_ofRun]
  exact h

theorem failsWith_ofHook {extension : String} {hook : Hook α}
    (h : ∀ message, F (.extensionFailed path extension message)) :
    FailsWith F (ofHook path extension hook) m := by
  rw [FailsWith, outcome_ofHook]
  intro e he
  cases hr : (outcome hook m.toJournal).1 with
  | ok a =>
    rw [hr] at he
    cases he
  | error message =>
    rw [hr] at he
    cases he
    exact h message

end Compile

/-! ## Compilations -/

section Kinds

variable {above : FieldPath}
  (hF : ∀ e : CompileError, above.Below e.path → e.kind ≠ .circularFragment → F e)

/-- That what is compiled at or below the path fails with such errors only. -/
def Compile.failing : Compile.Comparison where
  Rel x _ := ∀ m, FailsWith F x m
  At := above.Below
  at_child key h := h.child key
  rel_pure a m := failsWith_pure a m
  rel_bind hx hf m := (hx m).bind fun a m' h => hf m a m' h m'
  rel_throw hpath he m := failsWith_throw (hF _ (he.path ▸ hpath) he.kind) m
  rel_ofFresh x _ := failsWith_ofFresh x
  rel_getFetched _ hf _ := FailsWith.bind (fun _ h => nomatch h) fun _ m' _ => hf _ m'
  rel_rememberFetched _ _ _ _ _ h := nomatch h

include hF

theorem Compiler.failsWith_compileRoot {compiler : Compiler} {schema : Schema} {mode : Mode}
    {source : RootSource}
    (hroot : ∀ x : Expanded, x.Within root.field → ∀ error, x.selection = .failed error →
      ∀ path, above.Below path → F (error.at path)) (hpath : above.Below (.root root.responseKey)) :
    FailsWith F (compiler.compileRoot schema root mode source) m := by
  refine Compile.Comparison.rel_compileRoot (R := Compile.failing hF)
    (A := fun e _ scope => above.Below scope.path ∧ ∀ x : Expanded, x.Within e → ∀ error,
      x.selection = .failed error → ∀ path, above.Below path → F (error.at path)) rfl ?_ schema
    (fun _ _ hscope _ _ => ⟨hscope ▸ hpath, hroot⟩) mode source m
  rintro e context scope ⟨hpath, he⟩
  have hhook : ∀ {α : Type} {path : FieldPath} {hook : Hook α} (extension : String) (m : Memory),
      above.Below path → FailsWith F (Compile.ofHook path extension hook) m :=
    fun _ _ h => Compile.failsWith_ofHook fun _ => hF _ h (by simp [CompileError.kind])
  refine ⟨hpath, fun _ x _ => ⟨fun _ _ h m => hhook x.name m h,
    fun _ _ h m => hhook x.name m h⟩, rfl, fun _ _ _ m => ?_,
      fun h m => failsWith_throw (he e .here _ h _ hpath) m, ?_⟩
  · refine Compile.failsWith_ofRun fun e he => ?_
    obtain rfl := Expr.error_of_rebase he
    exact hF _ hpath (by simp [CompileError.kind])
  · exact fun hs f hf _ _ h => ⟨(h.path ▸ hpath).child _, fun x hx => he x (.under hs hf hx)⟩

end Kinds

/-! ## Cycles -/

theorem ExpansionError.circularFragment_at {error : ExpansionError} {place : FieldPath}
    (h : error.at place = .circularFragment path name cycle) :
    error.cause = .circularFragment name cycle := by
  obtain ⟨key, cause⟩ := error
  cases cause with
  | circularFragment =>
    cases h
    rfl
  | _ => cases h

namespace Compiler

variable {document : Document} {supplied : Variables} {schema : Schema} {settings : Settings}

/-- Expanding an operation, or compiling one of its fields in some mode from some source, ends with
the report of this cycle of fragments. -/
def ReportsCycle (document : Document) (supplied : Variables) (schema : Schema)
    (settings : Settings) (name : String) (cycle : List String) : Prop :=
  let expansion := Expansion.ofDocument document supplied
  let compiler : Compiler := ⟨expansion.values, settings⟩
  (∃ path, rootFields expansion document = .error (.circularFragment path name cycle))
    ∨ ∃ roots root mode source memory path,
      rootFields expansion document = .ok roots ∧ root ∈ roots
        ∧ (outcome (compiler.compileRoot schema root mode source) memory).1
          = .error (.circularFragment path name cycle)

theorem reports_expandAll :
    Expansion.Reports document
      ((Expansion.ofDocument document supplied).expandAll [] document.selections) :=
  (Expansion.expands_iff.2 rfl).reports List.nodup_nil fun name _ => List.isChain_singleton name

theorem sound_of_rootFields {roots : List RootField}
    (hroots : rootFields (.ofDocument document supplied) document = .ok roots)
    (hroot : root ∈ roots) {x : Expanded} (hx : x.Within root.field) : x.Sound document := by
  obtain ⟨fields, hfields, hmerge⟩ := rootFields_eq_ok hroots
  have hreports := @reports_expandAll document supplied
  rw [hfields] at hreports
  exact hreports _ (mem_of_merge hmerge hroot) x hx

theorem isCycle_of_reportsCycle (h : ReportsCycle document supplied schema settings name cycle) :
    document.IsCycle name cycle := by
  rcases h with ⟨path, h⟩ | ⟨roots, root, mode, source, memory, path, hroots, hroot, h⟩
  · have hreports := @reports_expandAll document supplied
    unfold rootFields at h
    split at h
    · rename_i error herror
      rw [herror] at hreports
      exact hreports name cycle (ExpansionError.circularFragment_at (Except.error.inj h))
    · cases h
  · refine failsWith_compileRoot (F := fun e => ∀ path name cycle,
      e = .circularFragment path name cycle → document.IsCycle name cycle) ?_ ?_
      (.refl (.root root.responseKey)) _ h path name cycle rfl
    · rintro e - he path name cycle rfl
      exact absurd rfl he
    · intro x hx error herror place _ path name cycle h
      exact (sound_of_rootFields hroots hroot hx).genuine error herror name cycle
        (ExpansionError.circularFragment_at h)

/-- Expanding an operation ends, in the selection sets below its fields too: the bound on the
nesting of spreads never shows.  The fragments that are being expanded around a field are all
different, and a cycle of fragments is reported only if there is one. -/
theorem fragment_cycles_genuine (document : Document) (supplied : Variables) (schema : Schema)
    (settings : Settings) :
    (∀ result, (Expansion.ofDocument document supplied).Expands .direct []
      document.selections result
      ↔ (Expansion.ofDocument document supplied).expandAll [] document.selections = result)
    ∧ (∀ roots, rootFields (.ofDocument document supplied) document = .ok roots →
        ∀ root ∈ roots, ∀ x : Expanded, x.Within root.field → x.fragments.Nodup)
    ∧ (∀ name cycle, ReportsCycle document supplied schema settings name cycle →
        document.IsCycle name cycle)
    ∧ (document.Acyclic →
        ∀ name cycle, ¬ ReportsCycle document supplied schema settings name cycle) := by
  refine ⟨fun result => Expansion.expands_iff, ?_, ?_, ?_⟩
  · exact fun roots hroots root hroot x hx => (sound_of_rootFields hroots hroot hx).distinct
  · exact fun name cycle h => isCycle_of_reportsCycle h
  · exact fun hacyclic name cycle h => hacyclic name (isCycle_of_reportsCycle h).transGen

end Compiler
end QueryProjection
