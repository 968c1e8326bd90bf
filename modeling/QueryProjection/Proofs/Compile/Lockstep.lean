import QueryProjection.Proofs.Compile.Outcome

/-!
# Two compilations in lockstep

The data pass and the full pass compile the same field, each from a memory of its own.  Where no
service is needed they go through the same steps: they draw the same parameters, run the same hooks
and look at the same arguments.  `Compile.Lockstep keys U R x m y n` compares two such compilations.
They both give results that `R` relates, or both fail with the same error; or the first fails alone,
with an error of which `U` holds.

## Why this relation

* Both memories number the next parameter alike (`Memory.Supplies`).  More cannot be asked: the two
  compilations note different events, and only what they draw finds its way into the results.
* The first compilation leaves the keys of fetched members as they were.  It could only change them
  for a field that needs a service, and that it does not is what lets the full pass start over from
  its memory as if the data pass had not been.
* The memories are arguments and not quantified, so that `U` can speak of what happens from them.
  It stays the same along a whole compilation: `Lockstep.bind` hands it on to the second step
  together with the memory that the first one leaves.
-/

namespace QueryProjection

/-- The memories would number the next parameter alike, and the first has these keys of fetched
members. -/
structure Memory.Supplies (keys : FetchedKeys) (m n : Memory) : Prop where
  next : m.next = n.next
  fetched : m.fetched = keys

namespace Compile

variable {α β γ δ : Type}

/-- The two compilations end alike from these memories, unless the first fails with an error of
which `U` holds. -/
def Lockstep (keys : FetchedKeys) (U : CompileError → Prop) (R : α → β → Prop) (x : Compile α)
    (m : Memory) (y : Compile β) (n : Memory) : Prop :=
  (∃ e, (outcome x m).1 = .error e ∧ (U e ∨ (outcome y n).1 = .error e))
    ∨ ∃ a b m' n', Gives x m a m' ∧ Gives y n b n' ∧ R a b ∧ Memory.Supplies keys m' n'

variable {keys : FetchedKeys} {U : CompileError → Prop} {R : α → β → Prop} {S : γ → δ → Prop}
  {x : Compile α} {y : Compile β} {f : α → Compile γ} {g : β → Compile δ} {m n : Memory}

theorem lockstep_throw (e : CompileError) :
    Lockstep keys U R (throw e : Compile α) m (throw e : Compile β) n :=
  .inl ⟨e, rfl, .inr rfl⟩

theorem Lockstep.bind (hx : Lockstep keys U R x m y n)
    (hf : ∀ a m' b n', Gives x m a m' → Gives y n b n' → R a b → Memory.Supplies keys m' n' →
      Lockstep keys U S (f a) m' (g b) n') :
    Lockstep keys U S (x >>= f) m (y >>= g) n := by
  rcases hx with ⟨e, hex, he⟩ | ⟨a, b, m', n', ha, hb, hR, hmn⟩
  · exact .inl ⟨e, outcome_bind_error hex, he.imp_right outcome_bind_error⟩
  · unfold Lockstep Gives
    rw [outcome_bind_gives ha, outcome_bind_gives hb]
    exact hf a m' b n' ha hb hR hmn

section Supplies

variable (h : Memory.Supplies keys m n)

include h

theorem lockstep_pure {a : α} {b : β} (hR : R a b) :
    Lockstep keys U R (pure a : Compile α) m (pure b : Compile β) n :=
  .inr ⟨a, b, m, n, rfl, rfl, hR, h⟩

theorem lockstep_ofExcept {r : Except CompileError α} {r' : Except CompileError β}
    (hr : (∃ e, r = .error e ∧ (U e ∨ r' = .error e)) ∨ ∃ a b, r = .ok a ∧ r' = .ok b ∧ R a b) :
    Lockstep keys U R (ofExcept r) m (ofExcept r') n := by
  rcases hr with ⟨e, rfl, hU | rfl⟩ | ⟨a, b, rfl, rfl, hR⟩
  · exact .inl ⟨e, rfl, .inl hU⟩
  · exact lockstep_throw e
  · exact lockstep_pure h hR

theorem lockstep_ofExcept_self (r : Except CompileError α) :
    Lockstep keys U Eq (ofExcept r) m (ofExcept r) n := by
  cases r with
  | ok a => exact lockstep_pure h rfl
  | error e => exact lockstep_throw e

theorem lockstep_ofRun {run : Run CompileError α} {run' : Run CompileError β}
    (hrun : (∃ e, run.result = .error e ∧ run'.result = .error e)
      ∨ ∃ a b, run.result = .ok a ∧ run'.result = .ok b ∧ R a b) :
    Lockstep keys U R (ofRun run) m (ofRun run') n := by
  unfold Lockstep Gives
  rw [outcome_ofRun, outcome_ofRun]
  rcases hrun with ⟨e, he, he'⟩ | ⟨a, b, ha, hb, hR⟩
  · exact .inl ⟨e, he, .inr he'⟩
  · rw [ha, hb]
    exact .inr ⟨a, b, _, _, rfl, rfl, hR, h.next, h.fetched⟩

theorem lockstep_ofFresh (x : Fresh α) : Lockstep keys U Eq (ofFresh x) m (ofFresh x) n := by
  refine .inr ⟨_, _, _, _, outcome_ofFresh x m, outcome_ofFresh x n, ?_, ?_, h.fetched⟩
  · rw [h.next]
  · dsimp only
    rw [h.next]

end Supplies

end Compile
end QueryProjection
