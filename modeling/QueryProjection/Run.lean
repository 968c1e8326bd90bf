import QueryProjection.FieldPath
import QueryProjection.Ty
import QueryProjection.Text.Quoted

/-!
# Events and runs

Evaluating an expression gives a value or fails, and on the way it may be observed: a service
method, the producer of a lazy sequence or the hook of an extension can leave a note.  A run keeps
what was observed beside the result.

* `Event` is one observation, `Event.text` its line in a log;
* `Run` is a result with the events that led to it; a run that fails keeps the events before the
  failure.
-/

namespace QueryProjection

/-- Something observed while compiling or evaluating. -/
inductive Event where
  /-- A line left by a service method, a lazy sequence or a hook. -/
  | note (line : String)
  /-- References to an old context were moved to the new one because their type fits. -/
  | matchedByType (path : FieldPath) (ty : Ty) (stale : List String)
deriving DecidableEq

def Event.text : Event → String
  | .note line => line
  | .matchedByType path ty stale =>
    "warn path=" ++ path.text ++ " ty=" ++ ty.text ++ " stale=" ++ Text.quotedList stale

/-- A result, or a failure, with the events that led to it. -/
structure Run (ε α : Type) where
  events : List Event
  result : Except ε α

namespace Run

variable {ε α β : Type}

def fail (e : ε) : Run ε α :=
  ⟨[], .error e⟩

def ofExcept (r : Except ε α) : Run ε α :=
  ⟨[], r⟩

def observeAll (events : List Event) : Run ε Unit :=
  ⟨events, .ok ()⟩

def note (line : String) : Run ε Unit :=
  observeAll [.note line]

def bind (run : Run ε α) (next : α → Run ε β) : Run ε β :=
  match run.result with
  | .error e => ⟨run.events, .error e⟩
  | .ok a =>
    let rest := next a
    ⟨run.events ++ rest.events, rest.result⟩

instance : Monad (Run ε) where
  pure a := ⟨[], .ok a⟩
  bind := bind

def mapError {ε' : Type} (f : ε → ε') (run : Run ε α) : Run ε' α :=
  ⟨run.events, run.result.mapError f⟩

@[simp] theorem result_pure (a : α) : (pure a : Run ε α).result = .ok a := rfl

@[simp] theorem events_pure (a : α) : (pure a : Run ε α).events = [] := rfl

@[simp] theorem result_fail (e : ε) : (fail e : Run ε α).result = .error e := rfl

@[simp] theorem result_bind (run : Run ε α) (next : α → Run ε β) :
    (run >>= next).result = run.result.bind fun a => (next a).result := by
  show (Run.bind run next).result = _
  unfold Run.bind
  cases run.result <;> rfl

end Run
end QueryProjection
