import QueryProjection.Value.Basic

/-!
# Services

An expression can call the methods of services.  Whatever answers such calls is a `Provider`: it is
asked for a method by the name of the service and its own, and is free to fail in any way an
evaluation can fail, since the evaluator passes its error on as it is.

The provider that comes with the library is a registry of methods, `Services`.  A method is
registered under the name of a service and of a method and found again by the two names joined, so
it answers every pair of names that join to the same text.  A registry fails in two ways only: it
does not know the method, or the method failed.
-/

namespace QueryProjection

/-- Answers service calls, given the names of the service and of the method and the arguments. -/
structure Provider where
  call : String → String → List Value → Run EvaluationError Value

/-- A service method: given its arguments it returns a value or fails with a message, and may leave
notes. -/
abbrev ServiceMethod := List Value → Run String Value

/-- The registered service methods, by their joined names. -/
structure Services where
  methods : List (String × ServiceMethod) := []

namespace Services

def key (service method : String) : String :=
  service ++ "::" ++ method

/-- Registers a method, in place of one that was registered under the same name. -/
def register (services : Services) (service method : String) (run : ServiceMethod) : Services :=
  ⟨Assoc.insert (key service method) run services.methods⟩

def call (services : Services) (service method : String) (arguments : List Value) :
    Run EvaluationError Value :=
  match Assoc.find? (key service method) services.methods with
  | none => Run.fail (.unknownService service method)
  | some run => (run arguments).mapError (.serviceFailed service method)

def provider (services : Services) : Provider :=
  ⟨services.call⟩

end Services

def Provider.empty : Provider :=
  Services.provider {}

end QueryProjection
