import QueryProjection.Operator

/-!
# Evaluation errors

Why an expression has no value, and the message for it.
-/

namespace QueryProjection

/-- Why an expression has no value. -/
inductive EvaluationError where
  /-- The environment has no value for the parameter of this name. -/
  | unboundParameter (name : String)
  /-- A member was read of a value that has none, of the kind `found`. -/
  | invalidMember (member found : String)
  /-- Elements were asked of a value that has none, of the kind `found`. -/
  | notAList (found : String)
  /-- A method was called without an argument it needs. -/
  | invalidArguments (method : Method) (expected : String)
  | unexpectedLambda
  | unknownService (service method : String)
  | serviceFailed (service method message : String)
deriving DecidableEq, Repr

def EvaluationError.message : EvaluationError → String
  | .unboundParameter name => "Parameter '" ++ name ++ "' is not bound"
  | .invalidMember member found => "Cannot read member '" ++ member ++ "' of a " ++ found
  | .notAList found => "Expected a list, found a " ++ found
  | .invalidArguments method expected => method.text ++ " expects " ++ expected
  | .unexpectedLambda => "A lambda can only be passed to a method"
  | .unknownService service method =>
    "No service method " ++ service ++ "::" ++ method ++ " is registered"
  | .serviceFailed service method message =>
    "Service method " ++ service ++ "::" ++ method ++ " failed: " ++ message

end QueryProjection
