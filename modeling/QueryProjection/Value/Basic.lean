import QueryProjection.Assoc
import QueryProjection.Binary64.Shortest
import QueryProjection.EvaluationError
import QueryProjection.Run

/-!
# Values

What an expression evaluates to.  A projection over a list gives a *lazy* value: its elements are
computed when it is iterated, again each time, and not at all if nobody asks for them.  Iterating it
has no lasting effect, so every iteration is the same `Iteration`: what it observes, and the
elements it yields or the failure it ends in.

* `Value` is a value and `Value.kind` the name of its kind;
* `Value.text` writes a value, without iterating it;
* `Value.elements` gives the elements of a list or a lazy sequence;
* `Value.materialize` iterates every lazy sequence inside a value, once.
-/

namespace QueryProjection

mutual

/-- What an expression evaluates to. -/
inductive Value where
  | null
  | boolean (b : Bool)
  | int (i : Int64)
  | float (x : Binary64)
  | string (s : String)
  | list (items : List Value)
  /-- An object; its keys are distinct and keep their order. -/
  | object (members : List (String × Value))
  /-- A sequence that is computed on iteration. -/
  | lazy (iterate : Unit → Iteration)

/-- One iteration of a lazy sequence. -/
inductive Iteration where
  | yields (events : List Event) (items : List Value)
  | fails (events : List Event) (error : EvaluationError)

end

namespace Iteration

def toRun : Iteration → Run EvaluationError (List Value)
  | .yields events items => ⟨events, .ok items⟩
  | .fails events error => ⟨events, .error error⟩

def ofRun : Run EvaluationError (List Value) → Iteration
  | ⟨events, .ok items⟩ => .yields events items
  | ⟨events, .error error⟩ => .fails events error

@[simp] theorem toRun_ofRun (run : Run EvaluationError (List Value)) :
    (ofRun run).toRun = run := by
  obtain ⟨events, result⟩ := run
  cases result <;> rfl

end Iteration

namespace Value

instance : Inhabited Value := ⟨.null⟩

/-- The object that a list of keys and values describes; a repeated key keeps its first place and
its last value. -/
def ofMembers (members : List (String × Value)) : Value :=
  .object (Assoc.ofList members)

/-- The lazy sequence whose iterations run like `run`. -/
def ofRun (run : Unit → Run EvaluationError (List Value)) : Value :=
  .lazy fun _ => .ofRun (run ())

/-! ## Looking at a value -/

def kind : Value → String
  | .null => "Null"
  | .boolean _ => "Boolean"
  | .int _ => "Int"
  | .float _ => "Float"
  | .string _ => "String"
  | .list _ => "List"
  | .object _ => "Object"
  | .lazy _ => "Lazy"

def isNull : Value → Bool
  | .null => true
  | _ => false

def isLazy : Value → Bool
  | .lazy _ => true
  | _ => false

def isTrue : Value → Bool
  | .boolean b => b
  | _ => false

def asBool? : Value → Option Bool
  | .boolean b => some b
  | _ => none

def asInt? : Value → Option Int64
  | .int i => some i
  | _ => none

def asString? : Value → Option String
  | .string s => some s
  | _ => none

def get? (key : String) : Value → Option Value
  | .object members => Assoc.find? key members
  | _ => none

/-- The elements of a list, or of one iteration of a lazy sequence. -/
def elements : Value → Run EvaluationError (List Value)
  | .list items => pure items
  | .lazy iterate => (iterate ()).toRun
  | other => Run.fail (.notAList other.kind)

/-! ## Text -/

/-- Numbers with a fraction keep at least one digit after the point; from `0.0001` up to sixteen
digits before the point there is no exponent. -/
def number : Binary64.Layout :=
  ⟨.up, some (-4, 15), false⟩

mutual

/-- A value as it is written.  A lazy sequence is not iterated for it. -/
def text : Value → String
  | .null => "null"
  | .boolean b => if b then "true" else "false"
  | .int i => i.toInt.repr
  | .float x => number.write x
  | .string s => Text.quoted s
  | .list items => "[" ++ ", ".intercalate (itemTexts items) ++ "]"
  | .object members => "\x7b" ++ ", ".intercalate (memberTexts members) ++ "\x7d"
  | .lazy _ => "<lazy>"

def itemTexts : List Value → List String
  | [] => []
  | item :: rest => text item :: itemTexts rest

def memberTexts : List (String × Value) → List String
  | [] => []
  | (key, value) :: rest => (key ++ ": " ++ text value) :: memberTexts rest

end

/-- A value as a part of a longer text: strings without quotes, and null as nothing. -/
def plainText : Value → String
  | .null => ""
  | .string s => s
  | other => other.text

/-! ## Forcing -/

mutual

/-- The value with every lazy sequence in it iterated once and turned into a list. -/
def materialize : Value → Run EvaluationError Value
  | .list items => do return .list (← materializeItems items)
  | .object members => do return .object (← materializeMembers members)
  | .lazy iterate => materializeIteration (iterate ())
  | other => pure other

def materializeIteration : Iteration → Run EvaluationError Value
  | .yields events items => do
    Run.observeAll events
    return .list (← materializeItems items)
  | .fails events error => ⟨events, .error error⟩

def materializeItems : List Value → Run EvaluationError (List Value)
  | [] => pure []
  | item :: rest => do
    let item ← materialize item
    return item :: (← materializeItems rest)

def materializeMembers : List (String × Value) → Run EvaluationError (List (String × Value))
  | [] => pure []
  | (key, value) :: rest => do
    let value ← materialize value
    return (key, value) :: (← materializeMembers rest)

end

end Value
end QueryProjection
