import QueryProjection.Expr.Basic
import QueryProjection.Services

/-!
# Evaluation

* `Environment` gives values to parameters;
* `Expr.valueOf` is the meaning of an expression.  It is defined by recursion on the expression: a
  method that applies a lambda to many elements is handed the *operand*, that is, the meaning of the
  argument as a function of the element;
* `Method.apply` and `Operator.apply` are the meanings of methods and operators on values.
-/

namespace QueryProjection

abbrev Environment := Parameter → Option Value

namespace Environment

def empty : Environment := fun _ => none

/-- The environment with the value of one parameter changed. -/
def bind (env : Environment) (p : Parameter) (value : Value) : Environment :=
  fun q => if q = p then some value else env q

end Environment

/-- The meaning of an argument: its value, or what it gives for an element that is handed to it. -/
abbrev Operand := Option Value → Run EvaluationError Value

/-! ## Methods and operators -/

namespace Method

/-- The items for which an operand gives `true`. -/
def keepWhere (predicate : Operand) : List Value → Run EvaluationError (List Value)
  | [] => pure []
  | item :: rest => do
    let verdict ← predicate (some item)
    let kept ← keepWhere predicate rest
    return if verdict.isTrue then item :: kept else kept

/-- The items with the keys that an operand gives for them. -/
def withKeys (key : Operand) : List Value → Run EvaluationError (List (Value × Value))
  | [] => pure []
  | item :: rest => do
    let k ← key (some item)
    return (k, item) :: (← withKeys key rest)

def indexedFrom (start : Nat) : List Value → List Value
  | [] => []
  | item :: rest =>
    .object [("index", .int (Int64.ofNat start)), ("item", item)] :: indexedFrom (start + 1) rest

/-- A method on the elements of its receiver. -/
def applyToItems (method : Method) (items : List Value) (operands : List Operand) :
    Run EvaluationError Value :=
  match method with
  | .filter =>
    match operands with
    | predicate :: _ => do return .list (← keepWhere predicate items)
    | [] => Run.fail (.invalidArguments method "a predicate")
  | .orderBy =>
    match operands with
    | key :: direction :: _ => do
      let descending ← direction none
      let keyed ← withKeys key items
      return .list (Value.sortBy descending.isTrue keyed)
    | [_] => Run.fail (.invalidArguments method "a direction")
    | [] => Run.fail (.invalidArguments method "a sort key")
  | .skip =>
    match operands with
    | amount :: _ => do
      match (← amount none).asInt? with
      | some n => return .list (items.drop n.toInt.toNat)
      | none => return .list items
    | [] => Run.fail (.invalidArguments method "a count")
  | .take =>
    match operands with
    | amount :: _ => do
      match (← amount none).asInt? with
      | some n => return .list (items.take n.toInt.toNat)
      | none => return .list items
    | [] => Run.fail (.invalidArguments method "a count")
  | .count => pure (.int (Int64.ofNat items.length))
  | .first => pure (items.head?.getD .null)
  | .enumerate => pure (.list (indexedFrom 0 items))

/-- A method on its receiver; of null every method gives null. -/
def apply (method : Method) (receiver : Value) (operands : List Operand) :
    Run EvaluationError Value :=
  if receiver.isNull then pure .null
  else do
    let items ← receiver.elements
    method.applyToItems items operands

end Method

namespace Operator

/-- Compares two values; null compares with nothing. -/
def compares (accepts : Ordering → Bool) (left right : Value) : Value :=
  .boolean (!left.isNull && !right.isNull && accepts (left.order right))

/-- The result that the left operand alone decides. -/
def shortcut? (op : Operator) (left : Value) : Option Value :=
  match op with
  | .and => if left.isTrue then none else some (.boolean false)
  | .or => if left.isTrue then some (.boolean true) else none
  | .coalesce => if left.isNull then none else some left
  | _ => none

def combine (op : Operator) (left right : Value) : Value :=
  match op with
  | .eq => .boolean (left.same right)
  | .ne => .boolean (!left.same right)
  | .lt => compares Ordering.isLT left right
  | .le => compares Ordering.isLE left right
  | .gt => compares Ordering.isGT left right
  | .ge => compares Ordering.isGE left right
  | .and => .boolean right.isTrue
  | .or => .boolean right.isTrue
  | .concat => .string (left.plainText ++ right.plainText)
  | .coalesce => right

/-- An operator on its operands; the right one is evaluated only if it matters. -/
def apply (op : Operator) (left right : Operand) : Run EvaluationError Value := do
  let l ← left none
  match op.shortcut? l with
  | some result => return result
  | none => return op.combine l (← right none)

end Operator

/-! ## Expressions -/

namespace Expr

/-- The member of a value: of null it is null, and an object without the member has null for it. -/
def readMember (name : String) : Value → Run EvaluationError Value
  | .null => pure .null
  | .object members => pure ((Assoc.find? name members).getD .null)
  | other => Run.fail (.invalidMember name other.kind)

def readAll : List Operand → Run EvaluationError (List Value)
  | [] => pure []
  | operand :: rest => do
    let value ← operand none
    return value :: (← readAll rest)

/-- The fields of a record with the values of the operands, as far as there are both. -/
def readFields : Shape → List Operand → Run EvaluationError (List (String × Value))
  | (name, _) :: fields, operand :: operands => do
    let value ← operand none
    return (name, value) :: (← readFields fields operands)
  | _, _ => pure []

def mapItems (body : Value → Run EvaluationError Value) :
    List Value → Run EvaluationError (List Value)
  | [] => pure []
  | item :: rest => do
    let value ← body item
    return value :: (← mapItems body rest)

def mapMembers (body : Value → Run EvaluationError Value) :
    List (String × Value) → Run EvaluationError (List (String × Value))
  | [] => pure []
  | (key, item) :: rest => do
    let value ← body item
    return (key, value) :: (← mapMembers body rest)

/-- A projection of the elements of a value: null stays null, an object is projected member by
member, and everything else becomes a lazy sequence, which fails on iteration if the value has no
elements. -/
def projectValue (source : Value) (body : Value → Run EvaluationError Value) :
    Run EvaluationError Value :=
  match source with
  | .null => pure .null
  | .object members => do return .object (← mapMembers body members)
  | source => pure (.ofRun fun _ => do mapItems body (← source.elements))

mutual

/-- The meaning of an expression.  Only a lambda looks at the value it is handed; any other
expression has a value of its own. -/
def operand (services : Provider) (env : Environment) : Expr → Operand
  | .parameter p => fun _ =>
    match env p with
    | some value => pure value
    | none => Run.fail (.unboundParameter p.name)
  | .constant _ value _ => fun _ => pure value
  | .member receiver name _ => fun _ => do
    let value ← operand services env receiver none
    readMember name value
  | .call method receiver arguments => fun _ => do
    let value ← operand services env receiver none
    method.apply value (operands services env arguments)
  | .binary op left right => fun _ =>
    op.apply (operand services env left) (operand services env right)
  | .serviceCall service method arguments _ => fun _ => do
    let values ← readAll (operands services env arguments)
    services.call service method values
  | .lambda p body => fun handed =>
    match handed with
    | some value => operand services (env.bind p value) body none
    | none => Run.fail .unexpectedLambda
  | .record shape values => fun _ => do
    return .ofMembers (← readFields shape (operands services env values))
  | .projectEach source element body => fun _ => do
    let value ← operand services env source none
    projectValue value fun item => operand services (env.bind element item) body none
  | .projectOne source element body => fun _ => do
    let value ← operand services env source none
    if value.isNull then return .null
    else operand services (env.bind element value) body none
  | .materialize inner => fun _ => do
    let value ← operand services env inner none
    if value.isLazy then return .list (← value.elements) else return value

def operands (services : Provider) (env : Environment) : List Expr → List Operand
  | [] => []
  | e :: es => operand services env e :: operands services env es

end

def valueOf (services : Provider) (env : Environment) (e : Expr) : Run EvaluationError Value :=
  e.operand services env none

end Expr
end QueryProjection
