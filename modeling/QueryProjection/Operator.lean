/-!
# Methods and operators

The methods that an expression can call on a sequence, and the operators between two expressions,
with their spelling.
-/

namespace QueryProjection

/-- A method of a sequence. -/
inductive Method where
  | filter
  | orderBy
  | skip
  | take
  | count
  | first
  | enumerate
deriving DecidableEq, Repr

def Method.text : Method → String
  | .filter => "filter"
  | .orderBy => "order_by"
  | .skip => "skip"
  | .take => "take"
  | .count => "count"
  | .first => "first"
  | .enumerate => "enumerate"

inductive Operator where
  | eq
  | ne
  | lt
  | le
  | gt
  | ge
  | and
  | or
  | concat
  /-- The left operand, or the right one if the left one is null. -/
  | coalesce
deriving DecidableEq, Repr

def Operator.text : Operator → String
  | .eq => "=="
  | .ne => "!="
  | .lt => "<"
  | .le => "<="
  | .gt => ">"
  | .ge => ">="
  | .and => "&&"
  | .or => "||"
  | .concat => "++"
  | .coalesce => "??"

end QueryProjection
