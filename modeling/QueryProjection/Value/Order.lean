import QueryProjection.Value.Basic

/-!
# Order and equality of values

* `Value.order` is the order that sorting uses.  Booleans, integers and strings are compared within
  their kind, other numbers by their bit patterns as floating point numbers, and everything else by
  kind alone.
* `Value.same` is the equality that expressions can test.  Numbers are compared as numbers, objects
  without regard to the order of their members, and a lazy sequence equals nothing.
* `Value.sortBy` sorts by keys and keeps the order of elements with equal keys.
-/

namespace QueryProjection
namespace Value

/-- A number as a floating point number; an integer is rounded. -/
def asFloat? : Value → Option Binary64
  | .int i => some (.ofInt i.toInt)
  | .float x => some x
  | _ => none

/-- The place of a value's kind in the order of values. -/
def rank : Value → Nat
  | .null => 0
  | .boolean _ => 1
  | .int _ => 2
  | .float _ => 2
  | .string _ => 3
  | .list _ => 4
  | .lazy _ => 4
  | .object _ => 5

/-- The order that sorting uses. -/
def order (a b : Value) : Ordering :=
  match a, b with
  | .boolean x, .boolean y => compare x.toNat y.toNat
  | .int x, .int y => compare x.toInt y.toInt
  | .string x, .string y => compare x y
  | _, _ =>
    match a.asFloat?, b.asFloat? with
    | some x, some y => x.totalCompare y
    | _, _ => compare a.rank b.rank

/-- Numeric equality; values that are no numbers are not equal by it. -/
def sameNumber (a b : Value) : Bool :=
  match a.asFloat?, b.asFloat? with
  | some x, some y => x.sameNumber y
  | _, _ => false

mutual

/-- The equality that expressions can test. -/
def same : Value → Value → Bool
  | .null, .null => true
  | .boolean x, .boolean y => x == y
  | .int x, .int y => x == y
  | .string x, .string y => x == y
  | .list xs, .list ys => sameItems xs ys
  | .object ms, .object ns => ms.length == ns.length && sameMembers ms ns
  | a, b => a.sameNumber b

def sameItems : List Value → List Value → Bool
  | [], [] => true
  | x :: xs, y :: ys => same x y && sameItems xs ys
  | _, _ => false

/-- Whether each member has an equal one of the same key among the others. -/
def sameMembers : List (String × Value) → List (String × Value) → Bool
  | [], _ => true
  | (key, x) :: rest, others =>
    (match Assoc.find? key others with
      | some y => same x y
      | none => false)
    && sameMembers rest others

end

/-! ## Sorting -/

/-- Puts an element into a list that is sorted from the back: behind those that come strictly after
it. -/
def insertBefore {α : Type} (before : α → α → Bool) (x : α) : List α → List α
  | [] => [x]
  | y :: ys => if before x y then y :: insertBefore before x ys else x :: y :: ys

/-- Sorts by inserting one element after the other.  Elements neither of which comes before the
other keep their order. -/
def insertionSort {α : Type} (before : α → α → Bool) (items : List α) : List α :=
  (items.foldl (fun sorted x => insertBefore before x sorted) []).reverse

/-- Whether key `a` comes strictly before key `b` in the given direction. -/
def precedes (descending : Bool) (a b : Value) : Bool :=
  order a b == (if descending then .gt else .lt)

def sortBy (descending : Bool) (keyed : List (Value × Value)) : List Value :=
  (insertionSort (fun a b => precedes descending a.1 b.1) keyed).map Prod.snd

end Value
end QueryProjection
