import QueryProjection.Parameter
import QueryProjection.Value.Order

/-!
# Expressions

The language that selections are compiled to.  An expression reads members of its parameters, calls
methods on sequences and methods of services, and projects values into records.

* `Expr` is an expression and `Expr.ty` its static type;
* `Expr.same` compares two expressions;
* `Expr.recordMember?` reads a member of a record by its name, ignoring case.

A constant carries the number of the place it was written at.  A value need not be equal to itself
(no NaN is, and no lazy sequence), but a constant is the same expression as itself because of its
place: see `Expr.same_refl`.
-/

namespace QueryProjection

inductive Expr where
  | parameter (p : Parameter)
  /-- A value, with the number of the place it was written at and its type. -/
  | constant (site : Nat) (value : Value) (ty : Ty)
  | member (receiver : Expr) (name : String) (ty : Ty)
  | call (method : Method) (receiver : Expr) (arguments : List Expr)
  | binary (op : Operator) (left right : Expr)
  | serviceCall (service method : String) (arguments : List Expr) (ty : Ty)
  /-- A function, to be handed to a method. -/
  | lambda (p : Parameter) (body : Expr)
  | record (shape : Shape) (values : List Expr)
  /-- The body for every element of the source, as a lazy sequence. -/
  | projectEach (source : Expr) (element : Parameter) (body : Expr)
  /-- The body for the source itself, or null if the source is null. -/
  | projectOne (source : Expr) (element : Parameter) (body : Expr)
  /-- Turns a lazy sequence into a list. -/
  | materialize (inner : Expr)

namespace Expr

instance : Inhabited Expr := ⟨.constant 0 .null .null⟩

/-- A constant, written at a place of its own. -/
def ofValue (value : Value) (ty : Ty) : Fresh Expr := do
  return .constant (← Fresh.next) value ty

def callTy (method : Method) (receiver : Ty) : Ty :=
  match method with
  | .filter | .orderBy | .skip | .take => receiver
  | .count => .int
  | .first => receiver.elementOrNull
  | .enumerate => .list (.record (Shape.indexed receiver.elementOrNull))

def binaryTy (op : Operator) (left : Ty) : Ty :=
  match op with
  | .concat => .string
  | .coalesce => left
  | _ => .boolean

def ty : Expr → Ty
  | .parameter p => p.ty
  | .constant _ _ ty => ty
  | .member _ _ ty => ty
  | .call method receiver _ => callTy method receiver.ty
  | .binary op left _ => binaryTy op left.ty
  | .serviceCall _ _ _ ty => ty
  | .lambda _ body => .function body.ty
  | .record shape _ => .record shape
  | .projectEach source _ body => if source.ty.isMap then .map body.ty else .list body.ty
  | .projectOne _ _ body => body.ty
  | .materialize inner => inner.ty

def asParameter? : Expr → Option Parameter
  | .parameter p => some p
  | _ => none

/-- The member of a record-typed expression with this name, in the record's own spelling. -/
def recordMember? (e : Expr) (name : String) : Option Expr := do
  let shape ← e.ty.shape?
  let (name, ty) ← Shape.field? shape name
  return .member e name ty

/-! ## Equality -/

mutual

/-- Whether two expressions are the same up to the equality of values in their constants. -/
def same : Expr → Expr → Bool
  | .parameter p, .parameter q => p == q
  | .constant i v t, .constant j w u => i == j || (v.same w && t == u)
  | .member r n t, .member r' n' t' => same r r' && n == n' && t == t'
  | .call m r as, .call m' r' as' => m == m' && same r r' && sameAll as as'
  | .binary o l r, .binary o' l' r' => o == o' && same l l' && same r r'
  | .serviceCall s m as t, .serviceCall s' m' as' t' =>
    s == s' && m == m' && sameAll as as' && t == t'
  | .lambda p b, .lambda p' b' => p == p' && same b b'
  | .record s vs, .record s' vs' => Ty.record s == Ty.record s' && sameAll vs vs'
  | .projectEach s p b, .projectEach s' p' b' => same s s' && p == p' && same b b'
  | .projectOne s p b, .projectOne s' p' b' => same s s' && p == p' && same b b'
  | .materialize e, .materialize e' => same e e'
  | _, _ => false

def sameAll : List Expr → List Expr → Bool
  | [], [] => true
  | a :: as, b :: bs => same a b && sameAll as bs
  | _, _ => false

end

mutual

theorem same_refl : ∀ e : Expr, same e e = true
  | .parameter p => by simp [same]
  | .constant i v t => by simp [same]
  | .member r n t => by simp [same, same_refl r]
  | .call m r as => by simp [same, same_refl r, sameAll_refl as]
  | .binary o l r => by simp [same, same_refl l, same_refl r]
  | .serviceCall s m as t => by simp [same, sameAll_refl as]
  | .lambda p b => by simp [same, same_refl b]
  | .record s vs => by simp [same, sameAll_refl vs]
  | .projectEach s p b => by simp [same, same_refl s, same_refl b]
  | .projectOne s p b => by simp [same, same_refl s, same_refl b]
  | .materialize e => by simp [same, same_refl e]

theorem sameAll_refl : ∀ es : List Expr, sameAll es es = true
  | [] => rfl
  | e :: es => by simp [sameAll, same_refl e, sameAll_refl es]

end

end Expr
end QueryProjection
