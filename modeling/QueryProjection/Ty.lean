import QueryProjection.Text.Case

/-!
# Types

The static type of an expression.

* `Ty` is a type; `Shape` lists the fields of a record type in order;
* `Shape.field?` looks up a field without regard to case;
* `Ty.text` writes a type;
* `Ty.decEq` decides equality of types, and `ShapeCache` keeps one copy of each shape.
-/

namespace QueryProjection

inductive Scalar where
  | boolean
  | int
  | float
  | string
  | id
deriving DecidableEq, Repr

def Scalar.text : Scalar → String
  | .boolean => "Boolean"
  | .int => "Int"
  | .float => "Float"
  | .string => "String"
  | .id => "ID"

/-- The static type of an expression. -/
inductive Ty where
  /-- The type of a value that is always null. -/
  | null
  | scalar (s : Scalar)
  /-- An object type of the schema, by its name. -/
  | object (name : String)
  /-- A record with these fields, as projections make them. -/
  | record (fields : List (String × Ty))
  | list (element : Ty)
  /-- A dictionary with values of one type. -/
  | map (element : Ty)
  | function (result : Ty)

instance : Inhabited Ty := ⟨.null⟩

/-- The fields of a record type, in order. -/
abbrev Shape := List (String × Ty)

namespace Ty

abbrev boolean : Ty := .scalar .boolean
abbrev int : Ty := .scalar .int
abbrev float : Ty := .scalar .float
abbrev string : Ty := .scalar .string
abbrev id : Ty := .scalar .id

/-! ## Equality -/

mutual

def beq : Ty → Ty → Bool
  | .null, .null => true
  | .scalar a, .scalar b => a == b
  | .object a, .object b => a == b
  | .record as, .record bs => beqFields as bs
  | .list a, .list b => beq a b
  | .map a, .map b => beq a b
  | .function a, .function b => beq a b
  | _, _ => false

def beqFields : List (String × Ty) → List (String × Ty) → Bool
  | [], [] => true
  | (k, a) :: as, (l, b) :: bs => k == l && beq a b && beqFields as bs
  | _, _ => false

end

mutual

theorem eq_of_beq : ∀ (a b : Ty), beq a b = true → a = b
  | .null, b, h => by cases b <;> simp_all [beq]
  | .scalar s, b, h => by cases b <;> simp_all [beq]
  | .object n, b, h => by cases b <;> simp_all [beq]
  | .record as, b, h => by
    cases b with
    | record bs => rw [eq_of_beqFields as bs (by simpa [beq] using h)]
    | _ => simp [beq] at h
  | .list a, b, h => by
    cases b with
    | list b => rw [eq_of_beq a b (by simpa [beq] using h)]
    | _ => simp [beq] at h
  | .map a, b, h => by
    cases b with
    | map b => rw [eq_of_beq a b (by simpa [beq] using h)]
    | _ => simp [beq] at h
  | .function a, b, h => by
    cases b with
    | function b => rw [eq_of_beq a b (by simpa [beq] using h)]
    | _ => simp [beq] at h

theorem eq_of_beqFields : ∀ (as bs : List (String × Ty)), beqFields as bs = true → as = bs
  | [], bs, h => by cases bs <;> simp_all [beqFields]
  | (k, a) :: as, bs, h => by
    cases bs with
    | nil => simp [beqFields] at h
    | cons e bs =>
      obtain ⟨l, b⟩ := e
      simp only [beqFields, Bool.and_eq_true, beq_iff_eq] at h
      rw [h.1.1, eq_of_beq a b h.1.2, eq_of_beqFields as bs h.2]

end

mutual

theorem beq_refl : ∀ a : Ty, beq a a = true
  | .null => rfl
  | .scalar s => by simp [beq]
  | .object n => by simp [beq]
  | .record as => by simpa [beq] using beqFields_refl as
  | .list a => by simpa [beq] using beq_refl a
  | .map a => by simpa [beq] using beq_refl a
  | .function a => by simpa [beq] using beq_refl a

theorem beqFields_refl : ∀ as : List (String × Ty), beqFields as as = true
  | [] => rfl
  | (k, a) :: as => by simp [beqFields, beq_refl a, beqFields_refl as]

end

theorem beq_iff (a b : Ty) : beq a b = true ↔ a = b :=
  ⟨eq_of_beq a b, fun h => h ▸ beq_refl a⟩

instance decEq : DecidableEq Ty := fun a b =>
  decidable_of_iff (beq a b = true) (beq_iff a b)

/-! ## Parts of a type -/

/-- The type of the elements of a list, or of the values of a map. -/
def element? : Ty → Option Ty
  | .list t => some t
  | .map t => some t
  | _ => none

/-- The element type, and the null type where there are no elements. -/
def elementOrNull (t : Ty) : Ty :=
  t.element?.getD .null

def isMap : Ty → Bool
  | .map _ => true
  | _ => false

def isComposite : Ty → Bool
  | .object _ => true
  | .record _ => true
  | _ => false

def shape? : Ty → Option Shape
  | .record fields => some fields
  | _ => none

def objectName? : Ty → Option String
  | .object name => some name
  | _ => none

/-! ## Text -/

mutual

def text : Ty → String
  | .null => "Null"
  | .scalar s => s.text
  | .object name => name
  | .record fields => "\x7b" ++ ", ".intercalate (fieldTexts fields) ++ "\x7d"
  | .list t => "[" ++ text t ++ "]"
  | .map t => "Map<" ++ text t ++ ">"
  | .function t => "Fn -> " ++ text t

def fieldTexts : List (String × Ty) → List String
  | [] => []
  | (name, t) :: rest => (name ++ ": " ++ text t) :: fieldTexts rest

end

end Ty

namespace Shape

/-- The first field with this name, whatever the case of its letters: its own spelling and its
type. -/
def field? (shape : Shape) (name : String) : Option (String × Ty) :=
  shape.find? fun field => Text.sameIgnoringCase field.1 name

def text (shape : Shape) : String :=
  Ty.text (.record shape)

def indexed (item : Ty) : Shape :=
  [("index", .int), ("item", item)]

end Shape

/-- Shapes that have been seen, in the order of their first appearance. -/
structure ShapeCache where
  shapes : List Shape := []

namespace ShapeCache

/-- Adds a shape that is not there yet, and gives the number of the copy that is kept. -/
def intern (cache : ShapeCache) (shape : Shape) : Nat × ShapeCache :=
  match cache.shapes.findIdx? (· = shape) with
  | some i => (i, cache)
  | none => (cache.shapes.length, ⟨cache.shapes ++ [shape]⟩)

end ShapeCache
end QueryProjection
