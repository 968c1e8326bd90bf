import QueryProjection.Binary64.Shortest
import QueryProjection.Text.Quoted

/-!
# JSON documents

A JSON document whose objects keep their members in order, and its compact text.

* `Json` is the document, `Json.text` its text;
* `Json.number` is the layout of numbers with a fraction: decimal notation from `0.00001` up to
  sixteen digits before the point, otherwise an exponent with its sign.
-/

namespace QueryProjection

/-- A JSON document.  An object keeps its members in the order of their first appearance. -/
inductive Json where
  | null
  | bool (b : Bool)
  | int (i : Int)
  | float (x : Binary64)
  | string (s : String)
  | array (items : List Json)
  | object (members : List (String × Json))

namespace Json

instance : Inhabited Json := ⟨.null⟩

/-- Numbers with a fraction keep at least one digit after the point. -/
def number : Binary64.Layout :=
  ⟨.even, some (-5, 15), true⟩

/-- The text of a number; those that are not finite have none and become `null`. -/
def floatText (x : Binary64) : String :=
  if x.isFinite then number.write x else "null"

def escape (c : Char) : String :=
  if c == '"' then "\\\""
  else if c == '\\' then "\\\\"
  else if c == '\n' then "\\n"
  else if c == '\r' then "\\r"
  else if c == '\t' then "\\t"
  else if c == '\x08' then "\\b"
  else if c == '\x0c' then "\\f"
  else if c.toNat < 0x20 then
    "\\u00" ++ (if c.toNat < 0x10 then "0" else "") ++ Text.hex c.toNat
  else String.singleton c

def quoted (s : String) : String :=
  "\"" ++ String.join (s.toList.map escape) ++ "\""

mutual

def text : Json → String
  | .null => "null"
  | .bool b => if b then "true" else "false"
  | .int i => i.repr
  | .float x => floatText x
  | .string s => quoted s
  | .array items => "[" ++ ",".intercalate (itemTexts items) ++ "]"
  | .object members => "\x7b" ++ ",".intercalate (memberTexts members) ++ "\x7d"

def itemTexts : List Json → List String
  | [] => []
  | item :: rest => text item :: itemTexts rest

def memberTexts : List (String × Json) → List String
  | [] => []
  | (key, value) :: rest => (quoted key ++ ":" ++ text value) :: memberTexts rest

end

end Json
end QueryProjection
