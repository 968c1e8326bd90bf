import QueryProjection.Text.Unprintable

/-!
# Quoted text

How a string is written inside the text of a value: between double quotes, with the characters
that would be lost or misread written as escapes.

* `Text.Quoted.escape` writes one character;
* `Text.quoted` writes a whole string, and `Text.quotedList` a list of them.
-/

namespace QueryProjection
namespace Text

/-- Lower case hexadecimal digits, without padding. -/
def hex (n : Nat) : String :=
  String.ofList (Nat.toDigits 16 n)

namespace Quoted

/-- One character inside the quotes.  An apostrophe needs no escape. -/
def escape (c : Char) : String :=
  if c == '"' then "\\\""
  else if c == '\\' then "\\\\"
  else if c == '\n' then "\\n"
  else if c == '\r' then "\\r"
  else if c == '\t' then "\\t"
  else if c == '\x00' then "\\0"
  else if isUnprintable c then "\\u\x7b" ++ hex c.toNat ++ "\x7d"
  else String.singleton c

end Quoted

def quoted (s : String) : String :=
  "\"" ++ String.join (s.toList.map Quoted.escape) ++ "\""

def quotedList (items : List String) : String :=
  "[" ++ ", ".intercalate (items.map quoted) ++ "]"

end Text
end QueryProjection
