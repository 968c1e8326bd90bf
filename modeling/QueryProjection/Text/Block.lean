/-!
# Block strings

The text of a block string: the indentation that all its lines share is removed, and so are the
blank lines at its two ends.
-/

namespace QueryProjection
namespace Text
namespace Block

/-- The lines of a text, which end at a line feed, a carriage return, or the two together.  `line`
holds what was read of the current line, backwards. -/
def linesFrom (line : List Char) : List Char → List (List Char)
  | [] => [line.reverse]
  | '\r' :: '\n' :: rest => line.reverse :: linesFrom [] rest
  | '\r' :: rest => line.reverse :: linesFrom [] rest
  | '\n' :: rest => line.reverse :: linesFrom [] rest
  | c :: rest => linesFrom (c :: line) rest

def isBlank (c : Char) : Bool :=
  c == ' ' || c == '\t'

/-- The number of blanks in front of the first other character, if there is one. -/
def indent? (line : List Char) : Option Nat :=
  if line.all isBlank then none else some (line.takeWhile isBlank).length

/-- The smallest indentation among lines that have one, and zero if none has. -/
def commonIndent (lines : List (List Char)) : Nat :=
  ((lines.filterMap indent?).min?).getD 0

/-- A line without its first `n` characters; a shorter line stays as it is. -/
def unindent (n : Nat) (line : List Char) : List Char :=
  if n ≤ line.length then line.drop n else line

/-- The lines of a block string. -/
def strip (lines : List (List Char)) : List (List Char) :=
  match lines with
  | [] => []
  | first :: rest =>
    let unindented := first :: rest.map (unindent (commonIndent rest))
    let leading := unindented.dropWhile fun line => line.all isBlank
    (leading.reverse.dropWhile fun line => line.all isBlank).reverse

end Block

def block (written : List Char) : String :=
  "\n".intercalate ((Block.strip (Block.linesFrom [] written)).map String.ofList)

end Text
end QueryProjection
