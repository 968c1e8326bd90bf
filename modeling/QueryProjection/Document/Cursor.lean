import QueryProjection.Document.Source

/-!
# Reading a document

A grammar is a set of functions that read something off the front of a text or fail.  When one of
two alternatives succeeds the other is never tried again.

* `Cursor` is a place in a text with what follows it, and the first fault on the way there: a thing
  that the grammar allows but no document may have;
* `Grammar` is a reading function, and the functions here are the pieces that grammars are made of.
-/

namespace QueryProjection

/-- What the grammar allows but no document may have. -/
inductive Fault where
  | number
  | nesting
deriving DecidableEq, Repr

structure Cursor where
  rest : List Char
  location : Location
  fault : Option Fault

namespace Cursor

def start (text : String) : Cursor :=
  ⟨text.toList, ⟨1, 1⟩, none⟩

/-- The place after a character: a line feed starts a line, and a carriage return goes back to the
first column. -/
def after (location : Location) (c : Char) : Location :=
  if c == '\n' then ⟨location.line + 1, 1⟩
  else if c == '\r' then ⟨location.line, 1⟩
  else ⟨location.line, location.column + 1⟩

/-- The cursor moved past characters that were read, to what follows them. -/
def moved (cursor : Cursor) (read rest : List Char) : Cursor :=
  { cursor with rest, location := read.foldl after cursor.location }

end Cursor

/-- Reads something off the front of a text, or fails. -/
abbrev Grammar := StateT Cursor Option

namespace Grammar

variable {α : Type}

def location : Grammar Location := do
  return (← get).location

/-- Notes a fault, unless there was one before. -/
def fault (f : Fault) : Grammar Unit :=
  modify fun cursor => { cursor with fault := cursor.fault.orElse fun _ => some f }

/-- Reads something if it is there. -/
def optional (p : Grammar α) : Grammar (Option α) := fun cursor =>
  match p cursor with
  | some (a, next) => some (some a, next)
  | none => some (none, cursor)

/-- Succeeds without reading if `p` would fail. -/
def absent (p : Grammar α) : Grammar Unit := fun cursor =>
  match p cursor with
  | some _ => none
  | none => some ((), cursor)

/-- What follows `expected` at the front of a text. -/
def dropFront? : (expected text : List Char) → Option (List Char)
  | [], rest => some rest
  | e :: expected, c :: rest => if e = c then dropFront? expected rest else none
  | _ :: _, [] => none

def exactly (text : String) : Grammar Unit := fun cursor =>
  (dropFront? text.toList cursor.rest).map fun rest => ((), cursor.moved text.toList rest)

/-- Reads the longest run of characters of a class. -/
def run (isIn : Char → Bool) : Grammar (List Char) := fun cursor =>
  let read := cursor.rest.takeWhile isIn
  some (read, cursor.moved read (cursor.rest.dropWhile isIn))

/-- Reads with a function that gives what it read, the meaning of it, and what follows. -/
def scan (read : List Char → Option (α × List Char)) : Grammar α := fun cursor =>
  match read cursor.rest with
  | some (a, rest) =>
    let consumed := cursor.rest.take (cursor.rest.length - rest.length)
    some (a, cursor.moved consumed rest)
  | none => none

/-! ## Blanks -/

/-- Blanks between the words of a document; a comma is one of them. -/
def isBlank (c : Char) : Bool :=
  c == ' ' || c == ',' || c == '\t' || c == '\ufeff' || c == '\r' || c == '\n'

/-- What follows blanks and comments.  A comment starts with `#` and ends with its line. -/
def afterBlanks (comment : Bool) : List Char → List Char
  | [] => []
  | c :: rest =>
    if comment then afterBlanks (c != '\r' && c != '\n') rest
    else if isBlank c then afterBlanks false rest
    else if c == '#' then afterBlanks true rest
    else c :: rest

def skip : Grammar Unit :=
  scan fun text => some ((), afterBlanks false text)

/-- Reads something, and the blanks in front of it. -/
def next (p : Grammar α) : Grammar α := do
  skip
  p

/-! ## Repetition -/

/-- Reads something as often as it is there, with blanks in between; `fuel` bounds how often. -/
def manyWith (p : Grammar α) : (fuel : Nat) → Grammar (List α)
  | 0 => return []
  | fuel + 1 => do
    match ← optional (next p) with
    | none => return []
    | some a => return a :: (← manyWith p fuel)

/-- Reads something as often as it is there.  Each time it reads at least one character. -/
def many (p : Grammar α) : Grammar (List α) := fun cursor =>
  manyWith p (cursor.rest.length + 1) cursor

def many1 (p : Grammar α) : Grammar (List α) := do
  let first ← next p
  return first :: (← many p)

end Grammar
end QueryProjection
