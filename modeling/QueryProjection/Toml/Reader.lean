import QueryProjection.Binary64.Decimal
import QueryProjection.Toml.Datetime

/-!
# Reading TOML

A document is a sequence of lines: keys with their values, and headers that say in which table the
next keys are.  `Toml.parse` reads one.  Values are nested less than `Reader.nestingLimit` deep, and
a key has fewer parts than that.

Reading functions take the text that is left and give what they read with what follows it, or
nothing.  Those that repeat something take a fuel argument, for which the length of the text is
always enough.
-/

namespace QueryProjection
namespace Toml
namespace Reader

/-- How deep values may not be nested, and how many parts a key may not have. -/
def nestingLimit : Nat := 80

/-! ## Blanks, comments and line ends -/

def isBlank (c : Char) : Bool :=
  c == ' ' || c == '\t'

def skipBlanks (text : List Char) : List Char :=
  text.dropWhile isBlank

/-- Characters that may stand nowhere: control characters other than the tab. -/
def isControl (c : Char) : Bool :=
  (c.toNat < 0x20 && c != '\t') || c.toNat == 0x7f

def newline? : List Char → Option (List Char)
  | '\n' :: rest => some rest
  | '\r' :: '\n' :: rest => some rest
  | _ => none

/-- What follows a comment, if the text starts with one. -/
def skipComment (text : List Char) : List Char :=
  match text with
  | '#' :: rest => rest.dropWhile fun c => !isControl c
  | _ => text

/-- What follows the end of a line; a comment may stand in front of it. -/
def lineEnd? (text : List Char) : Option (List Char) :=
  match skipComment (skipBlanks text) with
  | [] => some []
  | rest => newline? rest

def skipLines : (fuel : Nat) → List Char → List Char
  | 0, text => text
  | fuel + 1, text =>
    let rest := skipComment (skipBlanks text)
    match newline? rest with
    | some rest => skipLines fuel rest
    | none => rest

def skipEmptyLines : (fuel : Nat) → List Char → List Char
  | 0, text => text
  | fuel + 1, text =>
    let rest := skipBlanks text
    match newline? rest with
    | some rest => skipEmptyLines fuel rest
    | none => rest

/-! ## Strings -/

def hexValue? (c : Char) : Option Nat :=
  if '0' ≤ c ∧ c ≤ '9' then some (c.toNat - '0'.toNat)
  else if 'a' ≤ c ∧ c ≤ 'f' then some (c.toNat - 'a'.toNat + 10)
  else if 'A' ≤ c ∧ c ≤ 'F' then some (c.toNat - 'A'.toNat + 10)
  else none

def hexNumber? (digits : List Char) : Option Nat :=
  digits.foldlM (fun n c => (hexValue? c).map (16 * n + ·)) 0

def unicode? (count : Nat) (text : List Char) : Option (Char × List Char) := do
  let digits := text.take count
  if digits.length < count then none
  let n ← hexNumber? digits
  if n.isValidChar then return (Char.ofNat n, text.drop count) else none

def escape? : List Char → Option (Char × List Char)
  | 'b' :: rest => some ('\x08', rest)
  | 't' :: rest => some ('\t', rest)
  | 'n' :: rest => some ('\n', rest)
  | 'f' :: rest => some ('\x0c', rest)
  | 'r' :: rest => some ('\r', rest)
  | '"' :: rest => some ('"', rest)
  | '\\' :: rest => some ('\\', rest)
  | 'u' :: rest => unicode? 4 rest
  | 'U' :: rest => unicode? 8 rest
  | _ => none

/-- A string with escapes on one line, after its opening quote. -/
def basic? : (fuel : Nat) → (read : List Char) → List Char → Option (String × List Char)
  | 0, _, _ => none
  | _ + 1, _, [] => none
  | fuel + 1, read, c :: rest =>
    if c == '"' then some (String.ofList read.reverse, rest)
    else if c == '\\' then do
      let (c, rest) ← escape? rest
      basic? fuel (c :: read) rest
    else if isControl c then none
    else basic? fuel (c :: read) rest

/-- A string without escapes on one line, after its opening quote. -/
def literal? (read : List Char) : List Char → Option (String × List Char)
  | [] => none
  | c :: rest =>
    if c == '\'' then some (String.ofList read.reverse, rest)
    else if isControl c then none
    else literal? (c :: read) rest

/-- The end of a string of several lines: three quotes, of up to five the last three. -/
def closing? (quote : Char) (text : List Char) : Option (List Char × List Char) :=
  let quotes := (text.takeWhile (· == quote)).length
  if quotes < 3 then none
  else
    let extra := min 2 (quotes - 3)
    some (List.replicate extra quote, text.drop (3 + extra))

/-- A string with escapes on several lines.  A backslash at the end of a line swallows the blanks
and line ends after it. -/
def multiBasic? : (fuel : Nat) → (read : List Char) → List Char → Option (String × List Char)
  | 0, _, _ => none
  | fuel + 1, read, text =>
    match closing? '"' text with
    | some (extra, rest) => some (String.ofList (read.reverse ++ extra), rest)
    | none =>
      match text with
      | [] => none
      | '\\' :: rest =>
        match newline? (skipBlanks rest) with
        | some rest =>
          multiBasic? fuel read (skipEmptyLines (rest.length + 1) rest)
        | none => do
          let (c, rest) ← escape? rest
          multiBasic? fuel (c :: read) rest
      | c :: rest =>
        match newline? (c :: rest) with
        | some rest => multiBasic? fuel ('\n' :: read) rest
        | none => if isControl c then none else multiBasic? fuel (c :: read) rest

/-- A string without escapes on several lines. -/
def multiLiteral? : (fuel : Nat) → (read : List Char) → List Char → Option (String × List Char)
  | 0, _, _ => none
  | fuel + 1, read, text =>
    match closing? '\'' text with
    | some (extra, rest) => some (String.ofList (read.reverse ++ extra), rest)
    | none =>
      match text with
      | [] => none
      | c :: rest =>
        match newline? (c :: rest) with
        | some rest => multiLiteral? fuel ('\n' :: read) rest
        | none => if isControl c then none else multiLiteral? fuel (c :: read) rest

/-- What follows a line end right after the opening quotes. -/
def dropNewline (text : List Char) : List Char :=
  (newline? text).getD text

def string? (text : List Char) : Option (String × List Char) :=
  let fuel := text.length + 1
  match text with
  | '"' :: '"' :: '"' :: rest => multiBasic? fuel [] (dropNewline rest)
  | '\'' :: '\'' :: '\'' :: rest => multiLiteral? fuel [] (dropNewline rest)
  | '"' :: rest => basic? fuel [] rest
  | '\'' :: rest => literal? [] rest
  | _ => none

/-! ## Keys -/

def isBare (c : Char) : Bool :=
  c.isAlphanum || c == '_' || c == '-'

def keyPart? (text : List Char) : Option (String × List Char) :=
  match text with
  | '"' :: rest => basic? (rest.length + 1) [] rest
  | '\'' :: rest => literal? [] rest
  | _ =>
    match text.takeWhile isBare with
    | [] => none
    | part => some (String.ofList part, text.dropWhile isBare)

/-- Parts with points between them, fewer than `limit`. -/
def keyParts? : (limit : Nat) → List Char → Option (List String × List Char)
  | 0, _ | 1, _ => none
  | limit + 1, text => do
    let (part, rest) ← keyPart? (skipBlanks text)
    match skipBlanks rest with
    | '.' :: rest =>
      let (parts, rest) ← keyParts? limit rest
      return (part :: parts, rest)
    | _ => return ([part], rest)

def key? (text : List Char) : Option (List String × List Char) :=
  keyParts? nestingLimit text

def splitLast : List String → Option (List String × String)
  | [] => none
  | [last] => some ([], last)
  | part :: rest => (splitLast rest).map fun (path, last) => (part :: path, last)

/-! ## Numbers -/

/-- Digits of a class, with single underscores between them; `after` says whether a digit came right
before. -/
def digits (isDigit : Char → Bool) (after : Bool) : List Char → List Char × List Char
  | [] => ([], [])
  | '_' :: c :: rest =>
    if after && isDigit c then
      let (more, left) := digits isDigit true rest
      (c :: more, left)
    else ([], '_' :: c :: rest)
  | c :: rest =>
    if isDigit c then
      let (more, left) := digits isDigit true rest
      (c :: more, left)
    else ([], c :: rest)

def integer? (i : Int) : Option Toml :=
  if -Nat.pow 2 63 ≤ i ∧ i < Nat.pow 2 63 then some (.integer i) else none

def based? (base : Nat) (text : List Char) : Option (Toml × List Char) := do
  let isDigit := fun c => (hexValue? c).any (· < base)
  let (ds, rest) := digits isDigit false text
  if ds.isEmpty then none
  let n := ds.foldl (fun n c => base * n + (hexValue? c).getD 0) 0
  return (← integer? n, rest)

def fraction? (text : List Char) : Option (Option (List Char) × List Char) :=
  match text with
  | '.' :: rest =>
    match digits Char.isDigit false rest with
    | ([], _) => none
    | (ds, rest) => some (some ds, rest)
  | _ => some (none, text)

def exponent? (text : List Char) : Option (Option (Bool × List Char) × List Char) :=
  let unsigned (minus : Bool) (rest : List Char) :=
    match digits Char.isDigit false rest with
    | ([], _) => none
    | (ds, rest) => some (some (minus, ds), rest)
  match text with
  | 'e' :: '-' :: rest | 'E' :: '-' :: rest => unsigned true rest
  | 'e' :: '+' :: rest | 'E' :: '+' :: rest => unsigned false rest
  | 'e' :: rest | 'E' :: rest => unsigned false rest
  | _ => some (none, text)

/-- A decimal number after its sign.  Only a single zero may start with a zero. -/
def decimal? (negative : Bool) (text : List Char) : Option (Toml × List Char) := do
  let (whole, rest) := digits Char.isDigit false text
  match whole with
  | [] => none
  | '0' :: _ :: _ => none
  | _ =>
    let (fraction, rest) ← fraction? rest
    let (exponent, rest) ← exponent? rest
    match fraction, exponent with
    | none, none =>
      let n : Int := digitsValue whole
      return (← integer? (if negative then -n else n), rest)
    | _, _ =>
      let x := (NumberLiteral.mk negative whole (fraction.getD []) exponent).nearest
      if x.isInfinite && !negative then none
      else return (.float x, rest)

def signed? (negative : Bool) (text : List Char) : Option (Toml × List Char) :=
  match text with
  | 'i' :: 'n' :: 'f' :: rest => some (.float (.infinity negative), rest)
  | 'n' :: 'a' :: 'n' :: rest => some (.float .nan, rest)
  | _ => decimal? negative text

def number? (text : List Char) : Option (Toml × List Char) :=
  match text with
  | '+' :: rest => signed? false rest
  | '-' :: rest => signed? true rest
  | '0' :: 'x' :: rest => based? 16 rest
  | '0' :: 'o' :: rest => based? 8 rest
  | '0' :: 'b' :: rest => based? 2 rest
  | _ => signed? false text

/-! ## Values -/

def addKey (parts : List String) (value : Toml) (entries : TomlNode.Entries) :
    Option TomlNode.Entries := do
  let (path, key) ← splitLast parts
  TomlNode.insertKey (!path.isEmpty) key value path false entries

mutual

/-- A value.  `levels` says how many arrays and inline tables may still be nested in each other. -/
def value? : (fuel levels : Nat) → List Char → Option (Toml × List Char)
  | 0, _, _ => none
  | fuel + 1, levels, text =>
    match text with
    | '"' :: _ | '\'' :: _ => do
      let (s, rest) ← string? text
      return (.string s, rest)
    | 't' :: 'r' :: 'u' :: 'e' :: rest => some (.boolean true, rest)
    | 'f' :: 'a' :: 'l' :: 's' :: 'e' :: rest => some (.boolean false, rest)
    | '[' :: rest =>
      match levels with
      | 0 => none
      | levels + 1 => do
        let (items, rest) ← items? fuel levels (skipLines (rest.length + 1) rest)
        return (.array items, rest)
    | '\x7b' :: rest =>
      match levels, skipBlanks rest with
      | 0, _ => none
      | _ + 1, '\x7d' :: rest => some (.table [], rest)
      | levels + 1, rest => do
        let (entries, rest) ← members? fuel levels rest []
        return (.table (TomlNode.toMembers entries), rest)
    | _ =>
      match datetime? text with
      | some (moment, rest) => some (.datetime moment, rest)
      | none => number? text

/-- The items of an array up to the closing bracket; a comma may follow the last one. -/
def items? : (fuel levels : Nat) → List Char → Option (List Toml × List Char)
  | 0, _, _ => none
  | fuel + 1, levels, text =>
    match text with
    | ']' :: rest => some ([], rest)
    | _ => do
      let (item, rest) ← value? fuel levels text
      match skipLines (rest.length + 1) rest with
      | ',' :: rest =>
        let (items, rest) ← items? fuel levels (skipLines (rest.length + 1) rest)
        return (item :: items, rest)
      | ']' :: rest => return ([item], rest)
      | _ => none

/-- The members of an inline table up to the closing brace. -/
def members? : (fuel levels : Nat) → List Char → TomlNode.Entries →
    Option (TomlNode.Entries × List Char)
  | 0, _, _, _ => none
  | fuel + 1, levels, text, entries => do
    let (parts, rest) ← key? text
    match skipBlanks rest with
    | '=' :: rest =>
      let (value, rest) ← value? fuel levels (skipBlanks rest)
      let entries ← addKey parts value entries
      match skipBlanks rest with
      | ',' :: rest => members? fuel levels rest entries
      | '\x7d' :: rest => return (entries, rest)
      | _ => none
    | _ => none

end

/-! ## Documents -/

/-- A document as far as it has been read: its entries, and the table that keys go to. -/
structure State where
  entries : TomlNode.Entries := []
  header : List String := []

def header? (text : List Char) (state : State) : Option (State × List Char) := do
  let (parts, rest) ← key? text
  match skipBlanks rest with
  | ']' :: rest =>
    let (path, key) ← splitLast parts
    let entries ← TomlNode.updateAt (TomlNode.openTable key) path state.entries
    return (⟨entries, parts⟩, rest)
  | _ => none

/-- The header of an element of an array of tables, after its opening brackets. -/
def elementHeader? (text : List Char) (state : State) : Option (State × List Char) := do
  let (parts, rest) ← key? text
  match skipBlanks rest with
  | ']' :: ']' :: rest =>
    let (path, key) ← splitLast parts
    let entries ← TomlNode.updateAt (TomlNode.openElement key) path state.entries
    return (⟨entries, parts⟩, rest)
  | _ => none

def keyValue? (text : List Char) (state : State) : Option (State × List Char) := do
  let (parts, rest) ← key? text
  match skipBlanks rest with
  | '=' :: rest =>
    let (value, rest) ← value? (rest.length + 1) (nestingLimit - 1) (skipBlanks rest)
    let entries ← TomlNode.updateAt (addKey parts value) state.header state.entries
    return ({ state with entries }, rest)
  | _ => none

def lines? : (fuel : Nat) → List Char → State → Option State
  | 0, _, _ => none
  | fuel + 1, text, state =>
    match skipLines (text.length + 1) text with
    | [] => some state
    | '[' :: '[' :: rest => do
      let (state, rest) ← elementHeader? rest state
      lines? fuel (← lineEnd? rest) state
    | '[' :: rest => do
      let (state, rest) ← header? rest state
      lines? fuel (← lineEnd? rest) state
    | rest => do
      let (state, rest) ← keyValue? rest state
      lines? fuel (← lineEnd? rest) state

end Reader

/-- The table that a text spells.  A byte order mark in front of it is ignored. -/
def parse (text : String) : Option (List (String × Toml)) :=
  let chars :=
    match text.toList with
    | '\ufeff' :: rest => rest
    | chars => chars
  (Reader.lines? (chars.length + 1) chars {}).map fun state => TomlNode.toMembers state.entries

end Toml
end QueryProjection
