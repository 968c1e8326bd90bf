import QueryProjection.Document.Cursor
import QueryProjection.Document.Variables
import QueryProjection.Json.Reader
import QueryProjection.Text.Block

/-!
# The grammar of documents

Names, values, selections and definitions.  Keywords are not set off from what follows them, so a
query may be named right after the word `query`; and the first alternative that fits is taken.

Values, types and selections nest.  Their functions take a bound on the nesting, and the length of
the text is always enough; apart from that, selection sets may be nested `Grammar.maxNesting` deep,
and a deeper one is a fault.
-/

namespace QueryProjection
namespace Grammar

/-! ## Names and words -/

def isNameStart (c : Char) : Bool :=
  c.isAlpha || c == '_'

def isNamePart (c : Char) : Bool :=
  c.isAlphanum || c == '_'

/-- A letter or an underscore, followed by letters, digits and underscores. -/
def name : Grammar String :=
  scan fun text =>
    match text with
    | c :: rest =>
      if isNameStart c then
        some (String.ofList (c :: rest.takeWhile isNamePart), rest.dropWhile isNamePart)
      else none
    | [] => none

def locatedName : Grammar (Location × String) := do
  let place ← location
  return (place, ← name)

/-! ## Strings -/

/-- What a block string holds, up to three quotes; three quotes after a backslash belong to it, and
so does the backslash. -/
def blockContent (read : List Char) : List Char → Option (List Char × List Char)
  | '"' :: '"' :: '"' :: rest => some (read.reverse, rest)
  | '\\' :: '"' :: '"' :: '"' :: rest => blockContent ('"' :: '"' :: '"' :: '\\' :: read) rest
  | c :: rest => blockContent (c :: read) rest
  | [] => none

/-- The character of an escape after `\u`: four hexadecimal digits that are no surrogate. -/
def unicode? (text : List Char) : Option (Char × List Char) := do
  let (n, rest) ← Json.Reader.unit? text
  if 0xd800 ≤ n ∧ n < 0xe000 then none else return (Char.ofNat n, rest)

/-- What a string holds, up to its closing quote, in at most `fuel` characters. -/
def stringContent : (fuel : Nat) → (read : List Char) → List Char → Option (String × List Char)
  | 0, _, _ => none
  | _ + 1, _, [] => none
  | fuel + 1, read, c :: rest =>
    if c == '"' then some (String.ofList read.reverse, rest)
    else if c == '\r' || c == '\n' then none
    else if c == '\\' then
      match rest with
      | 'u' :: rest => do
        let (c, rest) ← unicode? rest
        stringContent fuel (c :: read) rest
      | e :: rest => do
        let c ← Json.Reader.letter? e
        stringContent fuel (c :: read) rest
      | [] => none
    else stringContent fuel (c :: read) rest

/-- A string between quotes, or between three quotes on either side. -/
def string : Grammar String :=
  scan fun text =>
    let asBlock :=
      match text with
      | '"' :: '"' :: '"' :: rest =>
        (blockContent [] rest).map fun (read, rest) => (Text.block read, rest)
      | _ => none
    match asBlock with
    | some found => some found
    | none =>
      match text with
      | '"' :: rest => stringContent (rest.length + 1) [] rest
      | _ => none

/-! ## Values -/

/-- A number that no letter follows.  One that is too large is a fault. -/
def number : Grammar Value := do
  let literal ← scan NumberLiteral.scan
  absent (scan fun text =>
    match text with
    | c :: rest => if isNameStart c then some ((), rest) else none
    | [] => none)
  match Json.ofLiteral literal with
  | some json => return .ofJson json
  | none =>
    fault .number
    return .null

def boolean : Grammar Bool :=
  (do exactly "true"; return true) <|> (do exactly "false"; return false)

/-- A name that does not start like a boolean or null. -/
def enumValue : Grammar String := do
  absent boolean
  absent (exactly "null")
  name

def variableName : Grammar String := do
  exactly "$"
  next name

/-- A value; variables are among them if `constant` is not set. -/
def value (constant : Bool) : (depth : Nat) → Grammar ArgumentValue
  | 0 => failure
  | depth + 1 =>
    let member : Grammar (String × ArgumentValue) := do
      let key ← name
      next (exactly ":")
      return (key, ← next (value constant depth))
    let mention : Grammar ArgumentValue :=
      if constant then failure else do return .var (← variableName)
    mention
    <|> (do return .literal (← number))
    <|> (do return .literal (.string (← string)))
    <|> (do return .literal (.boolean (← boolean)))
    <|> (do exactly "null"; return .literal .null)
    <|> (do return .literal (.string (← enumValue)))
    <|> (do
      exactly "["
      let items ← many (value constant depth)
      next (exactly "]")
      return .list items)
    <|> (do
      exactly "\x7b"
      let members ← many member
      next (exactly "\x7d")
      return .object (Assoc.ofList members))

def arguments (depth : Nat) : Grammar (List (String × ArgumentValue)) := do
  exactly "("
  let given ← many1 (do
    let key ← name
    next (exactly ":")
    return (key, ← next (value false depth)))
  next (exactly ")")
  return Assoc.ofList given

def directive (depth : Nat) : Grammar Directive := do
  exactly "@"
  let name ← next name
  let given ← optional (next (arguments depth))
  return ⟨name, given.getD []⟩

def directives (depth : Nat) : Grammar (List Directive) :=
  many (directive depth)

/-! ## Selections -/

/-- The word `on`, blanks, and the name of a type; together with the place of the word and of the
name. -/
def typeCondition : Grammar (Location × Location × String) := do
  let place ← location
  exactly "on"
  match ← run isBlank with
  | [] => failure
  | _ =>
    let (namePlace, name) ← locatedName
    return (place, namePlace, name)

/-- How deep selection sets may be nested below the one of a definition. -/
def maxNesting : Nat := 64

/-- The name of a field, or its alias and its name. -/
def fieldName : Grammar (Option String × String) := do
  let key ← optional (do
    let key ← name
    next (exactly ":")
    return key)
  return (key, ← next name)

mutual

/-- One entry of a selection set.  Below it, selection sets may be nested `levels` deep. -/
def selection : (depth levels : Nat) → Grammar WrittenSelection
  | 0, _ => failure
  | depth + 1, levels =>
    let below : Grammar (List WrittenSelection) := do
      if levels = 0 then fault .nesting
      selectionSet depth (levels - 1)
    (do
      let place ← location
      let (key, name) ← fieldName
      let given ← optional (next (arguments depth))
      let directives ← directives depth
      let selections ← optional (next below)
      return .field place key name (given.getD []) directives (selections.getD []))
    <|> (do
      exactly "..."
      let condition ← optional (next typeCondition)
      let directives ← directives depth
      let selections ← next below
      return .inline (condition.map fun (place, _, name) => (place, name)) directives selections)
    <|> (do
      exactly "..."
      skip
      absent typeCondition
      let name ← name
      return .spread name (← directives depth))

/-- A selection set; it has at least one entry. -/
def selectionSet : (depth levels : Nat) → Grammar (List WrittenSelection)
  | 0, _ => failure
  | depth + 1, levels => do
    exactly "\x7b"
    let selections ← many1 (selection depth levels)
    next (exactly "\x7d")
    return selections

end

/-! ## Definitions -/

/-- A type, and whether null belongs to it. -/
def type : (depth : Nat) → Grammar Bool
  | 0 => failure
  | depth + 1 => do
    (do let _ ← name)
      <|> (do exactly "["; let _ ← type depth; exactly "]")
    return (← optional (exactly "!")).isNone

def variableDefinition (depth : Nat) : Grammar VariableDefinition := do
  let name ← variableName
  next (exactly ":")
  let nullable ← next (type depth)
  let _ ← directives depth
  let default ← optional (next (do
    exactly "="
    next (value true depth)))
  return {
    name
    nullable
    default := default.bind fun written =>
      ((VariableValues.mk [] []).resolve written).toOption }

def variableDefinitions (depth : Nat) : Grammar (List VariableDefinition) := do
  exactly "("
  let definitions ← many (variableDefinition depth)
  next (exactly ")")
  return definitions

def operationKind : Grammar OperationKind :=
  (do exactly "query"; return .query)
  <|> (do exactly "mutation"; return .mutation)
  <|> (do exactly "subscription"; return .subscription)

/-- An operation: a query may be just its selection set. -/
def operation (depth : Nat) : Grammar WrittenOperation := do
  let place ← location
  (do
    let kind ← operationKind
    let name ← optional (next name)
    let declarations ← optional (next (variableDefinitions depth))
    let _ ← directives depth
    let selections ← next (selectionSet depth maxNesting)
    return ⟨place, kind, name, declarations.getD [], selections⟩)
  <|> (do return ⟨place, .query, none, [], ← selectionSet depth maxNesting⟩)

def fragment (depth : Nat) : Grammar WrittenFragment := do
  let place ← location
  exactly "fragment"
  let name ← next name
  let (_, typePlace, type) ← next typeCondition
  let _ ← directives depth
  return ⟨place, name, typePlace, type, ← next (selectionSet depth maxNesting)⟩

def document (depth : Nat) : Grammar (List WrittenDefinition) := do
  let definitions ← many1
    ((do return .operation (← operation depth)) <|> (do return .fragment (← fragment depth)))
  skip
  if (← get).rest.isEmpty then return definitions else failure

/-- The definitions that a text spells, or none, with the first fault on the way. -/
def parse (text : String) : Option (List WrittenDefinition × Option Fault) :=
  match document (2 * text.length + 2) (Cursor.start text) with
  | some (definitions, cursor) => some (definitions, cursor.fault)
  | none => none

end Grammar
end QueryProjection
