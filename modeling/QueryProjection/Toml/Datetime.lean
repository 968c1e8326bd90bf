import QueryProjection.Toml.Basic

/-!
# Dates and times in TOML

A date, a time of day, or a date with a time of day that may name its distance from universal time.
`Toml.Reader.datetime?` reads one off the front of a text; it is kept as it is written.

The other functions read a part of it and give what follows, or nothing.
-/

namespace QueryProjection
namespace Toml
namespace Reader

def fixed? (count : Nat) (text : List Char) : Option (Nat × List Char) :=
  let ds := text.take count
  if ds.length = count ∧ ds.all Char.isDigit then
    some (ds.foldl (fun n c => 10 * n + (c.toNat - '0'.toNat)) 0, text.drop count)
  else none

def twoDigits? (low high : Nat) (text : List Char) : Option (Nat × List Char) := do
  let (n, rest) ← fixed? 2 text
  if low ≤ n ∧ n ≤ high then return (n, rest) else none

def after? (c : Char) : List Char → Option (List Char)
  | d :: rest => if d = c then some rest else none
  | [] => none

def isLeapYear (year : Nat) : Bool :=
  year % 4 == 0 && (year % 100 != 0 || year % 400 == 0)

def daysOfMonth (year month : Nat) : Nat :=
  if month = 2 then (if isLeapYear year then 29 else 28)
  else if month = 4 ∨ month = 6 ∨ month = 9 ∨ month = 11 then 30
  else 31

/-- A day of the calendar. -/
def date? (text : List Char) : Option (List Char) := do
  let (year, rest) ← fixed? 4 text
  let rest ← after? '-' rest
  let (month, rest) ← twoDigits? 1 12 rest
  let rest ← after? '-' rest
  let (_, rest) ← twoDigits? 1 (daysOfMonth year month) rest
  return rest

/-- A time of day, to the second or finer; there may be a leap second. -/
def time? (text : List Char) : Option (List Char) := do
  let (_, rest) ← twoDigits? 0 23 text
  let rest ← after? ':' rest
  let (_, rest) ← twoDigits? 0 59 rest
  let rest ← after? ':' rest
  let (_, rest) ← twoDigits? 0 60 rest
  match rest with
  | '.' :: digit :: rest =>
    if digit.isDigit then return rest.dropWhile Char.isDigit else none
  | '.' :: _ => none
  | _ => return rest

/-- The distance from universal time, if there is one. -/
def offset? (text : List Char) : Option (List Char) :=
  match text with
  | 'Z' :: rest | 'z' :: rest => some rest
  | '+' :: rest | '-' :: rest => do
    let (_, rest) ← twoDigits? 0 23 rest
    let rest ← after? ':' rest
    let (_, rest) ← twoDigits? 0 59 rest
    return rest
  | _ => some text

def timeAfterDate? (text : List Char) : Option (List Char) :=
  match text with
  | 'T' :: rest | 't' :: rest => do offset? (← time? rest)
  | ' ' :: digit :: rest =>
    if digit.isDigit then do offset? (← time? (digit :: rest)) else some text
  | _ => some text

def datetime? (text : List Char) : Option (String × List Char) := do
  let rest ←
    match date? text with
    | some rest => timeAfterDate? rest
    | none => time? text
  return (String.ofList (text.take (text.length - rest.length)), rest)

end Reader
end Toml
end QueryProjection
