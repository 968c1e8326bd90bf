import QueryProjection.Settings.Basic
import QueryProjection.Toml.Reader

/-!
# Reading settings

Settings are read from a TOML document with at most two keys.  Of several things that are wrong with
it, the first one in the document is reported.

* `SettingsError` is why a document is refused, with its message;
* `Settings.parse` reads a text.
-/

namespace QueryProjection

inductive SettingsError where
  | notToml
  | unknownKey (key : String)
  | unknownPolicy (name : String)
  | policyNotText
  /-- The policy is a table without keys, or with more than one. -/
  | policyTableSize (empty : Bool)
  /-- The policy is a table whose only key has something below it. -/
  | policyTableContent (found : String)
  | negativeDepth (depth : Int)
  | depthNotInteger (found : String)
deriving DecidableEq, Repr

def SettingsError.message : SettingsError → String
  | .notToml => "the text is not a TOML document"
  | .unknownKey key =>
    "unknown field `" ++ key ++ "`, expected `type_match_fallback` or `max_depth`"
  | .unknownPolicy name =>
    "unknown variant `" ++ name ++ "`, expected one of `warn`, `allow`, `deny`"
  | .policyNotText => "wanted string or table"
  | .policyTableSize empty =>
    if empty then "wanted exactly 1 element, found 0 elements"
    else "wanted exactly 1 element, more than 1 element"
  | .policyTableContent found => "expected " ++ found
  | .negativeDepth depth => "invalid value: integer `" ++ depth.repr ++ "`, expected usize"
  | .depthNotInteger found => "invalid type: " ++ found ++ ", expected usize"

namespace Settings

/-- Numbers in a message are written out in full. -/
def number : Binary64.Layout :=
  ⟨.up, none, false⟩

def policyOfName (name : String) : Except SettingsError TypeMatching :=
  if name = "warn" then .ok .warn
  else if name = "allow" then .ok .allow
  else if name = "deny" then .ok .deny
  else .error (.unknownPolicy name)

def checkEmpty : Toml → Except SettingsError Unit
  | .table members =>
    if members.isEmpty then .ok () else .error (.policyTableContent "empty table")
  | .array items => if items.isEmpty then .ok () else .error (.policyTableContent "empty table")
  | .tables items => if items.isEmpty then .ok () else .error (.policyTableContent "empty array")
  | .string _ => .error (.policyTableContent "table, found string")
  | .integer _ => .error (.policyTableContent "table, found integer")
  | .float _ => .error (.policyTableContent "table, found float")
  | .boolean _ => .error (.policyTableContent "table, found boolean")
  | .datetime _ => .error (.policyTableContent "table, found datetime")

/-- The policy that a value names, itself or as the only key of a table. -/
def policy : Toml → Except SettingsError TypeMatching
  | .string name => policyOfName name
  | .table [] => .error (.policyTableSize true)
  | .table [(name, content)] => do
    let found ← policyOfName name
    checkEmpty content
    return found
  | .table _ => .error (.policyTableSize false)
  | _ => .error .policyNotText

def depth : Toml → Except SettingsError Nat
  | .integer i => if i < 0 then .error (.negativeDepth i) else .ok i.toNat
  | .float x => .error (.depthNotInteger ("floating point `" ++ number.write x ++ "`"))
  | .string s => .error (.depthNotInteger ("string " ++ Text.quoted s))
  | .boolean b =>
    .error (.depthNotInteger ("boolean `" ++ (if b then "true" else "false") ++ "`"))
  | .array _ | .tables _ => .error (.depthNotInteger "sequence")
  | .table _ | .datetime _ => .error (.depthNotInteger "map")

def ofMembers (settings : Settings) : List (String × Toml) → Except SettingsError Settings
  | [] => .ok settings
  | (key, value) :: rest => do
    if key = "type_match_fallback" then
      let typeMatching ← policy value
      ofMembers { settings with typeMatching } rest
    else if key = "max_depth" then
      let maxDepth ← depth value
      ofMembers { settings with maxDepth := some maxDepth } rest
    else throw (.unknownKey key)

def parse (text : String) : Except SettingsError Settings :=
  match Toml.parse text with
  | none => .error .notToml
  | some members => ofMembers {} members

end Settings
end QueryProjection
