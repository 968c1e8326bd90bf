import QueryProjection.Expr.Basic

/-!
# The text of an expression

* `Expr.render` writes an expression with a label for each parameter, and `Expr.text` uses the
  parameters' names;
* `Expr.parameters` lists the parameters in the order in which the text first mentions them, and
  `Expr.numbered` writes an expression with that number after each name, so that parameters of the
  same name can be told apart; `Expr.numbers` gives the numbers by themselves.
-/

namespace QueryProjection
namespace Expr

def fieldTexts : Shape → List String → List String
  | (name, _) :: fields, value :: values => (name ++ ": " ++ value) :: fieldTexts fields values
  | _, _ => []

mutual

/-- An expression as it is written, with a label for each parameter. -/
def render (label : Parameter → String) : Expr → String
  | .parameter p => label p
  | .constant _ value _ => value.text
  | .member receiver name _ => render label receiver ++ "." ++ name
  | .call method receiver arguments =>
    render label receiver ++ "." ++ method.text
      ++ "(" ++ ", ".intercalate (renderAll label arguments) ++ ")"
  | .binary op left right =>
    "(" ++ render label left ++ " " ++ op.text ++ " " ++ render label right ++ ")"
  | .serviceCall service method arguments _ =>
    service ++ "::" ++ method ++ "(" ++ ", ".intercalate (renderAll label arguments) ++ ")"
  | .lambda p body => "|" ++ label p ++ "| " ++ render label body
  | .record shape values =>
    "\x7b" ++ ", ".intercalate (fieldTexts shape (renderAll label values)) ++ "\x7d"
  | .projectEach source element body =>
    render label source ++ ".map(|" ++ label element ++ "| " ++ render label body ++ ")"
  | .projectOne source element body =>
    render label source ++ ".then(|" ++ label element ++ "| " ++ render label body ++ ")"
  | .materialize inner => render label inner ++ ".to_list()"

def renderAll (label : Parameter → String) : List Expr → List String
  | [] => []
  | e :: es => render label e :: renderAll label es

end

/-- An expression as it is written, with the names of its parameters. -/
def text (e : Expr) : String :=
  e.render Parameter.name

mutual

/-- Every mention of a parameter, bound or free, in the order of the text. -/
def mentions : Expr → List Parameter
  | .parameter p => [p]
  | .constant _ _ _ => []
  | .member receiver _ _ => mentions receiver
  | .call _ receiver arguments => mentions receiver ++ mentionsAll arguments
  | .binary _ left right => mentions left ++ mentions right
  | .serviceCall _ _ arguments _ => mentionsAll arguments
  | .lambda p body => p :: mentions body
  | .record _ values => mentionsAll values
  | .projectEach source element body => mentions source ++ element :: mentions body
  | .projectOne source element body => mentions source ++ element :: mentions body
  | .materialize inner => mentions inner

def mentionsAll : List Expr → List Parameter
  | [] => []
  | e :: es => mentions e ++ mentionsAll es

end

def parameters (e : Expr) : List Parameter :=
  e.mentions.eraseDups

/-- The numbers of some parameters in the order of first mention; none for one that is not
mentioned. -/
def numbers (e : Expr) (ps : List Parameter) : List (Option Nat) :=
  let parameters := e.parameters
  ps.map fun p => parameters.findIdx? (· = p)

/-- An expression as it is written, with the number of each parameter after its name. -/
def numbered (e : Expr) : String :=
  let parameters := e.parameters
  e.render fun p => p.name ++ "#" ++ (parameters.idxOf p).repr

end Expr
end QueryProjection
