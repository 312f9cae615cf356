/-!
# The shapes of described values

Messages describe values in one notation: a name, a name with arguments in parentheses, or a name
with labelled fields in braces; sequences in brackets; a value that may be missing as `None` or
`Some(..)`.
-/

namespace ClassPatch.Describe

def commas (items : List String) : String := String.intercalate ", " items

/-- A name with arguments in parentheses. -/
def tuple (name : String) (args : List String) : String := name ++ "(" ++ commas args ++ ")"

/-- A name with labelled fields in braces. -/
def record (name : String) (fields : List (String × String)) : String :=
  name ++ " \x7b " ++ commas (fields.map fun (label, value) => label ++ ": " ++ value) ++ " \x7d"

/-- A sequence in brackets. -/
def list (items : List String) : String := "[" ++ commas items ++ "]"

def option : Option String → String
  | none => "None"
  | some value => tuple "Some" [value]

end ClassPatch.Describe
