/-!
# JSON values

A JSON value keeps the members of an object in the order in which they were written, and
`field?` looks a name up: where a name is written twice, the last value counts. Whole numbers
are integers; any other number keeps the text in which it was written.
-/

set_option autoImplicit false

namespace CrateAnalysis

/-- A JSON value. -/
inductive Json
  | null
  | bool (b : Bool)
  | int (n : Int)
  | decimal (text : String)
  | str (s : String)
  | arr (items : List Json)
  | obj (members : List (String × Json))

namespace Json

/-- The value of a name among the members of an object. -/
def member? (members : List (String × Json)) (name : String) : Option Json :=
  (members.reverse.find? (·.1 = name)).map (·.2)

/-- The value of a name; only an object has any. -/
def field? (v : Json) (name : String) : Option Json :=
  match v with
  | obj members => member? members name
  | _ => none

end Json

end CrateAnalysis
