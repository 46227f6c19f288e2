import CrateAnalysis.Json.Basic

/-!
# Values in messages

A message about a tag shows the value that was found in its place. A text stands as it is; a
truth value and the null value have names of their own; in a list or an object the texts are
quoted.
-/

set_option autoImplicit false

namespace CrateAnalysis

namespace Json

/-- A character of a quoted text that is shown inside another value. -/
def shownChar (quote c : Char) : List Char :=
  if c = quote || c = '\\' then ['\\', c]
  else if c = '\n' then ['\\', 'n']
  else if c = '\r' then ['\\', 'r']
  else if c = '\t' then ['\\', 't']
  else if c.toNat < 0x20 || c.toNat = 0x7f then
    let digit (n : Nat) : Char := "0123456789abcdef".toList.getD n '0'
    ['\\', 'x', digit (c.toNat / 16), digit (c.toNat % 16)]
  else [c]

/-- A text in quotes: single ones, unless it holds some and no double ones. -/
def shownText (s : String) : String :=
  let quote := if s.toList.contains '\'' && !s.toList.contains '"' then '"' else '\''
  String.ofList (quote :: s.toList.flatMap (shownChar quote) ++ [quote])

mutual

/-- How a value is shown inside another one. -/
def shown : Json → String
  | null => "None"
  | bool true => "True"
  | bool false => "False"
  | int n => toString n
  | decimal text => text
  | str s => shownText s
  | arr items => "[" ++ ", ".intercalate (shownItems items) ++ "]"
  | obj members => "\x7b" ++ ", ".intercalate (shownMembers members) ++ "\x7d"

/-- The items of a list, each as it is shown. -/
def shownItems : List Json → List String
  | [] => []
  | v :: vs => v.shown :: shownItems vs

/-- The members of an object, each as it is shown. -/
def shownMembers : List (String × Json) → List String
  | [] => []
  | (name, v) :: members => (shownText name ++ ": " ++ v.shown) :: shownMembers members

end

/-- How a value that was given for a tag is shown: a text as it is, all else as inside
another value. -/
def shownTag : Json → String
  | str s => s
  | v => v.shown

end Json

end CrateAnalysis
