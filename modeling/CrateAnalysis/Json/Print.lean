import CrateAnalysis.Json.Basic

/-!
# Printing JSON

A value is printed in one of two layouts. The compact one has no blanks. The indented one
puts each item and each member on a line of its own, two more blanks deep than what encloses
it, and leaves an empty list or object closed up. In a string only the quote, the backslash
and the characters below the blank are escaped, by their short escape if they have one.
-/

set_option autoImplicit false

namespace CrateAnalysis

namespace Json

/-- A hexadecimal digit, in lower case. -/
def hexDigit (n : Nat) : Char :=
  if n < 10 then Char.ofNat ('0'.toNat + n) else Char.ofNat ('a'.toNat + (n - 10))

/-- How a character is written inside a string. -/
def escapeChar (c : Char) : List Char :=
  match c with
  | '"' => ['\\', '"']
  | '\\' => ['\\', '\\']
  | '\n' => ['\\', 'n']
  | '\r' => ['\\', 'r']
  | '\t' => ['\\', 't']
  | '\x08' => ['\\', 'b']
  | '\x0c' => ['\\', 'f']
  | c =>
    if c.toNat < 0x20 then
      ['\\', 'u', '0', '0', hexDigit (c.toNat / 16), hexDigit (c.toNat % 16)]
    else [c]

/-- A string between its quotes. -/
def quote (s : String) : List Char :=
  '"' :: s.toList.flatMap escapeChar ++ ['"']

/-- A value that is neither a list nor an object. -/
def scalar : Json → List Char
  | bool true => "true".toList
  | bool false => "false".toList
  | int n => (toString n).toList
  | decimal text => text.toList
  | str s => quote s
  | _ => "null".toList

mutual

/-- A value without blanks. -/
def compact : Json → List Char
  | arr [] => ['[', ']']
  | arr (v :: vs) => '[' :: (v.compact ++ compactItems vs)
  | obj [] => ['\x7b', '\x7d']
  | obj ((name, v) :: members) =>
    '\x7b' :: (quote name ++ ':' :: v.compact ++ compactMembers members)
  | v => v.scalar

/-- The items after the first, and the end of the list. -/
def compactItems : List Json → List Char
  | [] => [']']
  | v :: vs => ',' :: (v.compact ++ compactItems vs)

/-- The members after the first, and the end of the object. -/
def compactMembers : List (String × Json) → List Char
  | [] => ['\x7d']
  | (name, v) :: members =>
    ',' :: (quote name ++ ':' :: v.compact ++ compactMembers members)

end

/-- The beginning of a line at some depth. -/
def newLine (depth : Nat) : List Char := '\n' :: List.replicate (2 * depth) ' '

mutual

/-- A value with one item or member on a line, at some depth. -/
def indented (depth : Nat) : Json → List Char
  | arr [] => ['[', ']']
  | arr (v :: vs) =>
    '[' :: (newLine (depth + 1) ++ indented (depth + 1) v ++ indentedItems depth vs)
  | obj [] => ['\x7b', '\x7d']
  | obj ((name, v) :: members) =>
    '\x7b' :: (newLine (depth + 1) ++ quote name ++ ':' :: ' ' :: indented (depth + 1) v ++
      indentedMembers depth members)
  | v => v.scalar

/-- The items after the first, and the end of the list. -/
def indentedItems (depth : Nat) : List Json → List Char
  | [] => newLine depth ++ [']']
  | v :: vs =>
    ',' :: (newLine (depth + 1) ++ indented (depth + 1) v ++ indentedItems depth vs)

/-- The members after the first, and the end of the object. -/
def indentedMembers (depth : Nat) : List (String × Json) → List Char
  | [] => newLine depth ++ ['\x7d']
  | (name, v) :: members =>
    ',' :: (newLine (depth + 1) ++ quote name ++ ':' :: ' ' :: indented (depth + 1) v ++
      indentedMembers depth members)

end

/-- The text of a value on one line. -/
def compactText (v : Json) : String := String.ofList v.compact

/-- The text of a value with indentation. -/
def indentedText (v : Json) : String := String.ofList (v.indented 0)

end Json

end CrateAnalysis
