import CrateAnalysis.Token.Basic

/-!
# What could come next

A message about a syntax error lists the terminals that could stand at its place. A terminal
with one spelling is shown as that spelling between quotes, a class of text by its name. The
list depends on the set of the shown texts alone: closing delimiters come first, in a fixed
order, so that they are never cut off, the rest follows in the order of code points, and at
most ten are shown.
-/

set_option autoImplicit false

namespace CrateAnalysis

namespace Expected

/-- The name under which the end of input can be asked for. -/
def endName : String := "$END"

/-- How a terminal is shown. -/
def showTerminal (terminal : Terminal) : String :=
  match terminal.spelling? with
  | some text => "'" ++ text ++ "'"
  | none => terminal.name

/-- How the terminal of a name is shown; a name that no terminal has stands for itself. -/
def literal (name : String) : String :=
  if name = endName then Token.endText
  else (Terminal.ofName? name).elim name showTerminal

/-- The closing delimiters, in the order in which they are listed. -/
def closers : List String :=
  [.rightBrace, .rightParen, .rightBracket, .semicolon].map showTerminal

/-- The rank of a literal: closing delimiters rank by their order, all else after them. -/
def rank (literal : String) : Nat := closers.idxOf literal

/-- The order in which literals are listed. -/
def precedes (a b : String) : Bool :=
  rank a < rank b || (rank a = rank b && decide (a ≤ b))

/-- The literals of some names, each once, in the order in which they are listed. -/
def ordered (names : List String) : List String :=
  (names.map literal).eraseDups.mergeSort precedes

/-- How many literals a message shows. -/
def limit : Nat := 10

/-- The text that says what was expected. -/
def describe (names : List String) : String :=
  match ordered names with
  | [] => "nada"
  | literals =>
    ", ".intercalate (literals.take limit) ++
      if limit < literals.length then ", ..." else ""

end Expected

end CrateAnalysis
