import CrateAnalysis.Text.Parts

/-!
# Catalogue of grammar texts

The library comes with grammar texts, each known by a name. The catalogue lists for each text
how many lines it has and what its first line is. A name may be written as a path that stays
in the directory of the texts.
-/

set_option autoImplicit false

namespace CrateAnalysis

/-- What the catalogue says about a grammar text. A text has a first line, if only an empty one,
and this line ends before the first newline. -/
structure GrammarText where
  name : String
  lineCount : Nat
  firstLine : String
  lineCount_pos : 0 < lineCount
  newline_not_mem : '\n' ∉ firstLine.toList
deriving DecidableEq

namespace GrammarText

/-- The name that is meant when none is given. -/
def defaultName : String := "rust"

/-- A line that sets a heading off. -/
def rulerLine : String := String.ofList ("// ".toList ++ List.replicate 76 '=')

/-- A heading is set off within one line. -/
theorem newline_not_mem_rulerLine : '\n' ∉ rulerLine.toList := by
  decide +kernel

/-- The grammar texts of the library. -/
def catalogue : List GrammarText :=
  [⟨defaultName, 345, rulerLine, by decide, newline_not_mem_rulerLine⟩]

/-- Whether a step of a path leads to the directory in which it begins. -/
def staysHere (step : List Char) : Bool := step = ['.'] || step = []

/-- The last part of a name that is a path, if the steps before it lead nowhere else. A path that
begins with its separator does not begin here. -/
def baseName? (name : String) : Option String :=
  let parts := Text.split '/' name.toList
  if parts.dropLast.all staysHere && parts.dropLast.head? ≠ some [] then
    parts.getLast?.map String.ofList
  else none

/-- The grammar text of a name. -/
def find? (name : String) : Option GrammarText := do
  let base ← baseName? name
  catalogue.find? (·.name = base)

end GrammarText

end CrateAnalysis
