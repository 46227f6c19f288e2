import CrateAnalysis.Source.Position

/-!
# Diagnostics

A diagnostic is a message about one place of the source text. The messages are written here,
once for the whole library: a character that starts no token, a token that cannot stand where
it does, an end of input that comes too early, and the failure of a stage of the analysis,
which has no place of its own and is reported at line 0, column 0.
-/

set_option autoImplicit false

namespace CrateAnalysis

/-- A message about one place of the source text. -/
structure Diagnostic where
  position : Position
  message : String
deriving DecidableEq

namespace Diagnostic

/-- The character `c` starts no token. -/
def unrecognisedCharacter (position : Position) (c : Char) : Diagnostic :=
  ⟨position, "carácter no reconocido '" ++ c.toString ++ "'"⟩

/-- The token with this text cannot stand here; `expected` describes what could. -/
def unexpectedToken (position : Position) (text expected : String) : Diagnostic :=
  ⟨position, "entrada inesperada '" ++ text ++ "', se esperaba " ++ expected⟩

/-- The input ends too early; `expected` describes what could follow. -/
def unexpectedEnd (position : Position) (expected : String) : Diagnostic :=
  ⟨position, "fin de entrada inesperado, se esperaba " ++ expected⟩

/-- A stage of the analysis failed for a reason outside the source text. -/
def stageFailure (reason : String) : Diagnostic :=
  ⟨⟨0, 0⟩, "Error inesperado: " ++ reason⟩

end Diagnostic

end CrateAnalysis
