import CrateAnalysis.Source.Diagnostic
import CrateAnalysis.Token.Basic
import CrateAnalysis.Token.Pattern

/-!
# Lexing

The lexer reads a stretch of text up to the first character that starts no token, the stray,
and counts lines and columns within that stretch. After a stray it begins anew on the rest of
the text, and the new stretch is placed just after the stray. `lexAll` is the whole run: the
lexemes and the strays of a text, each with its position in the text.

`tokenize` turns the run into tokens and diagnostics. Its list of tokens always ends with the
end of input.
-/

set_option autoImplicit false

namespace CrateAnalysis

/-- A character that starts no token. -/
structure Stray where
  char : Char
  position : Position
deriving DecidableEq

/-- The lexemes of a stretch of text up to its first stray, and that stray with the text
after it, if there is one. The stretch begins at `base`, and `cursor` counts within it. -/
def lexStretch (base : Position) (cursor : Cursor) (cs : List Char) :
    List Lexeme × Option (Stray × List Char) :=
  match cs with
  | [] => ([], none)
  | c :: rest =>
    match Pattern.first? (c :: rest) with
    | some (pattern, n + 1) =>
      let text := c :: rest.take n
      let (lexemes, stray) := lexStretch base (cursor.after text) (rest.drop n)
      match pattern.terminal? text with
      | some terminal => (⟨terminal, text, cursor.absolute base⟩ :: lexemes, stray)
      | none => (lexemes, stray)
    | _ => ([], some (⟨c, cursor.absolute base⟩, rest))
termination_by cs.length

/-- What follows a stray is shorter than the stretch that it ends. -/
theorem length_lt_of_lexStretch {base : Position} {cursor : Cursor} {cs rest : List Char}
    {stray : Stray} (h : (lexStretch base cursor cs).2 = some (stray, rest)) :
    rest.length < cs.length := by
  fun_induction lexStretch base cursor cs with
  | case1 => simp at h
  | case2 cursor c tail pattern n _ text lexemes found eq terminal _ ih =>
    have := ih (by rw [eq]; exact h)
    simp only [List.length_drop, List.length_cons] at this ⊢
    omega
  | case3 cursor c tail pattern n _ text lexemes found eq _ ih =>
    have := ih (by rw [eq]; exact h)
    simp only [List.length_drop, List.length_cons] at this ⊢
    omega
  | case4 =>
    simp only [Option.some.injEq, Prod.mk.injEq] at h
    obtain ⟨-, rfl⟩ := h
    simp

/-- The lexemes and the strays of a text that begins at `base`. -/
def lexAll (base : Position) (cs : List Char) : List Lexeme × List Stray :=
  match _h : lexStretch base .start cs with
  | (lexemes, none) => (lexemes, [])
  | (lexemes, some (stray, rest)) =>
    let (laterLexemes, laterStrays) := lexAll (stray.position.advance stray.char) rest
    (lexemes ++ laterLexemes, stray :: laterStrays)
termination_by cs.length
decreasing_by exact length_lt_of_lexStretch (congrArg Prod.snd ‹_›)

/-- The tokens of a text and the diagnostics of its strays. -/
structure LexOutcome where
  tokens : List Token
  diagnostics : List Diagnostic
deriving DecidableEq

/-- The diagnostic of a stray. -/
def Stray.diagnostic (stray : Stray) : Diagnostic :=
  .unrecognisedCharacter stray.position stray.char

/-- The tokens of a source text, the end of input last, and one diagnostic for each character
that starts no token. -/
def tokenize (code : String) : LexOutcome :=
  let cs := code.toList
  let (lexemes, strays) := lexAll .start cs
  { tokens := lexemes.map Lexeme.token ++ [Token.ofEnd (endPosition cs)]
    diagnostics := strays.map Stray.diagnostic }

end CrateAnalysis
