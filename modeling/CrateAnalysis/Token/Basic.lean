import CrateAnalysis.Source.Position
import CrateAnalysis.Token.Terminal

/-!
# Lexemes and tokens

A lexeme is a piece of the source text that stands for a terminal. A token is what the rest
of an analysis sees of it: the symbolic name of its kind, its text and its position. Tokens
may also come from elsewhere, so their kind is any text; the end of input is a token of its
own, which stands for no lexeme.
-/

set_option autoImplicit false

namespace CrateAnalysis

/-- A piece of the source text that stands for a terminal. -/
structure Lexeme where
  terminal : Terminal
  text : List Char
  position : Position
deriving DecidableEq

/-- A token, as the stages after the lexer see it. -/
structure Token where
  kind : String
  text : String
  position : Position
deriving DecidableEq

namespace Token

/-- The kind of the token that ends every list of tokens. -/
def endKind : String := "EOF"

/-- The text of the token that ends every list of tokens. -/
def endText : String := "<EOF>"

/-- The token that stands for the end of input. -/
def ofEnd (position : Position) : Token := ⟨endKind, endText, position⟩

end Token

/-- The token of a lexeme. -/
def Lexeme.token (lexeme : Lexeme) : Token :=
  ⟨lexeme.terminal.name, String.ofList lexeme.text, lexeme.position⟩

end CrateAnalysis
