import CrateAnalysis.Chart.Derivation
import CrateAnalysis.Grammar.Crate
import CrateAnalysis.Syntax.Expected
import CrateAnalysis.Token.Lexing

/-!
# Parsing a source text

The parser reads the lexemes of a source text up to the first character that starts no token.
If they form a crate and there is no such character, the outcome is the concrete tree of the
crate with the end of input as its last leaf. Otherwise the tree is flat: the root holds all
the tokens of the text. A lexeme that cannot stand where it does, or an input that ends too
early, gives one diagnostic. A character that starts no token gives none here, since it is
reported with the tokens.
-/

set_option autoImplicit false

namespace CrateAnalysis

/-- A concrete tree and the diagnostics about the syntax. -/
structure ParseOutcome where
  tree : Cst
  diagnostics : List Diagnostic

/-- The leaf of a token. -/
def Token.leaf (token : Token) : Leaf := ⟨token.text, some token.kind⟩

/-- The name of the root of every concrete tree of a source text. -/
def rootName : String := RuleName.crate.name

/-- A tree that holds the tokens of a text and no structure. -/
def flatTree (tokens : List Token) : Cst :=
  .rule rootName (tokens.map fun token => .leaf token.leaf)

/-- What becomes of reading the lexemes of a text. -/
inductive Reading
  | complete (children : List Cst)
  | unexpected (lexeme : Lexeme) (expected : List Terminal)
  | cutShort (expected : List Terminal)

/-- Reads a list of lexemes as a crate. -/
def readLexemes (lexemes : List Lexeme) : Reading :=
  let chart := crateGrammar.chart (lexemes.map (·.terminal))
  match lexemes.drop (Chart.reached chart) with
  | lexeme :: _ => .unexpected lexeme (Chart.expected chart)
  | [] =>
    let leaves := (lexemes.map (·.token.leaf)).toArray
    match Chart.children? crateGrammar chart leaves with
    | some children => .complete children
    | none => .cutShort (Chart.expected chart)

/-- Describes a list of terminals. -/
def describeTerminals (terminals : List Terminal) : String :=
  Expected.describe (terminals.map Terminal.name)

/-- The concrete tree of a source text, and what is wrong with its syntax. -/
def parse (code : String) : ParseOutcome :=
  let cs := code.toList
  let fallback := flatTree (tokenize code).tokens
  let (lexemes, stray) := lexStretch .start .start cs
  match readLexemes lexemes, stray with
  | .unexpected lexeme expected, _ =>
    ⟨fallback, [.unexpectedToken lexeme.position (String.ofList lexeme.text)
      (describeTerminals expected)]⟩
  | _, some _ => ⟨fallback, []⟩
  | .cutShort expected, none =>
    ⟨fallback, [.unexpectedEnd (endPosition cs) (describeTerminals expected)]⟩
  | .complete children, none =>
    ⟨.rule rootName (children ++ [.leaf (Token.ofEnd (endPosition cs)).leaf]), []⟩

end CrateAnalysis
