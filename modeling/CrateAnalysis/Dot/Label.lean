import CrateAnalysis.Text.Parts
import CrateAnalysis.Tree.Lisp

/-!
# Labels of a drawing

The label of a node passes through two layers before it stands in a drawing. `escape` writes
backslashes, quotes and the characters that would break a line as escapes. `quote` then writes
the escaped text bare where the drawing language allows that, and between quotes otherwise; a
quote that a backslash already protects is left as it is.

`displayText` is what a leaf of a concrete tree shows before any escaping.
-/

set_option autoImplicit false

namespace CrateAnalysis

namespace Dot

/-- A text with backslashes, quotes, newlines, tabs and carriage returns as escapes. The
backslash has to be the first, since the others bring backslashes with them. -/
def escapeChars (cs : List Char) : List Char :=
  substitute '\r' ['\\', 'r'] (substitute '\t' ['\\', 't'] (substitute '\n' ['\\', 'n']
    (substitute '"' ['\\', '"'] (substitute '\\' ['\\', '\\'] cs))))

/-- The escaped form of a text; where there is no text, it is empty. -/
def escape (text : Option String) : String :=
  match text with
  | some s => String.ofList (escapeChars s.toList)
  | none => ""

/-- The words of the drawing language, which are never written bare. -/
def reservedWords : List (List Char) :=
  ["node", "edge", "graph", "digraph", "subgraph", "strict"].map String.toList

/-- A letter or underscore, then letters, digits and underscores. -/
def isIdentifier : List Char → Bool
  | [] => false
  | c :: cs => (c.isAlpha || c = '_') && cs.all fun d => d.isAlphanum || d = '_'

/-- Digits with at most one point among them, and a digit somewhere. -/
def isUnsignedNumeral (cs : List Char) : Bool :=
  match cs.span Char.isDigit with
  | ([], '.' :: fraction) => !fraction.isEmpty && fraction.all Char.isDigit
  | ([], _) => false
  | (_ :: _, []) => true
  | (_ :: _, '.' :: fraction) => fraction.all Char.isDigit
  | _ => false

/-- A numeral, with a minus sign before it or without. -/
def isNumeral : List Char → Bool
  | '-' :: cs => isUnsignedNumeral cs
  | cs => isUnsignedNumeral cs

/-- Whether a text may be written bare. -/
def isBare (cs : List Char) : Bool :=
  (isIdentifier cs || isNumeral cs) && !reservedWords.contains (cs.map Char.toLower)

/-- Protects every quote that an even number of backslashes precedes; `odd` says whether an
odd number stands right before the text. -/
def protectQuotes : (odd : Bool) → List Char → List Char
  | _, [] => []
  | odd, c :: cs =>
    if c = '\\' then c :: protectQuotes (!odd) cs
    else if c = '"' && !odd then '\\' :: '"' :: protectQuotes false cs
    else c :: protectQuotes false cs

/-- A text as it stands in a drawing. -/
def quote (cs : List Char) : List Char :=
  if isBare cs then cs else '"' :: protectQuotes false cs ++ ['"']

/-- The names under which texts of one blank character are shown. -/
def blankNames : List (String × String) :=
  [(" ", "SPACE"), ("\n", "NEWLINE"), ("\t", "TAB")]

/-- What a token shows: the end of input and blanks have names, all else shows its text. -/
def displayText (text : String) : String :=
  if text = "<EOF>" then "EOF"
  else if !text.toList.isEmpty && text.toList.all Text.isSpace then
    (blankNames.lookup text).getD "WHITESPACE"
  else text

end Dot

end CrateAnalysis
