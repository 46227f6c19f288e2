import CrateAnalysis.Token.Terminal

/-!
# Patterns

A pattern recognises one class of text at the beginning of a list of characters: a number, a
word, a string, a character, an operator, or one of the three kinds of layout. `length?` says
how many characters the pattern takes, and `Pattern.order` lists the patterns in the order in
which they are tried: the first that takes anything wins.

A pattern looks at nothing before its first character, so what it takes depends on the rest
of the text alone.
-/

set_option autoImplicit false

namespace CrateAnalysis

/-- A class of text that stands on its own in a source. -/
inductive Pattern
  | float | integer | word | string | blockComment | blank | lineComment | character
  | operator (terminal : Terminal)
deriving DecidableEq

namespace Pattern

/-- A decimal digit or an underscore, which may separate digits. -/
def isDigitMark (c : Char) : Bool := c.isDigit || c = '_'

/-- A character that may begin a word. -/
def startsWord (c : Char) : Bool := c.isAlpha || c = '_'

/-- A character that may stand inside a word. -/
def isWordMark (c : Char) : Bool := c.isAlphanum || c = '_'

/-- The characters that only separate tokens. -/
def isBlank (c : Char) : Bool :=
  c = ' ' || c = '\t' || c = '\x0c' || c = '\r' || c = '\n'

/-- The number of leading characters with a property. -/
def runLength (p : Char → Bool) (cs : List Char) : Nat :=
  (cs.takeWhile p).length

/-- A digit and the digits and underscores after it. -/
def digits? : List Char → Option Nat
  | c :: cs => if c.isDigit then some (runLength isDigitMark cs + 1) else none
  | [] => none

/-- The length of an exponent: a letter e, a sign if there is one, and at least one digit. An
exponent that lacks its digits is none at all. -/
def exponentLength : List Char → Nat
  | c :: cs =>
    if c = 'e' || c = 'E' then
      let signed := match cs with
        | s :: _ => if s = '+' || s = '-' then 1 else 0
        | [] => 0
      match runLength Char.isDigit (cs.drop signed) with
      | 0 => 0
      | n + 1 => 1 + signed + (n + 1)
    else 0
  | [] => 0

/-- The type names that may end a number with a fraction. -/
def floatSuffixes : List (List Char) := ["f32", "f64"].map String.toList

/-- The type names that may end a whole number. -/
def integerSuffixes : List (List Char) :=
  ["u8", "u16", "u32", "u64", "u128", "usize", "i8", "i16", "i32", "i64", "i128", "isize"].map
    String.toList

/-- The length of the suffix that stands here, 0 when none does. -/
def suffixLength (suffixes : List (List Char)) (cs : List Char) : Nat :=
  ((suffixes.find? (·.isPrefixOf cs)).map List.length).getD 0

/-- A number with a fraction, and with an exponent and a suffix if they are there. -/
def floatLength? (cs : List Char) : Option Nat := do
  let whole ← digits? cs
  match cs.drop whole with
  | '.' :: fraction =>
    let part ← digits? fraction
    let exponent := exponentLength (fraction.drop part)
    let suffix := suffixLength floatSuffixes (fraction.drop (part + exponent))
    some (whole + 1 + part + exponent + suffix)
  | _ => none

/-- A whole number, with a suffix if it is there. -/
def integerLength? (cs : List Char) : Option Nat := do
  let whole ← digits? cs
  some (whole + suffixLength integerSuffixes (cs.drop whole))

/-- A word: a letter or underscore, then letters, digits and underscores. -/
def wordLength? : List Char → Option Nat
  | c :: cs => if startsWord c then some (runLength isWordMark cs + 1) else none
  | [] => none

/-- How many characters lead up to the closing quote of a string, that quote included. A
quote closes the string when an even number of backslashes stands before it; `odd` says
whether the run of backslashes read so far is odd. A string ends on its own line. -/
def stringTail? : Bool → List Char → Option Nat
  | _, [] => none
  | odd, c :: cs =>
    if c = '\n' then none
    else if odd then (stringTail? false cs).map (· + 1)
    else if c = '"' then some 1
    else (stringTail? (c = '\\') cs).map (· + 1)

/-- A string between double quotes. -/
def stringLength? : List Char → Option Nat
  | '"' :: cs => (stringTail? false cs).map (· + 1)
  | _ => none

/-- How many characters lead up to the end of a block comment, its two closing characters
included. -/
def blockCommentTail? : List Char → Option Nat
  | '*' :: '/' :: _ => some 2
  | _ :: cs => (blockCommentTail? cs).map (· + 1)
  | [] => none

/-- A block comment, which ends at the first closing mark. -/
def blockCommentLength? : List Char → Option Nat
  | '/' :: '*' :: cs => (blockCommentTail? cs).map (· + 2)
  | _ => none

/-- A stretch of blanks. -/
def blankLength? (cs : List Char) : Option Nat :=
  match runLength isBlank cs with
  | 0 => none
  | n + 1 => some (n + 1)

/-- A comment that runs to the end of its line. -/
def lineCommentLength? : List Char → Option Nat
  | '/' :: '/' :: cs => some (runLength (· ≠ '\n') cs + 2)
  | _ => none

/-- A character between single quotes: a backslash with any character but a newline, or one
character that is neither a quote nor a backslash. -/
def characterLength? : List Char → Option Nat
  | '\'' :: '\\' :: c :: '\'' :: _ => if c = '\n' then none else some 4
  | '\'' :: c :: '\'' :: _ => if c = '\'' || c = '\\' then none else some 3
  | _ => none

/-- A fixed spelling. -/
def spellingLength? (spelling : Option String) (cs : List Char) : Option Nat := do
  let text := (← spelling).toList
  if text.isPrefixOf cs then some text.length else none

/-- How many characters a pattern takes, `none` when it does not fit. -/
def length? : Pattern → List Char → Option Nat
  | .float => floatLength?
  | .integer => integerLength?
  | .word => wordLength?
  | .string => stringLength?
  | .blockComment => blockCommentLength?
  | .blank => blankLength?
  | .lineComment => lineCommentLength?
  | .character => characterLength?
  | .operator terminal => spellingLength? terminal.spelling?

/-- The patterns in the order in which they are tried. -/
def order : List Pattern :=
  [.float, .integer, .word, .string, .blockComment, .blank, .lineComment, .character] ++
    Terminal.operators.map .operator

/-- The first pattern that fits, with the number of characters that it takes. -/
def first? (cs : List Char) : Option (Pattern × Nat) :=
  order.findSome? fun pattern => (pattern.length? cs).map (pattern, ·)

/-- The terminal of a text that a pattern has taken; layout has none. -/
def terminal? (pattern : Pattern) (text : List Char) : Option Terminal :=
  match pattern with
  | .float => some .float
  | .integer => some .integer
  | .word => some (Terminal.ofWord text)
  | .string => some .string
  | .character => some .character
  | .operator terminal => some terminal
  | .blockComment | .blank | .lineComment => none

end Pattern

end CrateAnalysis
