import CrateAnalysis.Json.Basic

/-!
# Parsing JSON

`Json.parse` reads a text that holds one JSON value and blanks around it. When the text is no
such value, the error is the offset of the character at which reading stopped: where a value,
a name in quotes, a colon, a comma or a closing bracket should be, or where something follows
the value. A string that never ends is reported at its opening quote, a control character in
it at its own place, a malformed escape at its backslash and malformed hexadecimal digits at
the letter before them.

The functions below work on what is left of the text. They name a place by the number of
characters from there to the end, so an error needs no position until the very end.

Besides the numbers of the format, the words `NaN`, `Infinity` and `-Infinity` are read.
-/

set_option autoImplicit false

namespace CrateAnalysis

namespace Json

/-- A place in a text, named by how many characters are left. -/
structure Fault where
  remaining : Nat
deriving DecidableEq

/-- Reading stops before these characters. -/
def stopAt {α : Type} (cs : List Char) : Except Fault α := .error ⟨cs.length⟩

/-- The blanks that may stand between the parts of a value. -/
def isBlank (c : Char) : Bool := c = ' ' || c = '\t' || c = '\n' || c = '\r'

/-- What follows the blanks. -/
def skipBlanks (cs : List Char) : List Char := cs.dropWhile isBlank

/-- The value of a hexadecimal digit. -/
def hexValue? (c : Char) : Option Nat :=
  if c.isDigit then some (c.toNat - '0'.toNat)
  else if 'a' ≤ c ∧ c ≤ 'f' then some (c.toNat - 'a'.toNat + 10)
  else if 'A' ≤ c ∧ c ≤ 'F' then some (c.toNat - 'A'.toNat + 10)
  else none

/-- The value of four hexadecimal digits. -/
def hexValue4? : List Char → Option Nat
  | [a, b, c, d] => do
    some ((((← hexValue? a) * 16 + (← hexValue? b)) * 16 + (← hexValue? c)) * 16 +
      (← hexValue? d))
  | _ => none

/-- Whether a code unit is the first half of a surrogate pair. -/
def isHighSurrogate (n : Nat) : Bool := 0xd800 ≤ n && n < 0xdc00

/-- Whether a code unit is the second half of a surrogate pair. -/
def isLowSurrogate (n : Nat) : Bool := 0xdc00 ≤ n && n < 0xe000

/-- The character of a surrogate pair. -/
def joinSurrogates (high low : Nat) : Char :=
  Char.ofNat (0x10000 + (high - 0xd800) * 0x400 + (low - 0xdc00))

/-- The character of one code unit. Half a pair is no character; the replacement character
takes its place. -/
def unitChar (n : Nat) : Char :=
  if isHighSurrogate n || isLowSurrogate n then '\ufffd' else Char.ofNat n

/-- The code unit whose four digits follow the letter `u`. They must not be the last of the
text, since a string has to end after them. -/
def codeUnit (cs : List Char) : Except Fault Nat :=
  match hexValue4? (cs.take 4) with
  | some n => if 4 < cs.length then .ok n else .error ⟨cs.length + 1⟩
  | none => .error ⟨cs.length + 1⟩

/-- The character of a hexadecimal escape whose digits stand here, and how many characters
the escape takes from here on. -/
def hexEscape (cs : List Char) : Except Fault (Char × Nat) := do
  let high ← codeUnit cs
  match isHighSurrogate high, cs.drop 4 with
  | true, '\\' :: 'u' :: digits =>
    if 4 < digits.length then
      let low ← codeUnit digits
      if isLowSurrogate low then .ok (joinSurrogates high low, 10)
      else .ok (unitChar high, 4)
    else .ok (unitChar high, 4)
  | _, _ => .ok (unitChar high, 4)

/-- The character that an escape stands for, read after its backslash, and how many
characters it takes from there on. A string that ends here was opened at `opening`. -/
def escape (opening : Fault) : List Char → Except Fault (Char × Nat)
  | [] => .error opening
  | c :: cs =>
    match c with
    | '"' => .ok ('"', 1)
    | '\\' => .ok ('\\', 1)
    | '/' => .ok ('/', 1)
    | 'b' => .ok ('\x08', 1)
    | 'f' => .ok ('\x0c', 1)
    | 'n' => .ok ('\n', 1)
    | 'r' => .ok ('\r', 1)
    | 't' => .ok ('\t', 1)
    | 'u' => do
      let (char, used) ← hexEscape cs
      .ok (char, used + 1)
    | _ => .error ⟨cs.length + 2⟩

/-- The rest of a string whose opening quote stands at `opening`, and what follows it. -/
def stringBody (opening : Fault) (cs : List Char) : Except Fault (List Char × List Char) :=
  match cs with
  | [] => .error opening
  | c :: rest =>
    if c = '"' then .ok ([], rest)
    else if c = '\\' then do
      let (char, used) ← escape opening rest
      let (text, after) ← stringBody opening (rest.drop used)
      .ok (char :: text, after)
    else if c.toNat < 0x20 then stopAt (c :: rest)
    else do
      let (text, after) ← stringBody opening rest
      .ok (c :: text, after)
termination_by cs.length

/-- A string whose opening quote was just read. -/
def stringAfterQuote (cs : List Char) : Except Fault (String × List Char) := do
  let (text, after) ← stringBody ⟨cs.length + 1⟩ cs
  .ok (String.ofList text, after)

/-- The whole part of a number: a zero alone, or digits that begin with another. -/
def wholePart? : List Char → Option (List Char × List Char)
  | '0' :: cs => some (['0'], cs)
  | c :: cs => if c.isDigit then some ((c :: cs).span Char.isDigit) else none
  | [] => none

/-- The fraction of a number, empty when there is none. -/
def fractionPart (cs : List Char) : List Char × List Char :=
  match cs with
  | '.' :: rest =>
    match rest.span Char.isDigit with
    | ([], _) => ([], cs)
    | (digits, after) => ('.' :: digits, after)
  | _ => ([], cs)

/-- The exponent of a number, empty when there is none. -/
def exponentPart (cs : List Char) : List Char × List Char :=
  match cs with
  | e :: rest =>
    if e = 'e' || e = 'E' then
      let (sign, unsigned) := match rest with
        | '+' :: more => (['+'], more)
        | '-' :: more => (['-'], more)
        | _ => ([], rest)
      match unsigned.span Char.isDigit with
      | ([], _) => ([], cs)
      | (digits, after) => (e :: sign ++ digits, after)
    else ([], cs)
  | [] => ([], cs)

/-- The value of decimal digits. -/
def digitsValue (digits : List Char) : Nat :=
  digits.foldl (fun n c => n * 10 + (c.toNat - '0'.toNat)) 0

/-- A number, and what follows it. -/
def number (cs : List Char) : Except Fault (Json × List Char) :=
  let (sign, unsigned) := match cs with
    | '-' :: rest => (['-'], rest)
    | _ => ([], cs)
  match wholePart? unsigned with
  | none => stopAt cs
  | some (whole, afterWhole) =>
    let (fraction, afterFraction) := fractionPart afterWhole
    let (exponent, after) := exponentPart afterFraction
    if fraction.isEmpty && exponent.isEmpty then
      let n : Int := digitsValue whole
      .ok (.int (if sign.isEmpty then n else -n), after)
    else .ok (.decimal (String.ofList (sign ++ whole ++ fraction ++ exponent)), after)

/-- What follows a word, if the text begins with it. -/
def afterWord? (word : String) (cs : List Char) : Option (List Char) :=
  if word.toList.isPrefixOf cs then some (cs.drop word.length) else none

/-- The values that are written as a word. -/
def words : List (String × Json) :=
  [("null", .null), ("true", .bool true), ("false", .bool false), ("NaN", .decimal "NaN"),
    ("Infinity", .decimal "Infinity"), ("-Infinity", .decimal "-Infinity")]

/-- A value that is a word or a number, and what follows it. -/
def wordOrNumber (cs : List Char) : Except Fault (Json × List Char) :=
  match words.findSome? fun (word, v) => (afterWord? word cs).map (v, ·) with
  | some found => .ok found
  | none => number cs

mutual

/-- The value that begins here, and what follows it. Every step takes a character, so the
length of the text bounds the depth of the calls. -/
def value : (depth : Nat) → List Char → Except Fault (Json × List Char)
  | 0, cs => stopAt cs
  | _ + 1, '"' :: cs => do
    let (text, after) ← stringAfterQuote cs
    .ok (.str text, after)
  | depth + 1, '[' :: cs =>
    match skipBlanks cs with
    | ']' :: after => .ok (.arr [], after)
    | first => do
      let (items, after) ← items depth first
      .ok (.arr items, after)
  | depth + 1, '\x7b' :: cs =>
    match skipBlanks cs with
    | '\x7d' :: after => .ok (.obj [], after)
    | first => do
      let (members, after) ← members depth first
      .ok (.obj members, after)
  | _ + 1, cs => wordOrNumber cs

/-- The items of a list from here on, and what follows its bracket. -/
def items : (depth : Nat) → List Char → Except Fault (List Json × List Char)
  | 0, cs => stopAt cs
  | depth + 1, cs => do
    let (v, after) ← value depth cs
    match skipBlanks after with
    | ']' :: rest => .ok ([v], rest)
    | ',' :: rest => do
      let (vs, rest) ← items depth (skipBlanks rest)
      .ok (v :: vs, rest)
    | rest => stopAt rest

/-- The members of an object from here on, and what follows its brace. -/
def members : (depth : Nat) → List Char → Except Fault (List (String × Json) × List Char)
  | 0, cs => stopAt cs
  | depth + 1, '"' :: cs => do
    let (name, after) ← stringAfterQuote cs
    match skipBlanks after with
    | ':' :: rest => do
      let (v, after) ← value depth (skipBlanks rest)
      match skipBlanks after with
      | '\x7d' :: rest => .ok ([(name, v)], rest)
      | ',' :: rest => do
        let (others, rest) ← members depth (skipBlanks rest)
        .ok ((name, v) :: others, rest)
      | rest => stopAt rest
    | rest => stopAt rest
  | _ + 1, cs => stopAt cs

end

/-- The one value of a text, or the offset at which it fails to be one. -/
def parse (text : List Char) : Except Nat Json :=
  let outcome : Except Fault Json := do
    let (v, after) ← value (text.length + 1) (skipBlanks text)
    match skipBlanks after with
    | [] => .ok v
    | rest => stopAt rest
  outcome.mapError fun fault => text.length - fault.remaining

end Json

end CrateAnalysis
