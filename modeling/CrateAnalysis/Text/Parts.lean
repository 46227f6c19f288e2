/-!
# Parts and blanks of a text

`isSpace` is the class of characters that Unicode calls white space, together with the four
separators U+001C to U+001F. `trim` drops the blanks at both ends of a text, for any class of
blanks. `split` cuts a text at every occurrence of a character.
-/

set_option autoImplicit false

namespace CrateAnalysis

namespace Text

/-- The white space of Unicode as ranges of code points, both ends included. -/
def unicodeSpaces : List (Nat × Nat) :=
  [(0x09, 0x0d), (0x20, 0x20), (0x85, 0x85), (0xa0, 0xa0), (0x1680, 0x1680),
    (0x2000, 0x200a), (0x2028, 0x2029), (0x202f, 0x202f), (0x205f, 0x205f),
    (0x3000, 0x3000)]

/-- Whether Unicode calls a character white space. -/
def isUnicodeSpace (c : Char) : Bool :=
  unicodeSpaces.any fun (first, last) => first ≤ c.toNat && c.toNat ≤ last

/-- Whether a character is white space or one of the four information separators. -/
def isSpace (c : Char) : Bool :=
  isUnicodeSpace c || (0x1c ≤ c.toNat && c.toNat ≤ 0x1f)

/-- A text without the blanks at its two ends. -/
def trim (blank : Char → Bool) (cs : List Char) : List Char :=
  ((cs.dropWhile blank).reverse.dropWhile blank).reverse

/-- The parts of a text between the occurrences of a character; there is always one part more
than there are occurrences. -/
def split (separator : Char) : List Char → List (List Char)
  | [] => [[]]
  | c :: cs =>
    if c = separator then [] :: split separator cs
    else
      let parts := split separator cs
      (c :: parts.headD []) :: parts.tail

end Text

end CrateAnalysis
