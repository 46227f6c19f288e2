/-!
# Positions in a source text

A position names a place between two characters: its line counts from 1 and its column
counts the characters since the last newline, from 0. Only the newline character starts a
new line, and every other character, a carriage return or a tab included, takes one column.

`endPosition` reads the position after a whole text off its newlines. `Position.advance`
moves over one character, and folding it over a text from `Position.start` is the second
description of the same place. A `Cursor` counts lines and columns within one stretch of a
larger text, both from 1, and `Cursor.absolute` says where it stands in the larger text once
the position of the stretch is known.
-/

set_option autoImplicit false

namespace CrateAnalysis

/-- A place in a text: the line counts from 1, the column from 0. Both are integers, so that
a cursor that stands before its stretch still has a position. -/
structure Position where
  line : Int
  column : Int
deriving DecidableEq

namespace Position

/-- The place before the first character. -/
def start : Position := ⟨1, 0⟩

/-- The place after one more character. -/
def advance (p : Position) (c : Char) : Position :=
  if c = '\n' then ⟨p.line + 1, 0⟩ else ⟨p.line, p.column + 1⟩

end Position

/-- How many characters follow the last newline of a text, which is all of them when it has
none. -/
def lastLineLength (text : List Char) : Nat :=
  (text.reverse.takeWhile (· ≠ '\n')).length

/-- The place just after the last character of a text. -/
def endPosition (text : List Char) : Position :=
  ⟨text.count '\n' + 1, lastLineLength text⟩

/-- A place within a stretch of text, its line and its column both counted from 1. -/
structure Cursor where
  line : Int
  column : Int
deriving DecidableEq

namespace Cursor

/-- The cursor at the first character of a stretch. -/
def start : Cursor := ⟨1, 1⟩

/-- The cursor after it has read a piece of text. -/
def after (cursor : Cursor) (text : List Char) : Cursor :=
  if '\n' ∈ text then
    ⟨cursor.line + text.count '\n', lastLineLength text + 1⟩
  else
    ⟨cursor.line, cursor.column + text.length⟩

/-- Where a cursor stands in the whole text when its stretch begins at `base`: on the first
line of the stretch the columns of `base` come before it, on a later line nothing does. -/
def absolute (cursor : Cursor) (base : Position) : Position :=
  if cursor.line = 1 then
    ⟨base.line, base.column + cursor.column - 1⟩
  else
    ⟨base.line + cursor.line - 1, cursor.column - 1⟩

end Cursor

end CrateAnalysis
