import CrateAnalysis.Text.Parts

/-!
# Where a text is cut

A text that was put together from parts is cut into these parts again, if it can be told where each
of them ends: a line ends at its separator, and a word before the first character that is not of the
word.
-/

set_option autoImplicit false

namespace CrateAnalysis

namespace Text

/-- A word and what follows it, where a character that is not of the word begins. -/
theorem takeWhile_dropWhile_append {p : Char → Bool} {word rest : List Char}
    (hword : ∀ c ∈ word, p c) (hrest : rest.head?.any p = false) :
    (word ++ rest).takeWhile p = word ∧ (word ++ rest).dropWhile p = rest := by
  rw [List.takeWhile_append_of_pos hword, List.dropWhile_append_of_pos hword]
  cases rest with
  | nil => simp
  | cons c rest =>
    have hc : p c = false := hrest
    simp [hc]

/-- A text has one part at least. -/
theorem split_ne_nil (separator : Char) (cs : List Char) : split separator cs ≠ [] := by
  cases cs with
  | nil => simp [split]
  | cons c cs =>
    rw [split]
    split <;> simp

/-- A text without the separator is the only part of itself. -/
theorem split_of_not_mem {separator : Char} {cs : List Char} (h : separator ∉ cs) :
    split separator cs = [cs] := by
  induction cs with
  | nil => rfl
  | cons c cs ih =>
    rw [List.mem_cons, not_or] at h
    simp [split, Ne.symm h.1, ih h.2]

/-- A line that is ended by a separator is the first part. -/
theorem split_append {separator : Char} {line : List Char} (h : separator ∉ line)
    (rest : List Char) :
    split separator (line ++ separator :: rest) = line :: split separator rest := by
  induction line with
  | nil => simp [split]
  | cons c line ih =>
    rw [List.mem_cons, not_or] at h
    simp [split, Ne.symm h.1, ih h.2]

/-- Lines that are each ended by a separator are the first parts, before those of the rest. -/
theorem split_flatMap_append {separator : Char} {lines : List (List Char)}
    (h : ∀ line ∈ lines, separator ∉ line) (rest : List Char) :
    split separator (lines.flatMap (· ++ [separator]) ++ rest) =
      lines ++ split separator rest := by
  induction lines with
  | nil => rfl
  | cons line lines ih =>
    rw [List.forall_mem_cons] at h
    rw [List.flatMap_cons, List.append_assoc, List.append_assoc, List.singleton_append,
      split_append h.1, ih h.2, List.cons_append]

/-- Lines that are each ended by a separator are what the text is cut into, with nothing after the
last separator. -/
theorem split_flatMap {separator : Char} {lines : List (List Char)}
    (h : ∀ line ∈ lines, separator ∉ line) :
    split separator (lines.flatMap (· ++ [separator])) = lines ++ [[]] := by
  have hsplit := split_flatMap_append h []
  rwa [List.append_nil] at hsplit

end Text

end CrateAnalysis
