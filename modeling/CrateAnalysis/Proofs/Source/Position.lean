import CrateAnalysis.Source.Position
import Mathlib.Data.List.Induction

/-!
# Positions compose

The position after a text is read off its newlines, while a cursor counts within one stretch
only and is moved to the whole text by the position of the stretch. Both describe the same
place: a cursor that has read `text` in a stretch that begins after `before` stands at the end
position of `before ++ text`. The position grows with every character, so places of a text are
ordered as their positions are. To move by the end of a stretch is to move over its characters, so
stretches in a row can be moved by one after the other, in either direction, or all at once.
-/

set_option autoImplicit false

namespace CrateAnalysis

/-- The last line of two texts in a row is the last line of the second, together with that of
the first if the second has no newline. -/
theorem lastLineLength_append (before text : List Char) :
    lastLineLength (before ++ text) =
      if '\n' ∈ text then lastLineLength text else lastLineLength before + text.length := by
  unfold lastLineLength
  rw [List.reverse_append, List.takeWhile_append]
  by_cases h : '\n' ∈ text
  · have hlt : (text.reverse.takeWhile (· ≠ '\n')).length ≠ text.reverse.length := by
      intro heq
      have hself := (List.takeWhile_prefix (· ≠ '\n')).eq_of_length heq
      have hall : text.reverse.all (· ≠ '\n') := by
        rw [← hself]
        exact List.all_takeWhile
      simpa using List.all_eq_true.mp hall '\n' (List.mem_reverse.mpr h)
    rw [if_neg hlt, if_pos h]
  · have hall : text.reverse.takeWhile (· ≠ '\n') = text.reverse := by
      rw [← List.append_nil text.reverse, List.takeWhile_append_of_pos, List.takeWhile_nil]
      intro c hc
      have hne : c ≠ '\n' := by
        rintro rfl
        exact h (List.mem_reverse.mp hc)
      simpa using hne
    rw [if_pos (by rw [hall]), if_neg h, List.length_append, List.length_reverse]
    omega

/-- One more character moves the end position as it moves any position. -/
theorem endPosition_append_singleton (before : List Char) (c : Char) :
    endPosition (before ++ [c]) = (endPosition before).advance c := by
  unfold endPosition Position.advance
  rw [lastLineLength_append]
  by_cases h : c = '\n'
  · subst h
    simp [lastLineLength]
  · have hne : '\n' ≠ c := fun heq => h heq.symm
    simp [h, hne]

/-- Moving on character by character leads from the end of a text to the end of a longer one. -/
theorem foldl_advance_endPosition (before text : List Char) :
    text.foldl Position.advance (endPosition before) = endPosition (before ++ text) := by
  induction text generalizing before with
  | nil => rw [List.foldl_nil, List.append_nil]
  | cons c text ih =>
    rw [List.foldl_cons, ← endPosition_append_singleton, ih, List.append_assoc,
      List.singleton_append]

/-! ## Stretches -/

/-- The lines of a stretch follow those before it, whichever line a cursor is on. -/
theorem Cursor.line_absolute (cursor : Cursor) (base : Position) :
    (cursor.absolute base).line = base.line + cursor.line - 1 := by
  unfold absolute
  split
  · dsimp only
    omega
  · rfl

namespace Position

/-- The cursor that stands at this place of a stretch. -/
def cursor (p : Position) : Cursor := ⟨p.line, p.column + 1⟩

/-- A newline leads to the beginning of the next line. -/
theorem advance_newline (p : Position) : p.advance '\n' = ⟨p.line + 1, 0⟩ := if_pos rfl

/-- Any other character takes one column. -/
theorem advance_of_ne (p : Position) {c : Char} (h : c ≠ '\n') :
    p.advance c = ⟨p.line, p.column + 1⟩ := if_neg h

/-- A place of a stretch and its place in the whole text move on together. -/
theorem absolute_cursor_advance {p : Position} (hline : 1 ≤ p.line) (base : Position) (c : Char) :
    (p.advance c).cursor.absolute base = (p.cursor.absolute base).advance c := by
  by_cases hc : c = '\n'
  · -- the next line is not the first, so nothing stands before it
    have hnext : (cursor ⟨p.line + 1, 0⟩).line ≠ 1 := by
      simp only [cursor]
      omega
    rw [hc, advance_newline, advance_newline, Cursor.line_absolute, Cursor.absolute, if_neg hnext]
    simp only [cursor, mk.injEq]
    omega
  · rw [advance_of_ne _ hc, advance_of_ne _ hc]
    unfold cursor Cursor.absolute
    by_cases hfirst : p.line = 1
    · simp only [if_pos hfirst, mk.injEq, true_and]
      omega
    · simp only [if_neg hfirst, mk.injEq, true_and]
      omega

end Position

/-- To move by the end of a stretch is to move over its characters, wherever it begins. -/
theorem absolute_cursor_endPosition (base : Position) (text : List Char) :
    (endPosition text).cursor.absolute base = text.foldl Position.advance base := by
  induction text using List.reverseRecOn with
  | nil => simp [endPosition, lastLineLength, Position.cursor, Cursor.absolute]
  | append_singleton text c ih =>
    have hline : 1 ≤ (endPosition text).line := by
      simp only [endPosition]
      omega
    rw [endPosition_append_singleton, Position.absolute_cursor_advance hline, ih,
      List.foldl_append, List.foldl_cons, List.foldl_nil]

namespace Cursor

/-- A cursor that reads two pieces of text one after the other has read them both. -/
theorem after_append (cursor : Cursor) (first second : List Char) :
    (cursor.after first).after second = cursor.after (first ++ second) := by
  unfold after
  by_cases hs : '\n' ∈ second
  · have hline : cursor.line + (first.count '\n' : Int) + second.count '\n' =
        cursor.line + (first ++ second).count '\n' := by
      rw [List.count_append]
      omega
    have hlast : lastLineLength (first ++ second) = lastLineLength second := by
      rw [lastLineLength_append, if_pos hs]
    by_cases hf : '\n' ∈ first
    · simp [hs, hf, hlast, hline]
    · have hzero : first.count '\n' = 0 := List.count_eq_zero.mpr hf
      simp [hs, hf, hlast, hzero]
  · have hzero : second.count '\n' = 0 := List.count_eq_zero.mpr hs
    by_cases hf : '\n' ∈ first
    · have hlast : lastLineLength (first ++ second) = lastLineLength first + second.length := by
        rw [lastLineLength_append, if_neg hs]
      simp only [hs, hf, hlast, hzero, List.mem_append, or_false, if_true, if_false,
        List.count_append, Cursor.mk.injEq]
      omega
    · simp only [hs, hf, List.mem_append, or_false, if_false, List.length_append,
        Cursor.mk.injEq, true_and]
      omega

/-- A cursor that has read a stretch stands where the stretch ends. -/
theorem start_after (text : List Char) : start.after text = (endPosition text).cursor := by
  unfold after start endPosition Position.cursor
  by_cases h : '\n' ∈ text
  · simp only [h, if_true, mk.injEq, and_true]
    omega
  · have hzero : text.count '\n' = 0 := List.count_eq_zero.mpr h
    have hlength : lastLineLength text = text.length := by
      have hnil : lastLineLength [] = 0 := rfl
      have happend := lastLineLength_append [] text
      rwa [if_neg h, List.nil_append, hnil, Nat.zero_add] at happend
    simp only [h, if_false, hzero, hlength, mk.injEq]
    omega

/-- A cursor in a stretch that begins after `before` stands, once it has read `text`, where the
two together end. -/
theorem absolute_after (before text : List Char) :
    (start.after text).absolute (endPosition before) = endPosition (before ++ text) := by
  rw [start_after, absolute_cursor_endPosition, foldl_advance_endPosition]

end Cursor

/-! ## The order of places -/

namespace Position

/-- One place comes before another: on an earlier line, or earlier on the same line. -/
def Before (p q : Position) : Prop := p.line < q.line ∨ p.line = q.line ∧ p.column < q.column

instance (p q : Position) : Decidable (p.Before q) := by unfold Before; infer_instance

/-- No place comes before one that comes before it. -/
theorem Before.asymm {p q : Position} (hpq : p.Before q) : ¬ q.Before p := by
  unfold Before at *
  omega

end Position

/-- A longer text ends at a later position. -/
theorem endPosition_before (before : List Char) {text : List Char} (h : text ≠ []) :
    (endPosition before).Before (endPosition (before ++ text)) := by
  unfold Position.Before endPosition
  rw [lastLineLength_append, List.count_append]
  have hlen : 0 < text.length := List.length_pos_iff.mpr h
  by_cases hn : '\n' ∈ text
  · have hpos : 0 < text.count '\n' := List.count_pos_iff.mpr hn
    left
    dsimp only
    omega
  · have hzero : text.count '\n' = 0 := List.count_eq_zero.mpr hn
    right
    simp only [hn, if_false, hzero]
    omega

/-! ## Stretches in a row -/

/-- The index of the last newline of a text, and -1 when it has none. -/
def lastNewline (text : List Char) : Int :=
  (text.zipIdx.filter (·.1 = '\n')).getLast?.elim (-1) fun entry => entry.2

/-- A newline at the end of a text is its last one, and any other character changes nothing. -/
theorem lastNewline_append_singleton (text : List Char) (c : Char) :
    lastNewline (text ++ [c]) = if c = '\n' then (text.length : Int) else lastNewline text := by
  by_cases hc : c = '\n'
  · simp [lastNewline, List.zipIdx_append, hc]
  · simp [lastNewline, List.zipIdx_append, hc]

/-- The column counts what follows the last newline. -/
theorem lastLineLength_eq (text : List Char) :
    (lastLineLength text : Int) = text.length - (lastNewline text + 1) := by
  induction text using List.reverseRecOn with
  | nil => rfl
  | append_singleton text c ih =>
    rw [lastLineLength_append, lastNewline_append_singleton]
    by_cases hc : c = '\n'
    · simp [hc, lastLineLength]
    · have hmem : '\n' ∉ [c] := by simpa using Ne.symm hc
      rw [if_neg hmem, if_neg hc, List.length_append, List.length_singleton]
      omega

/-- End positions compose. The end of two texts in a row is the end of the second, moved by the end
of the first; what is read off the newlines is what moving on from the start character by character
comes to; and through several fragments it does not matter whether a position is moved on from one
to the next, or out of the innermost one, or once by all that comes before it. -/
theorem endPosition_composes :
    (∀ before text : List Char,
      endPosition (before ++ text) = (endPosition text).cursor.absolute (endPosition before)) ∧
    (∀ text : List Char,
      endPosition text = ⟨text.count '\n' + 1, text.length - (lastNewline text + 1)⟩ ∧
        endPosition text = text.foldl Position.advance .start) ∧
    (∀ (base : Position) (fragments : List (List Char)),
      fragments.foldl (fun base fragment => (endPosition fragment).cursor.absolute base) base =
        (endPosition fragments.flatten).cursor.absolute base) ∧
    ∀ (fragments : List (List Char)) (text : List Char),
      fragments.foldr (fun fragment place => place.cursor.absolute (endPosition fragment))
          (endPosition text) =
        (endPosition text).cursor.absolute (endPosition fragments.flatten) := by
  have happend (before text : List Char) :
      endPosition (before ++ text) = (endPosition text).cursor.absolute (endPosition before) := by
    rw [absolute_cursor_endPosition, foldl_advance_endPosition]
  refine ⟨happend, ?_, ?_, ?_⟩
  · intro text
    constructor
    · rw [← lastLineLength_eq, endPosition]
    · exact (foldl_advance_endPosition [] text).symm
  · intro base fragments
    simp only [absolute_cursor_endPosition, List.foldl_flatten]
  · intro fragments text
    induction fragments with
    | nil => rw [List.foldr_nil, List.flatten_nil, ← happend, List.nil_append]
    | cons fragment fragments ih =>
      -- what is moved out of the later fragments is the end of a text itself
      rw [List.foldr_cons, ih, ← happend, ← happend, ← happend, List.flatten_cons,
        List.append_assoc]

/-- The second part begins on a new line, so nothing of the first stands before it. -/
example : (endPosition "bc".toList).cursor.absolute (endPosition "a\n".toList) = ⟨2, 2⟩ := by
  decide

end CrateAnalysis
