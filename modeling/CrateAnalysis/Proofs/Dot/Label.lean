import CrateAnalysis.Dot.Label
import Mathlib.Data.List.Basic
import Mathlib.Data.List.TakeDrop
import Mathlib.Data.List.TakeWhile

/-!
# Escaped labels

The replacements that escape a text amount to one pass over it, in which every character is
escaped on its own. An escaped text stays on its line, and all its quotes are protected already,
so quoting only puts it between quotes. A text that is written bare has nothing to escape.
-/

set_option autoImplicit false

namespace CrateAnalysis

namespace Dot

/-- The characters that are escaped, each with the character that stands for it after a
backslash. -/
def escapes : List (Char × Char) :=
  [('\\', '\\'), ('"', '"'), ('\n', 'n'), ('\t', 't'), ('\r', 'r')]

/-- One character, escaped. -/
def escapeChar (c : Char) : List Char :=
  match escapes.lookup c with
  | some mark => ['\\', mark]
  | none => [c]

/-- A character either has an escape or stands for itself. -/
theorem escapeChar_cases (c : Char) :
    (∃ mark, (c, mark) ∈ escapes ∧ escapeChar c = ['\\', mark]) ∨
      ((∀ pair ∈ escapes, c ≠ pair.1) ∧ escapeChar c = [c]) := by
  unfold escapeChar
  cases h : escapes.lookup c with
  | some mark =>
    left
    obtain ⟨before, after, heq, -⟩ := List.lookup_eq_some_iff.mp h
    exact ⟨mark, by simp [heq], rfl⟩
  | none =>
    right
    rw [List.lookup_eq_none_iff] at h
    exact ⟨fun pair hpair => by simpa using h pair hpair, rfl⟩

/-! ## One pass -/

/-- The replacements in turn treat one character as the single pass does. -/
theorem escapeChars_singleton (c : Char) : escapeChars [c] = escapeChar c := by
  rcases escapeChar_cases c with ⟨mark, hmem, h⟩ | ⟨hplain, h⟩
  · rw [h]
    simp only [escapes, List.mem_cons, Prod.mk.injEq, List.not_mem_nil, or_false] at hmem
    rcases hmem with ⟨rfl, rfl⟩ | ⟨rfl, rfl⟩ | ⟨rfl, rfl⟩ | ⟨rfl, rfl⟩ | ⟨rfl, rfl⟩ <;> decide
  · simp only [escapes, List.forall_mem_cons] at hplain
    simp [h, escapeChars, substitute, hplain]

/-- Nothing is escaped to nothing. -/
@[simp]
theorem escapeChars_nil : escapeChars [] = [] := rfl

/-- The replacements treat every character on its own. -/
theorem escapeChars_cons (c : Char) (cs : List Char) :
    escapeChars (c :: cs) = escapeChar c ++ escapeChars cs := by
  have happend : escapeChars ([c] ++ cs) = escapeChars [c] ++ escapeChars cs := by
    simp only [escapeChars, substitute_append]
  rwa [escapeChars_singleton] at happend

/-- The replacements escape each character on its own. -/
theorem escapeChars_eq_flatMap (cs : List Char) : escapeChars cs = cs.flatMap escapeChar := by
  induction cs with
  | nil => rfl
  | cons c cs ih => rw [escapeChars_cons, ih, List.flatMap_cons]

/-! ## What escaping leaves -/

/-- An escaped text has no character that would end or break its line. -/
theorem not_mem_escapeChars {c : Char} (hc : c = '\n' ∨ c = '\t' ∨ c = '\r') (cs : List Char) :
    c ∉ escapeChars cs := by
  rw [escapeChars_eq_flatMap, List.mem_flatMap]
  rintro ⟨d, -, hmem⟩
  rcases escapeChar_cases d with ⟨mark, hmark, h⟩ | ⟨hplain, h⟩
  · have hmarks : ∀ pair ∈ escapes, '\n' ≠ pair.2 ∧ '\t' ≠ pair.2 ∧ '\r' ≠ pair.2 := by decide
    have hclean := hmarks _ hmark
    rw [h] at hmem
    rcases hc with rfl | rfl | rfl <;> simp [hclean] at hmem
  · rw [h, List.mem_singleton] at hmem
    subst hmem
    simp only [escapes, List.forall_mem_cons] at hplain
    rcases hc with rfl | rfl | rfl <;> simp at hplain

/-- Every quote in an escaped text is protected already. -/
theorem protectQuotes_escapeChars (cs : List Char) :
    protectQuotes false (escapeChars cs) = escapeChars cs := by
  induction cs with
  | nil => rfl
  | cons c cs ih =>
    rw [escapeChars_cons]
    rcases escapeChar_cases c with ⟨mark, hmem, h⟩ | ⟨hplain, h⟩
    · rw [h]
      simp only [escapes, List.mem_cons, Prod.mk.injEq, List.not_mem_nil, or_false] at hmem
      rcases hmem with ⟨-, rfl⟩ | ⟨-, rfl⟩ | ⟨-, rfl⟩ | ⟨-, rfl⟩ | ⟨-, rfl⟩ <;>
        simp [protectQuotes, ih]
    · simp only [escapes, List.forall_mem_cons] at hplain
      simp [h, protectQuotes, ih, hplain]

/-! ## Bare texts -/

/-- The characters of identifiers and numerals. -/
def isBareChar (c : Char) : Bool := c.isAlphanum || c = '_' || c = '.' || c = '-'

/-- Digits may stand in a bare text. -/
theorem isBareChar_of_isDigit {c : Char} (h : c.isDigit) : isBareChar c := by
  simp [isBareChar, Char.isAlphanum, h]

/-- An identifier is made of characters of a bare text. -/
theorem isBareChar_of_isIdentifier {cs : List Char} (h : isIdentifier cs) :
    ∀ c ∈ cs, isBareChar c := by
  cases cs with
  | nil => simp
  | cons c cs =>
    simp only [isIdentifier, Bool.and_eq_true, Bool.or_eq_true, decide_eq_true_eq,
      List.all_eq_true] at h
    rw [List.forall_mem_cons]
    constructor
    · rcases h.1 with hc | hc <;> simp [isBareChar, Char.isAlphanum, hc]
    · intro d hd
      rcases h.2 d hd with hd | hd <;> simp [isBareChar, hd]

/-- So is a numeral. -/
theorem isBareChar_of_isUnsignedNumeral {cs : List Char} (h : isUnsignedNumeral cs) :
    ∀ c ∈ cs, isBareChar c := by
  have hwhole : ∀ c ∈ cs.takeWhile Char.isDigit, isBareChar c := fun c hc =>
    isBareChar_of_isDigit (List.mem_takeWhile_imp hc)
  have hrest : ∀ c ∈ cs.dropWhile Char.isDigit, isBareChar c := by
    unfold isUnsignedNumeral at h
    rw [List.span_eq_takeWhile_dropWhile] at h
    have hpoint : ∀ fraction : List Char, fraction.all Char.isDigit →
        ∀ c ∈ '.' :: fraction, isBareChar c := by
      intro fraction hfraction
      rw [List.forall_mem_cons]
      exact ⟨rfl, fun c hc => isBareChar_of_isDigit (List.all_eq_true.mp hfraction c hc)⟩
    split at h
    next fraction heq =>
      rw [(Prod.mk.inj heq).2]
      exact hpoint fraction (Bool.and_eq_true_iff.mp h).2
    next => cases h
    next heq => simp [(Prod.mk.inj heq).2]
    next fraction heq =>
      rw [(Prod.mk.inj heq).2]
      exact hpoint fraction h
    next => cases h
  rw [← List.takeWhile_append_dropWhile (p := Char.isDigit) (l := cs)]
  intro c hc
  exact (List.mem_append.mp hc).elim (hwhole c) (hrest c)

/-- What is written bare is made of characters of a bare text only. -/
theorem isBareChar_of_isBare {cs : List Char} (h : isBare cs) : ∀ c ∈ cs, isBareChar c := by
  simp only [isBare, Bool.and_eq_true, Bool.or_eq_true] at h
  rcases h.1 with hidentifier | hnumeral
  · exact isBareChar_of_isIdentifier hidentifier
  · unfold isNumeral at hnumeral
    split at hnumeral
    · rw [List.forall_mem_cons]
      exact ⟨rfl, isBareChar_of_isUnsignedNumeral hnumeral⟩
    · exact isBareChar_of_isUnsignedNumeral hnumeral

/-- A text in which no character has an escape is left as it is. -/
theorem escapeChars_eq_self {cs : List Char} (h : ∀ c ∈ cs, escapeChar c = [c]) :
    escapeChars cs = cs := by
  rw [escapeChars_eq_flatMap, List.flatMap_congr h, List.flatMap_singleton']

/-- What is written bare has nothing to escape. -/
theorem escapeChars_of_isBare {cs : List Char} (h : isBare cs) : escapeChars cs = cs := by
  apply escapeChars_eq_self
  intro c hc
  rcases escapeChar_cases c with ⟨mark, hmem, -⟩ | ⟨-, hplain⟩
  · have hbare : ∀ pair ∈ escapes, isBareChar pair.1 = false := by decide
    cases (hbare _ hmem).symm.trans (isBareChar_of_isBare h c hc)
  · exact hplain

/-- An escape would bring a backslash, and no bare text holds one. -/
theorem eq_of_isBare_escapeChars {cs : List Char} (h : isBare (escapeChars cs)) :
    escapeChars cs = cs := by
  apply escapeChars_eq_self
  intro c hc
  rcases escapeChar_cases c with ⟨mark, -, hescape⟩ | ⟨-, hplain⟩
  · have hbackslash : '\\' ∈ escapeChars cs := by
      rw [escapeChars_eq_flatMap, List.mem_flatMap]
      exact ⟨c, hc, by simp [hescape]⟩
    cases isBareChar_of_isBare h _ hbackslash
  · exact hplain

/-- What stands in a drawing for a text. -/
theorem quote_escapeChars (cs : List Char) :
    quote (escapeChars cs) = if isBare cs then cs else '"' :: escapeChars cs ++ ['"'] := by
  unfold quote
  by_cases h : isBare (escapeChars cs)
  · have heq := eq_of_isBare_escapeChars h
    rw [if_pos h, heq, if_pos (heq ▸ h)]
  · have hnot : ¬ isBare cs := fun hbare => h (by rwa [escapeChars_of_isBare hbare])
    rw [if_neg h, if_neg hnot, protectQuotes_escapeChars]

end Dot

end CrateAnalysis
