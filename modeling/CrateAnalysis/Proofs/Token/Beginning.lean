import CrateAnalysis.Proofs.Token.Pattern
import CrateAnalysis.Proofs.Token.Terminal

/-!
# How tokens begin

A pattern takes only text that begins with certain characters. `Pattern.begins` names them, and
they tell most patterns apart: a digit begins a number and nothing else, a double quote a string,
a blank only blanks. The exceptions are the two kinds of number, the operators among each other,
and the comments, which begin like a slash.
-/

set_option autoImplicit false

namespace CrateAnalysis

/-- There are five blanks. -/
theorem eq_of_isBlank {c : Char} (h : Pattern.isBlank c) :
    c = ' ' ∨ c = '\t' ∨ c = '\x0c' ∨ c = '\r' ∨ c = '\n' := by
  simpa [Pattern.isBlank, or_assoc] using h

namespace Pattern

/-! ## First characters -/

/-- Whether a pattern can take a text that begins with this character. -/
def begins : Pattern → Char → Bool
  | .float, c | .integer, c => c.isDigit
  | .word, c => startsWord c
  | .string, c => c = '"'
  | .blockComment, c | .lineComment, c => c = '/'
  | .blank, c => isBlank c
  | .character, c => c = '\''
  | .operator terminal, c => terminal.spelling?.any (·.toList.head? = some c)

/-- A run of digits begins with a digit. -/
theorem isDigit_of_digits? {c : Char} {cs : List Char} {n : Nat}
    (h : digits? (c :: cs) = some n) : c.isDigit := by
  unfold digits? at h
  cases hc : c.isDigit with
  | true => rfl
  | false => simp [hc] at h

/-- A pattern takes only what begins as it can begin. -/
theorem begins_of_length? {pattern : Pattern} {c : Char} {cs : List Char} {n : Nat}
    (h : pattern.length? (c :: cs) = some n) : pattern.begins c := by
  cases pattern with
  | float =>
    simp only [length?, floatLength?, Option.bind_eq_bind, Option.bind_eq_some_iff] at h
    obtain ⟨whole, hwhole, -⟩ := h
    exact isDigit_of_digits? hwhole
  | integer =>
    simp only [length?, integerLength?, Option.bind_eq_bind, Option.bind_eq_some_iff] at h
    obtain ⟨whole, hwhole, -⟩ := h
    exact isDigit_of_digits? hwhole
  | word =>
    simp only [length?, wordLength?] at h
    cases hc : startsWord c with
    | true => exact hc
    | false => simp [hc] at h
  | string =>
    simp only [length?, stringLength?] at h
    split at h
    next heq => simp [begins, (List.cons.inj heq).1]
    next => cases h
  | blockComment =>
    simp only [length?, blockCommentLength?] at h
    split at h
    next heq => simp [begins, (List.cons.inj heq).1]
    next => cases h
  | blank =>
    simp only [length?, blankLength?, runLength, List.takeWhile_cons] at h
    cases hc : isBlank c with
    | true => exact hc
    | false => simp [hc] at h
  | lineComment =>
    simp only [length?, lineCommentLength?] at h
    split at h
    next heq => simp [begins, (List.cons.inj heq).1]
    next => cases h
  | character =>
    simp only [length?, characterLength?] at h
    split at h
    next heq => simp [begins, (List.cons.inj heq).1]
    next heq => simp [begins, (List.cons.inj heq).1]
    next => cases h
  | operator terminal =>
    have hpos := (length?_bounds h).1
    simp only [length?, spellingLength?, Option.bind_eq_bind, Option.bind_eq_some_iff] at h
    obtain ⟨spelling, hspelling, h⟩ := h
    split at h
    next hfits =>
      obtain rfl := Option.some.inj h
      obtain ⟨d, tail, hd⟩ := List.exists_cons_of_length_pos hpos
      rw [hd, List.isPrefixOf_iff_prefix, List.cons_prefix_cons] at hfits
      simp [begins, hspelling, hd, hfits.1]
    next => cases h

/-- A pattern takes nothing where the first character is not one of its own. -/
theorem length?_eq_none_of_begins {pattern : Pattern} {c : Char}
    (h : pattern.begins c = false) (cs : List Char) : pattern.length? (c :: cs) = none := by
  cases hfits : pattern.length? (c :: cs) with
  | none => rfl
  | some n =>
    rw [begins_of_length? hfits] at h
    cases h

/-! ## First characters that tell the patterns apart -/

/-- Only a string begins with a double quote. -/
theorem eq_string_of_begins : ∀ pattern ∈ order, pattern.begins '"' → pattern = .string := by
  decide +kernel

/-- Only a character begins with a single quote. -/
theorem eq_character_of_begins :
    ∀ pattern ∈ order, pattern.begins '\'' → pattern = .character := by
  decide +kernel

/-- Nothing but a number begins with a digit. -/
theorem isNumber_of_begins {c : Char} (hc : c.isDigit) :
    ∀ pattern ∈ order, pattern.begins c → pattern = .float ∨ pattern = .integer := by
  have hdigits : ∀ n < 10, ∀ pattern ∈ order, pattern.begins (Char.ofNat (48 + n)) →
      pattern = .float ∨ pattern = .integer := by decide +kernel
  have hrange : 48 ≤ c.toNat ∧ c.toNat ≤ 57 := by
    simpa [Char.isDigit, UInt32.le_iff_toNat_le] using hc
  have hnumber := hdigits (c.toNat - 48) (by omega)
  rwa [Nat.add_sub_cancel' hrange.1, Char.ofNat_toNat] at hnumber

/-- Only blanks begin with a blank. -/
theorem eq_blank_of_begins {c : Char} (hc : isBlank c) :
    ∀ pattern ∈ order, pattern.begins c → pattern = .blank := by
  rcases eq_of_isBlank hc with rfl | rfl | rfl | rfl | rfl <;> decide +kernel

/-- Only comments and the two operators with a slash begin with one. -/
theorem slash_of_begins : ∀ pattern ∈ order, pattern.begins '/' →
    pattern = .blockComment ∨ pattern = .lineComment ∨
      pattern = .operator .slash ∨ pattern = .operator .slashEqual := by
  decide +kernel

/-! ## The first pattern that fits -/

/-- The first pattern that fits is one before which none fits. -/
theorem first?_eq_some_iff {cs : List Char} {pattern : Pattern} {n : Nat} :
    first? cs = some (pattern, n) ↔
      ∃ before after, order = before ++ pattern :: after ∧ pattern.length? cs = some n ∧
        ∀ earlier ∈ before, earlier.length? cs = none := by
  rw [first?, List.findSome?_eq_some_iff]
  constructor
  · rintro ⟨before, found, after, horder, hfits, hbefore⟩
    obtain ⟨m, hm, heq⟩ := Option.map_eq_some_iff.mp hfits
    obtain ⟨rfl, rfl⟩ := Prod.mk.inj heq
    exact ⟨before, after, horder, hm, fun p hp => Option.map_eq_none_iff.mp (hbefore p hp)⟩
  · rintro ⟨before, after, horder, hfits, hbefore⟩
    exact ⟨before, pattern, after, horder, by rw [hfits]; rfl,
      fun p hp => Option.map_eq_none_iff.mpr (hbefore p hp)⟩

end Pattern

end CrateAnalysis
