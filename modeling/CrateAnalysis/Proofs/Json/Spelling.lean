import CrateAnalysis.Json.Parse
import Mathlib.Data.List.TakeWhile

/-!
# Written texts

A text can be written in many ways between the quotes of a JSON string: a character stands for
itself, or it has a short escape, or the hexadecimal digits of its code unit, or those of the two
halves of a surrogate pair. `TextForm` relates what is written to the text that it denotes, and the
reader finds just that text, up to the closing quote.
-/

set_option autoImplicit false

namespace CrateAnalysis

namespace Json

/-- The letters of the short escapes, each with the character that it stands for. -/
def shortEscapes : List (Char × Char) :=
  [('"', '"'), ('\\', '\\'), ('/', '/'), ('b', '\x08'), ('f', '\x0c'), ('n', '\n'), ('r', '\r'),
    ('t', '\t')]

/-- A hexadecimal digit, in either case, and its value. -/
def HexDigit (c : Char) (n : Nat) : Prop :=
  "0123456789abcdef".toList[n]? = some c ∨ "0123456789ABCDEF".toList[n]? = some c

/-- Four hexadecimal digits and the code unit that they name. -/
inductive HexUnit : List Char → Nat → Prop
  | mk {a b c d : Char} {x y z w : Nat} :
      HexDigit a x → HexDigit b y → HexDigit c z → HexDigit d w →
      HexUnit [a, b, c, d] (((x * 16 + y) * 16 + z) * 16 + w)

/-- What can be written for a character between quotes. -/
inductive CharForm : List Char → Char → Prop
  | plain {c : Char} : c ≠ '"' → c ≠ '\\' → 0x20 ≤ c.toNat → CharForm [c] c
  | short {mark c : Char} : (mark, c) ∈ shortEscapes → CharForm ['\\', mark] c
  | unit {digits : List Char} {c : Char} :
      HexUnit digits c.toNat → CharForm ('\\' :: 'u' :: digits) c
  | pair {high low : List Char} {h l : Nat} {c : Char} :
      HexUnit high (0xd800 + h) → h < 0x400 → HexUnit low (0xdc00 + l) → l < 0x400 →
      c.toNat = 0x10000 + h * 0x400 + l →
      CharForm ('\\' :: 'u' :: (high ++ '\\' :: 'u' :: low)) c

/-- What can be written for a text between quotes. -/
inductive TextForm : List Char → List Char → Prop
  | nil : TextForm [] []
  | cons {form forms : List Char} {c : Char} {cs : List Char} :
      CharForm form c → TextForm forms cs → TextForm (form ++ forms) (c :: cs)

/-! ## Escapes -/

/-- The reader finds the value of a hexadecimal digit, in either case. -/
theorem hexValue?_of_hexDigit {c : Char} {n : Nat} (h : HexDigit c n) : hexValue? c = some n := by
  have hvalues : ∀ i : Fin 16, hexValue? ("0123456789abcdef".toList[i]) = some i.val ∧
      hexValue? ("0123456789ABCDEF".toList[i]) = some i.val := by decide
  rcases h with h | h
  · obtain ⟨hlt, rfl⟩ := List.getElem?_eq_some_iff.mp h
    exact (hvalues ⟨n, hlt⟩).1
  · obtain ⟨hlt, rfl⟩ := List.getElem?_eq_some_iff.mp h
    exact (hvalues ⟨n, hlt⟩).2

/-- A code unit is written with four digits. -/
theorem HexUnit.length_eq {digits : List Char} {n : Nat} (h : HexUnit digits n) :
    digits.length = 4 := by
  cases h
  rfl

/-- The reader finds the code unit that four digits name. -/
theorem HexUnit.hexValue4?_eq {digits : List Char} {n : Nat} (h : HexUnit digits n) :
    hexValue4? digits = some n := by
  cases h with
  | mk ha hb hc hd =>
    simp [hexValue4?, hexValue?_of_hexDigit ha, hexValue?_of_hexDigit hb,
      hexValue?_of_hexDigit hc, hexValue?_of_hexDigit hd]

/-- A code unit is read off the text, if the text does not end right after it. -/
theorem codeUnit_append {digits : List Char} {n : Nat} (h : HexUnit digits n) {rest : List Char}
    (hrest : rest ≠ []) : codeUnit (digits ++ rest) = .ok n := by
  have htake : (digits ++ rest).take 4 = digits := List.take_left' h.length_eq
  have hlength : 4 < (digits ++ rest).length := by
    have hpos := List.length_pos_iff.mpr hrest
    rw [List.length_append, h.length_eq]
    omega
  rw [codeUnit, htake, h.hexValue4?_eq]
  exact if_pos hlength

/-- The digits of a character that is one code unit. -/
theorem hexEscape_unit {digits : List Char} {c : Char} (h : HexUnit digits c.toNat)
    {rest : List Char} (hrest : rest ≠ []) : hexEscape (digits ++ rest) = .ok (c, 4) := by
  have hchar : c.toNat < 0xd800 ∨ 0xdfff < c.toNat ∧ c.toNat < 0x110000 := c.valid
  have hhigh : isHighSurrogate c.toNat = false := by
    simp only [isHighSurrogate, Bool.and_eq_false_iff, decide_eq_false_iff_not]
    omega
  have hlow : isLowSurrogate c.toNat = false := by
    simp only [isLowSurrogate, Bool.and_eq_false_iff, decide_eq_false_iff_not]
    omega
  have hunit : unitChar c.toNat = c := by
    simp [unitChar, hhigh, hlow]
  simp [hexEscape, codeUnit_append h hrest, hhigh, hunit, bind, Except.bind]

/-- The digits of a character that is a surrogate pair. -/
theorem hexEscape_pair {high low : List Char} {h l : Nat} {c : Char}
    (hhigh : HexUnit high (0xd800 + h)) (hh : h < 0x400) (hlow : HexUnit low (0xdc00 + l))
    (hl : l < 0x400) (hc : c.toNat = 0x10000 + h * 0x400 + l) {rest : List Char}
    (hrest : rest ≠ []) :
    hexEscape (high ++ '\\' :: 'u' :: (low ++ rest)) = .ok (c, 10) := by
  have hishigh : isHighSurrogate (0xd800 + h) = true := by
    simp only [isHighSurrogate, Bool.and_eq_true, decide_eq_true_eq]
    omega
  have hislow : isLowSurrogate (0xdc00 + l) = true := by
    simp only [isLowSurrogate, Bool.and_eq_true, decide_eq_true_eq]
    omega
  have hjoin : joinSurrogates (0xd800 + h) (0xdc00 + l) = c := by
    rw [joinSurrogates, Nat.add_sub_cancel_left, Nat.add_sub_cancel_left, ← hc, Char.ofNat_toNat]
  have hlength : 4 < (low ++ rest).length := by
    have hpos := List.length_pos_iff.mpr hrest
    rw [List.length_append, hlow.length_eq]
    omega
  have hdrop : (high ++ '\\' :: 'u' :: (low ++ rest)).drop 4 = '\\' :: 'u' :: (low ++ rest) :=
    List.drop_left' hhigh.length_eq
  rw [hexEscape, codeUnit_append hhigh (List.cons_ne_nil _ _), hdrop]
  simp only [hishigh, bind, Except.bind]
  rw [if_pos hlength, codeUnit_append hlow hrest]
  simp only [hislow, hjoin, if_true]

/-- A short escape is read as the character that it stands for. -/
theorem escape_short {mark c : Char} (h : (mark, c) ∈ shortEscapes) (opening : Fault)
    (rest : List Char) : escape opening (mark :: rest) = .ok (c, 1) := by
  simp only [shortEscapes, List.mem_cons, Prod.mk.injEq, List.not_mem_nil, or_false] at h
  rcases h with ⟨rfl, rfl⟩ | ⟨rfl, rfl⟩ | ⟨rfl, rfl⟩ | ⟨rfl, rfl⟩ | ⟨rfl, rfl⟩ | ⟨rfl, rfl⟩ |
    ⟨rfl, rfl⟩ | ⟨rfl, rfl⟩ <;> rfl

/-! ## Texts -/

/-- An escape is read as its character, and the text goes on after it. -/
theorem stringBody_escape {opening : Fault} {cs rest : List Char} {c : Char} {used : Nat}
    {text after : List Char} (hescape : escape opening cs = .ok (c, used))
    (hdrop : cs.drop used = rest) (hrest : stringBody opening rest = .ok (text, after)) :
    stringBody opening ('\\' :: cs) = .ok (c :: text, after) := by
  rw [stringBody, if_neg (by decide), if_pos rfl, hescape]
  simp only [bind, Except.bind]
  rw [hdrop, hrest]

/-- What is written for a character is read as that character, if a string goes on after it. -/
theorem stringBody_charForm {form : List Char} {c : Char} (h : CharForm form c) {opening : Fault}
    {rest text after : List Char} (hne : rest ≠ [])
    (hrest : stringBody opening rest = .ok (text, after)) :
    stringBody opening (form ++ rest) = .ok (c :: text, after) := by
  cases h with
  | plain hquote hbackslash hcontrol =>
    rw [List.singleton_append, stringBody, if_neg hquote, if_neg hbackslash,
      if_neg (by omega), hrest]
    rfl
  | short hmark =>
    exact stringBody_escape (escape_short hmark opening rest) rfl hrest
  | @unit digits _ hdigits =>
    have hescape : escape opening ('u' :: (digits ++ rest)) = .ok (c, 5) := by
      rw [escape, hexEscape_unit hdigits hne]
      rfl
    have hdrop : ('u' :: (digits ++ rest)).drop 5 = rest := by
      rw [List.drop_succ_cons]
      exact List.drop_left' hdigits.length_eq
    exact stringBody_escape hescape hdrop hrest
  | @pair high low _ _ _ hhigh hh hlow hl hc =>
    have hescape : escape opening ('u' :: (high ++ '\\' :: 'u' :: (low ++ rest))) =
        .ok (c, 11) := by
      rw [escape, hexEscape_pair hhigh hh hlow hl hc hne]
      rfl
    have hdrop : ('u' :: (high ++ '\\' :: 'u' :: (low ++ rest))).drop 11 = rest := by
      have hsplit : 'u' :: (high ++ '\\' :: 'u' :: (low ++ rest)) =
          ('u' :: (high ++ '\\' :: 'u' :: low)) ++ rest := by simp
      rw [hsplit]
      apply List.drop_left'
      simp [hhigh.length_eq, hlow.length_eq]
    have happend : '\\' :: 'u' :: (high ++ '\\' :: 'u' :: low) ++ rest =
        '\\' :: 'u' :: (high ++ '\\' :: 'u' :: (low ++ rest)) := by simp
    rw [happend]
    exact stringBody_escape hescape hdrop hrest

/-- A written text is read up to its closing quote. -/
theorem stringBody_textForm {form cs : List Char} (h : TextForm form cs) (opening : Fault)
    (rest : List Char) : stringBody opening (form ++ '"' :: rest) = .ok (cs, rest) := by
  induction h with
  | nil => rw [List.nil_append, stringBody, if_pos rfl]
  | cons hform _ ih =>
    rw [List.append_assoc]
    exact stringBody_charForm hform (List.append_ne_nil_of_right_ne_nil _ (List.cons_ne_nil _ _)) ih

/-- Whatever is written for a text, it is read back up to the closing quote. -/
theorem stringAfterQuote_textForm {form cs : List Char} (h : TextForm form cs)
    (rest : List Char) :
    stringAfterQuote (form ++ '"' :: rest) = .ok (String.ofList cs, rest) := by
  rw [stringAfterQuote, stringBody_textForm h]
  rfl

end Json

end CrateAnalysis
