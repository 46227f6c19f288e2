import CrateAnalysis.Text.Utf8
import Mathlib.Data.Option.Basic

/-!
# Decoding what was encoded

The bytes of a character are the standard ones, and wherever they stand they are read as that
character, with nothing before or after them taken along. So both ways of decoding, the strict one
and the one with replacements, give back every text that was encoded.
-/

set_option autoImplicit false

namespace CrateAnalysis

namespace Utf8

/-- A character is no surrogate and not beyond the last code point. -/
theorem toNat_char (c : Char) :
    c.toNat < 0xd800 ∨ 0xdfff < c.toNat ∧ c.toNat < 0x110000 := c.valid

/-- The bytes of a character are those in which strings are stored. -/
theorem encodeChar_eq (c : Char) : encodeChar c = String.utf8EncodeChar c := by
  have hchar := toNat_char c
  have hval : c.val.toNat = c.toNat := rfl
  have hcontinuation : ∀ n, continuation n = UInt8.ofNat (n % 64 + 128) := fun n =>
    congrArg UInt8.ofNat (Nat.add_comm _ _)
  simp only [encodeChar, String.utf8EncodeChar, hval, hcontinuation]
  by_cases h1 : c.toNat < 0x80
  · rw [if_pos h1, if_pos (by omega)]
  · by_cases h2 : c.toNat < 0x800
    · have hlead : 0xc0 + c.toNat / 0x40 = c.toNat / 64 % 32 + 192 := by omega
      rw [if_neg h1, if_pos h2, if_neg (by omega), if_pos (by omega), hlead]
    · by_cases h3 : c.toNat < 0x10000
      · have hlead : 0xe0 + c.toNat / 0x1000 = c.toNat / 4096 % 16 + 224 := by omega
        rw [if_neg h1, if_neg h2, if_pos h3, if_neg (by omega), if_neg (by omega),
          if_pos (by omega), hlead]
      · have hlead : 0xf0 + c.toNat / 0x40000 = c.toNat / 262144 % 8 + 240 := by omega
        rw [if_neg h1, if_neg h2, if_neg h3, if_neg (by omega), if_neg (by omega),
          if_neg (by omega), hlead]

/-- The bytes of a text are those that the standard library stores. -/
theorem encode_toList (s : String) : encode s.toList = s.toUTF8.data.toList := by
  have hencode : encode s.toList = s.toList.flatMap String.utf8EncodeChar := by
    rw [encode, funext encodeChar_eq]
  rw [hencode, String.toUTF8, ← String.utf8Encode_toList, List.utf8Encode, List.data_toByteArray]

/-! ## One character -/

/-- A continuing byte carries the last six bits. -/
theorem toNat_continuation (n : Nat) : (continuation n).toNat = 0x80 + n % 0x40 := by
  rw [continuation, UInt8.toNat_ofNat']
  omega

/-- A byte that continues a sequence adds its six bits. -/
theorem follow_continuation {low high : Nat} (bits following n : Nat) (rest : List Byte)
    (hlow : low ≤ 0x80 + n % 0x40) (hhigh : 0x80 + n % 0x40 ≤ high) :
    follow bits (following + 1) low high (continuation n :: rest) =
      ((follow (bits * 0x40 + n % 0x40) following 0x80 0xbf rest).1,
        (follow (bits * 0x40 + n % 0x40) following 0x80 0xbf rest).2 + 1) := by
  rw [follow, toNat_continuation, if_pos ⟨hlow, hhigh⟩, Nat.add_sub_cancel_left]

/-- A byte that begins a sequence of several is read together with those that continue it. -/
theorem units_of_lead {b : Byte} {lead : Lead} (hlead : lead? b = some lead)
    (hwide : 0x80 ≤ b.toNat) (rest : List Byte) :
    units (b :: rest) =
      (follow lead.bits lead.following lead.low lead.high rest).1 ::
        units (rest.drop (follow lead.bits lead.following lead.low lead.high rest).2) := by
  rw [units, if_neg (by omega), hlead]

/-- A number below 256 is the value of its byte. -/
theorem toNat_ofNat {n : Nat} (h : n < 0x100) : (UInt8.ofNat n).toNat = n := by
  rw [UInt8.toNat_ofNat']
  exact Nat.mod_eq_of_lt h

/-- The first of two bytes says the upper bits, and lets the second byte be what it is. -/
theorem lead?_two {n : Nat} (hmin : 0x80 ≤ n) (hmax : n < 0x800) :
    ∃ low high, lead? (UInt8.ofNat (0xc0 + n / 0x40)) = some ⟨n / 0x40, 1, low, high⟩ ∧
      low ≤ 0x80 + n % 0x40 ∧ 0x80 + n % 0x40 ≤ high := by
  have hbyte : (UInt8.ofNat (0xc0 + n / 0x40)).toNat = 0xc0 + n / 0x40 := toNat_ofNat (by omega)
  refine ⟨0x80, 0xbf, ?_, by omega, by omega⟩
  rw [lead?, hbyte, if_pos (by omega), Nat.add_sub_cancel_left]

/-- The lead of a character of three bytes allows the next byte, which the ranges would refuse for
a surrogate only. -/
theorem lead?_three {n : Nat} (hmin : 0x800 ≤ n) (hmax : n < 0x10000)
    (hchar : n < 0xd800 ∨ 0xdfff < n) :
    ∃ low high, lead? (UInt8.ofNat (0xe0 + n / 0x1000)) = some ⟨n / 0x1000, 2, low, high⟩ ∧
      low ≤ 0x80 + n / 0x40 % 0x40 ∧ 0x80 + n / 0x40 % 0x40 ≤ high := by
  have hbyte : (UInt8.ofNat (0xe0 + n / 0x1000)).toNat = 0xe0 + n / 0x1000 :=
    toNat_ofNat (by omega)
  unfold lead?
  rw [hbyte]
  by_cases hfirst : n / 0x1000 = 0
  · exact ⟨0xa0, 0xbf, by simp [hfirst], by omega, by omega⟩
  · by_cases hsurrogate : n / 0x1000 = 0xd
    · exact ⟨0x80, 0x9f, by simp [hsurrogate], by omega, by omega⟩
    · refine ⟨0x80, 0xbf, ?_, by omega, by omega⟩
      simp only
      rw [if_neg (by omega), if_neg (by omega), if_neg (by omega), if_pos (by omega),
        Nat.add_sub_cancel_left]

/-- The first of four bytes says the upper bits, and lets the second byte be what it is. -/
theorem lead?_four {n : Nat} (hmin : 0x10000 ≤ n) (hmax : n < 0x110000) :
    ∃ low high, lead? (UInt8.ofNat (0xf0 + n / 0x40000)) = some ⟨n / 0x40000, 3, low, high⟩ ∧
      low ≤ 0x80 + n / 0x1000 % 0x40 ∧ 0x80 + n / 0x1000 % 0x40 ≤ high := by
  have hbyte : (UInt8.ofNat (0xf0 + n / 0x40000)).toNat = 0xf0 + n / 0x40000 :=
    toNat_ofNat (by omega)
  unfold lead?
  rw [hbyte]
  by_cases hfirst : n / 0x40000 = 0
  · exact ⟨0x90, 0xbf, by simp [hfirst], by omega, by omega⟩
  · by_cases hlast : n / 0x40000 = 4
    · exact ⟨0x80, 0x8f, by simp [hlast], by omega, by omega⟩
    · refine ⟨0x80, 0xbf, ?_, by omega, by omega⟩
      simp only
      rw [if_neg (by omega), if_neg (by omega), if_neg (by omega), if_neg (by omega),
        if_neg (by omega), if_pos (by omega), Nat.add_sub_cancel_left]

/-- The bytes of a character are read as that character, whatever follows them. -/
theorem units_encodeChar_append (c : Char) (rest : List Byte) :
    units (encodeChar c ++ rest) = some c :: units rest := by
  have hchar := toNat_char c
  obtain ⟨n, hn⟩ : ∃ n, n = c.toNat := ⟨_, rfl⟩
  have hc : Char.ofNat n = c := by rw [hn, Char.ofNat_toNat]
  rw [encodeChar, ← hn]
  rw [← hn] at hchar
  by_cases h1 : n < 0x80
  · rw [if_pos h1, List.singleton_append, units, toNat_ofNat (by omega), if_pos h1, hc]
  · by_cases h2 : n < 0x800
    · have hbyte : (UInt8.ofNat (0xc0 + n / 0x40)).toNat = 0xc0 + n / 0x40 :=
        toNat_ofNat (by omega)
      obtain ⟨low, high, hlead, hlow, hhigh⟩ := lead?_two (by omega) h2
      have hbits : n / 0x40 * 0x40 + n % 0x40 = n := by omega
      rw [if_neg h1, if_pos h2, List.cons_append, List.singleton_append,
        units_of_lead hlead (by omega), follow_continuation _ _ _ _ hlow hhigh, follow, hbits, hc]
      rfl
    · by_cases h3 : n < 0x10000
      · have hbyte : (UInt8.ofNat (0xe0 + n / 0x1000)).toNat = 0xe0 + n / 0x1000 :=
          toNat_ofNat (by omega)
        obtain ⟨low, high, hlead, hlow, hhigh⟩ := lead?_three (by omega) h3 (by omega)
        have hbits : (n / 0x1000 * 0x40 + n / 0x40 % 0x40) * 0x40 + n % 0x40 = n := by omega
        rw [if_neg h1, if_neg h2, if_pos h3, List.cons_append, List.cons_append,
          List.singleton_append, units_of_lead hlead (by omega),
          follow_continuation _ _ _ _ hlow hhigh,
          follow_continuation _ _ _ _ (by omega) (by omega), follow, hbits, hc]
        rfl
      · have hbyte : (UInt8.ofNat (0xf0 + n / 0x40000)).toNat = 0xf0 + n / 0x40000 :=
          toNat_ofNat (by omega)
        obtain ⟨low, high, hlead, hlow, hhigh⟩ := lead?_four (n := n) (by omega) (by omega)
        have hbits : ((n / 0x40000 * 0x40 + n / 0x1000 % 0x40) * 0x40 + n / 0x40 % 0x40) * 0x40 +
            n % 0x40 = n := by omega
        rw [if_neg h1, if_neg h2, if_neg h3, List.cons_append, List.cons_append, List.cons_append,
          List.singleton_append, units_of_lead hlead (by omega),
          follow_continuation _ _ _ _ hlow hhigh,
          follow_continuation _ _ _ _ (by omega) (by omega),
          follow_continuation _ _ _ _ (by omega) (by omega), follow, hbits, hc]
        rfl

/-- The bytes of a text are read back character by character. -/
theorem units_encode (cs : List Char) : units (encode cs) = cs.map some := by
  induction cs with
  | nil => simp [encode, units]
  | cons c cs ih =>
    rw [encode, List.flatMap_cons, units_encodeChar_append, List.map_cons]
    exact congrArg _ ih

/-- A text is decoded from its bytes. -/
theorem decode_encode (cs : List Char) : decode (encode cs) = cs := by
  rw [decode, units_encode, List.map_map]
  exact List.map_id cs

/-- Nothing is malformed in the bytes of a text. -/
theorem decode?_encode (cs : List Char) : decode? (encode cs) = some cs := by
  rw [decode?, units_encode]
  induction cs with
  | nil => rfl
  | cons c cs ih => simp_all [List.mapM_cons]

end Utf8

end CrateAnalysis
