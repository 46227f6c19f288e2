/-!
# Text as bytes

`encode` writes characters as UTF-8. `units` reads bytes as UTF-8: it yields a character for
each well-formed sequence and nothing for each stretch that is the longest beginning of a
well-formed sequence but not a whole one, or a single byte that begins none. `decode` puts
the replacement character in the place of the latter, and `decode?` refuses them.
-/

set_option autoImplicit false

namespace CrateAnalysis

namespace Utf8

/-- A byte. -/
abbrev Byte := UInt8

/-- The byte that continues a sequence with six more bits. -/
def continuation (bits : Nat) : Byte := UInt8.ofNat (0x80 + bits % 0x40)

/-- The bytes of a character. -/
def encodeChar (c : Char) : List Byte :=
  let n := c.toNat
  if n < 0x80 then [UInt8.ofNat n]
  else if n < 0x800 then [UInt8.ofNat (0xc0 + n / 0x40), continuation n]
  else if n < 0x10000 then
    [UInt8.ofNat (0xe0 + n / 0x1000), continuation (n / 0x40), continuation n]
  else
    [UInt8.ofNat (0xf0 + n / 0x40000), continuation (n / 0x1000), continuation (n / 0x40),
      continuation n]

/-- The bytes of some characters. -/
def encode (cs : List Char) : List Byte := cs.flatMap encodeChar

/-- What the first byte of a sequence says: the bits it holds, how many bytes follow, and
the range of the first of these. -/
structure Lead where
  bits : Nat
  following : Nat
  low : Nat
  high : Nat

/-- The meaning of a byte that begins a sequence of several. The ranges leave out what has a
shorter form, surrogates, and what lies beyond the last code point. -/
def lead? (b : Byte) : Option Lead :=
  let n := b.toNat
  if 0xc2 ≤ n ∧ n ≤ 0xdf then some ⟨n - 0xc0, 1, 0x80, 0xbf⟩
  else if n = 0xe0 then some ⟨0, 2, 0xa0, 0xbf⟩
  else if n = 0xed then some ⟨0xd, 2, 0x80, 0x9f⟩
  else if 0xe1 ≤ n ∧ n ≤ 0xef then some ⟨n - 0xe0, 2, 0x80, 0xbf⟩
  else if n = 0xf0 then some ⟨0, 3, 0x90, 0xbf⟩
  else if 0xf1 ≤ n ∧ n ≤ 0xf3 then some ⟨n - 0xf0, 3, 0x80, 0xbf⟩
  else if n = 0xf4 then some ⟨4, 3, 0x80, 0x8f⟩
  else none

/-- Reads up to `following` bytes that continue a sequence, the first of them between `low`
and `high`: the character if all are there, and how many there were. -/
def follow (bits : Nat) : (following low high : Nat) → List Byte → Option Char × Nat
  | 0, _, _, _ => (some (Char.ofNat bits), 0)
  | following + 1, low, high, bytes =>
    match bytes with
    | [] => (none, 0)
    | b :: rest =>
      if low ≤ b.toNat ∧ b.toNat ≤ high then
        let (c?, used) := follow (bits * 0x40 + (b.toNat - 0x80)) following 0x80 0xbf rest
        (c?, used + 1)
      else (none, 0)

/-- The characters of some bytes, with nothing in the place of what is malformed. -/
def units (bytes : List Byte) : List (Option Char) :=
  match bytes with
  | [] => []
  | b :: rest =>
    if b.toNat < 0x80 then some (Char.ofNat b.toNat) :: units rest
    else
      match lead? b with
      | none => none :: units rest
      | some lead =>
        let (c?, used) := follow lead.bits lead.following lead.low lead.high rest
        c? :: units (rest.drop used)
termination_by bytes.length

/-- The characters of some bytes, with a replacement for what is malformed. -/
def decode (bytes : List Byte) : List Char := (units bytes).map (·.getD '\ufffd')

/-- The characters of some bytes, if nothing is malformed. -/
def decode? (bytes : List Byte) : Option (List Char) := (units bytes).mapM id

end Utf8

end CrateAnalysis
