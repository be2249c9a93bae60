import Segmented.Bytes.Stream

/-! Unsigned numbers in groups of seven bits, the lowest group first. Every byte but the last has
its high bit set. -/

namespace Segmented

namespace Varint

/-- The bytes of a number. -/
def groups (n : Nat) : List UInt8 :=
  if n < 128 then [n.toUInt8] else (n % 128 + 128).toUInt8 :: groups (n / 128)
termination_by n

/-- A number does not end within the bytes that its width allows, or exceeds its width. -/
def tooWide : CodecFault where
  message := "Found a varint that didn't terminate. Is the usize too big for this platform?"

/-- The bytes end inside a value. -/
def ended : CodecFault where
  message := "Hit the end of buffer, expected more data"

/-- Writes a number of at most `bits` binary digits. -/
def encode (bits n : Nat) : Except CodecFault (List UInt8) :=
  if n < 1 <<< bits then .ok (groups n) else .error tooWide

/-- Reads a number of at most `bits` binary digits; a form longer than need be is accepted as long
as it stays within the bytes that `bits` digits can take. -/
def decode (bits : Nat) : List UInt8 → Except CodecFault (Nat × List UInt8)
  | [] => .error ended
  | byte :: rest =>
    if bits ≤ 7 then
      if byte.toNat < 1 <<< bits then .ok (byte.toNat, rest) else .error tooWide
    else if byte.toNat < 128 then .ok (byte.toNat, rest)
    else
      match decode (bits - 7) rest with
      | .error fault => .error fault
      | .ok (high, rest) => .ok (byte.toNat - 128 + 128 * high, rest)

theorem decode_groups (bits n : Nat) (fits : n < 1 <<< bits) (positive : 0 < bits)
    (rest : List UInt8) : decode bits (groups n ++ rest) = .ok (n, rest) := by
  induction n using Nat.strongRecOn generalizing bits with
  | ind n ih =>
    rw [groups]
    by_cases small : n < 128
    · have byte : n.toUInt8.toNat = n := by simp; omega
      simp only [small, if_true, List.cons_append, List.nil_append, decode, byte]
      by_cases last : bits ≤ 7 <;> simp [last, fits]
    · have byte : (n % 128 + 128).toUInt8.toNat = n % 128 + 128 := by simp; omega
      have wide : ¬ bits ≤ 7 := by
        intro narrow
        rw [Nat.one_shiftLeft] at fits
        have := Nat.pow_le_pow_right (n := 2) (by decide) narrow
        omega
      have fitsHigh : n / 128 < 1 <<< (bits - 7) := by
        have split := Nat.shiftLeft_add 1 (bits - 7) 7
        rw [Nat.sub_add_cancel (by omega), Nat.shiftLeft_eq (1 <<< (bits - 7))] at split
        omega
      have high := ih (n / 128) (by omega) (bits - 7) fitsHigh (by omega)
      simp only [small, if_false, List.cons_append, decode, wide, byte, high,
        show ¬ n % 128 + 128 < 128 by omega]
      congr 2
      omega

theorem decode_of_encode {bits n : Nat} {bytes : List UInt8} (positive : 0 < bits)
    (encoded : encode bits n = .ok bytes) (rest : List UInt8) :
    decode bits (bytes ++ rest) = .ok (n, rest) := by
  unfold encode at encoded
  split at encoded
  · rename_i fits
    cases encoded
    exact decode_groups bits n fits positive rest
  · cases encoded

/-- What reads on after a number that was written goes on with it. -/
theorem decode_bind {ρ : Type} {bits n : Nat} {bytes : List UInt8} (positive : 0 < bits)
    (encoded : encode bits n = .ok bytes) (rest : List UInt8)
    (next : Nat × List UInt8 → Except CodecFault ρ) :
    (decode bits (bytes ++ rest) >>= next) = next (n, rest) := by
  rw [decode_of_encode positive encoded]
  rfl

end Varint

end Segmented
