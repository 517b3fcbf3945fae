import Mathlib

/-!
# Integers in network byte order

The helpers of `wire.hpp` the framing code uses. A buffer is the list of its
bytes; a value is a natural number, already truncated to the width of the C
parameter by the caller.
-/

namespace Uzmq.Wire

/-- The byte at an offset of a buffer. -/
def byteAt (buffer : List UInt8) (i : Nat) : Nat := (buffer.getD i 0).toNat

/-- The most significant byte goes first. -/
def putUint32 (value : Nat) : List UInt8 :=
  [UInt8.ofNat ((value >>> 24) &&& 0xff), UInt8.ofNat ((value >>> 16) &&& 0xff),
    UInt8.ofNat ((value >>> 8) &&& 0xff), UInt8.ofNat (value &&& 0xff)]

def getUint32 (buffer : List UInt8) : Nat :=
  (byteAt buffer 0 <<< 24) ||| (byteAt buffer 1 <<< 16) |||
    (byteAt buffer 2 <<< 8) ||| byteAt buffer 3

@[simp] theorem length_putUint32 (value : Nat) : (putUint32 value).length = 4 := rfl

theorem and_ff (n : Nat) : n &&& 0xff = n % 256 := Nat.and_two_pow_sub_one_eq_mod n 8

theorem byteAt_lt (buffer : List UInt8) (i : Nat) : byteAt buffer i < 256 :=
  (buffer.getD i 0).toNat_lt

/-- The shifted bytes do not overlap, so the disjunctions are sums. -/
theorem getUint32_eq_sum (buffer : List UInt8) :
    getUint32 buffer = byteAt buffer 0 * 2 ^ 24 + byteAt buffer 1 * 2 ^ 16 +
      byteAt buffer 2 * 2 ^ 8 + byteAt buffer 3 := by
  have h1 := byteAt_lt buffer 1
  have h2 := byteAt_lt buffer 2
  have h3 := byteAt_lt buffer 3
  have s1 : byteAt buffer 1 <<< 16 < 2 ^ 24 := by rw [Nat.shiftLeft_eq]; omega
  have s2 : byteAt buffer 2 <<< 8 < 2 ^ 16 := by rw [Nat.shiftLeft_eq]; omega
  have low : byteAt buffer 2 <<< 8 ||| byteAt buffer 3 < 2 ^ 16 :=
    Nat.or_lt_two_pow s2 (by omega)
  have mid : byteAt buffer 1 <<< 16 ||| (byteAt buffer 2 <<< 8 ||| byteAt buffer 3) < 2 ^ 24 :=
    Nat.or_lt_two_pow s1 (by omega)
  unfold getUint32
  rw [Nat.or_assoc, Nat.or_assoc, ← Nat.shiftLeft_add_eq_or_of_lt mid,
    ← Nat.shiftLeft_add_eq_or_of_lt low, ← Nat.shiftLeft_add_eq_or_of_lt (by omega : _ < 2 ^ 8)]
  omega

theorem getUint32_putUint32 (value : Nat) (h : value < 2 ^ 32) :
    getUint32 (putUint32 value) = value := by
  rw [getUint32_eq_sum]
  simp only [putUint32, byteAt, List.getD_cons_zero, List.getD_cons_succ, and_ff,
    UInt8.toNat_ofNat', Nat.shiftRight_eq_div_pow]
  omega

end Uzmq.Wire
