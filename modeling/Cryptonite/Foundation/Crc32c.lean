import Mathlib.Data.Nat.Notation

/-!
# CRC-32C

The checksum LevelDB keeps with its records, and the masked form it stores. `crc32c` is the
polynomial division done a bit at a time; LevelDB does it a byte at a time from tables. Masking
rotates a checksum and adds a constant, and can be undone (`unmask_mask`).
-/

namespace Crc32c

/-- One step of the division by the Castagnoli polynomial, bits reversed. -/
def shift (c : UInt32) : UInt32 := if c &&& 1 = 1 then (c >>> 1) ^^^ 0x82f63b78 else c >>> 1

/-- The remainder after one more byte. -/
def extend (c : UInt32) (b : UInt8) : UInt32 :=
  shift (shift (shift (shift (shift (shift (shift (shift (c ^^^ b.toUInt32))))))))

/-- `Value`. -/
def crc32c (data : List UInt8) : UInt32 := data.foldl extend 0xffffffff ^^^ 0xffffffff

/-- The check value of the algorithm. -/
example : crc32c [0x31, 0x32, 0x33, 0x34, 0x35, 0x36, 0x37, 0x38, 0x39] = 0xe3069283 := by
  decide +kernel

def kMaskDelta : UInt32 := 0xa282ead8

def mask (crc : UInt32) : UInt32 := ((crc >>> 15) ||| (crc <<< 17)) + kMaskDelta

def unmask (maskedCrc : UInt32) : UInt32 :=
  let rot := maskedCrc - kMaskDelta
  (rot >>> 17) ||| (rot <<< 15)

private theorem rotate_back (x : BitVec 32) :
    ((x >>> 15 ||| x <<< 17) >>> 17) ||| ((x >>> 15 ||| x <<< 17) <<< 15) = x := by
  refine BitVec.eq_of_getLsbD_eq fun i hi ↦ ?_
  have htop : x.getLsbD (15 + (17 + i)) = false := BitVec.getLsbD_of_ge x _ (by omega)
  simp only [BitVec.getLsbD_or, BitVec.getLsbD_ushiftRight, BitVec.getLsbD_shiftLeft, htop]
  -- the low bits come back from the top, the others from where they were moved down to
  rcases Nat.lt_or_ge i 15 with hlow | hhigh
  · simp [hlow, show 17 + i < 32 by omega]
  · simp [hi, Nat.not_lt.mpr hhigh, Nat.add_sub_cancel' hhigh, show ¬17 + i < 32 by omega,
      show i - 15 < 17 by omega]

theorem unmask_mask (crc : UInt32) : unmask (mask crc) = crc := by
  rw [mask, unmask, UInt32.add_sub_cancel]
  refine UInt32.toBitVec_inj.mp ?_
  simpa using rotate_back crc.toBitVec

end Crc32c
