/-!
# Bits of a word

Words of sixty-four bits as short rows of bits: the lowest bits of a word, moves up and down by a
number of bits below sixty-four, and the places of its ones.
-/

namespace ApproxSet.Bits

/-- The word whose lowest `width` bits are ones. -/
def mask (width : Nat) : UInt64 :=
  if 64 ≤ width then 0xffffffffffffffff else ((1 : UInt64) <<< UInt64.ofNat width) - 1

/-- A word moved up by `count` bits, for `count` below `64`. -/
def shiftUp (word : UInt64) (count : Nat) : UInt64 :=
  word <<< UInt64.ofNat count

/-- A word moved down by `count` bits, for `count` below `64`. -/
def shiftDown (word : UInt64) (count : Nat) : UInt64 :=
  word >>> UInt64.ofNat count

/-- The number of ones in a word. -/
def onesIn (word : UInt64) : Nat :=
  (List.range 64).countP fun i => word.toNat.testBit i

/-- The index of the lowest one of a word, or sixty-four if there is none. -/
def lowestOne (word : UInt64) : Nat :=
  ((List.range 64).find? fun i => word.toNat.testBit i).getD 64

end ApproxSet.Bits
