import ApproxSet.Failure.Basic
import ApproxSet.Numbers.Binary

/-!
# What all filters answer

A filter holds a set of 64-bit keys approximately. It says of every key of the set that it may be
there, and of most other keys that they are not. What it costs is the number of bits of its table.
-/

namespace ApproxSet

/-- The queries that every filter answers. -/
class ApproximateSet (φ : Type) where
  /-- Whether a key may be in the set. -/
  mayContain : φ → UInt64 → Outcome Bool
  /-- The number of bits of the table. -/
  bitCount : φ → Nat

/-- The bits of a filter for each of `keys` keys. It is infinite if there are none. -/
def bitsPerKey {φ : Type} [ApproximateSet φ] (filter : φ) (keys : Nat) : Float :=
  Numbers.ofCount (ApproximateSet.bitCount filter) / Numbers.ofCount keys

end ApproxSet
