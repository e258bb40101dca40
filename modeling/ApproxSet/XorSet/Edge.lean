import ApproxSet.Hash.Mix
import ApproxSet.Numbers.Binary

/-!
# The hypergraph of an xor filter

The slots of an xor filter are split into three thirds of one length. Every key is an edge that
joins one slot of each third, taken from three windows of its hash, and it has a fingerprint, taken
from both halves of the hash. A table of `n` keys gets about `1.23 * n` slots.
-/

namespace ApproxSet.XorSet

/-- The length of each third of the table for a number of keys. -/
def thirdFor (keys : Nat) : Outcome Nat := do
  let slots ← Checked.add 64 3 (Numbers.ceiling (1.23 * Numbers.ofCount keys))
  return slots / 3

/-- The three slots of a key. -/
structure Edge where
  first : Nat
  second : Nat
  third : Nat
deriving DecidableEq, Inhabited

/-- The slots of an edge in the order of the thirds. -/
def Edge.slots (e : Edge) : List Nat :=
  [e.first, e.second, e.third]

/-- The edge of a hash in a table with thirds of the given length. -/
def Edge.of (hash : UInt64) (third : Nat) : Outcome Edge := do
  let first ← Hash.scale (Hash.low hash) third
  let second ← Checked.add 64 third (← Hash.scale (Hash.window hash 21) third)
  let double ← Checked.mul 64 2 third
  let last ← Checked.add 64 double (← Hash.scale (Hash.window hash 42) third)
  return ⟨first, second, last⟩

/-- The edge of a key under a salt. -/
def Edge.ofKey (third : Nat) (salt key : UInt64) : Outcome Edge :=
  Edge.of (Hash.salted key salt) third

/-- The fingerprint of a hash: the bits under the mask of both halves, combined. -/
def fingerprint (hash mask : UInt64) : UInt64 :=
  (hash ^^^ (hash >>> 32)) &&& mask

end ApproxSet.XorSet
