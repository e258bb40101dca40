import ApproxSet.Bits.Word
import ApproxSet.Hash.Mix
import ApproxSet.Numbers.Binary

/-!
# Buckets of a cuckoo filter

A cuckoo filter stores fingerprints in buckets. A key has a fingerprint, taken from the low bits of
its hash, and a home bucket, taken from the high half. Bucket and fingerprint together determine a
partner bucket, from which the same rule leads back; so a fingerprint can be moved between its two
buckets although its key is not known. For that the number of buckets has to be even.

The fingerprint zero stands for an empty entry.
-/

namespace ApproxSet.Cuckoo

open Outcome

/-- An odd number below an even number of buckets, which depends on the fingerprint alone. -/
def oddOffset (print : UInt64) (buckets : Nat) : Outcome Nat := do
  let mixed := Hash.low print * 0x5bd1e995
  let half ← Hash.scale mixed (buckets / 2)
  Checked.add 64 (2 * half) 1

/-- The other bucket for a fingerprint in the given bucket: the one that makes the sum of both and
the odd offset a multiple of the number of buckets. -/
def partner (bucket : Nat) (print : UInt64) (buckets : Nat) : Outcome Nat := do
  require (buckets % 2 = 0 ∧ bucket < buckets) .unmet
  let sum ← Checked.add 64 bucket (← oddOffset print buckets)
  if sum ≤ buckets then return buckets - sum
  let double ← Checked.mul 64 2 buckets
  Checked.sub double sum

/-- The number of buckets for a number of keys: enough for the load factor, and about as many more
as the square root of that, made even. -/
def bucketsFor (keys entries : Nat) (loadFactor : Float) : Outcome Nat := do
  let needed := Numbers.ceiling (Numbers.ofCount keys / Numbers.ofCount entries / loadFactor)
  let spare := Numbers.ceiling (Numbers.ofCount needed).sqrt
  let buckets ← Checked.add 64 needed spare
  return max 2 (← Checked.add 64 buckets (buckets % 2))

/-- A fingerprint in one of its two buckets. -/
structure Home where
  print : UInt64
  bucket : Nat
deriving DecidableEq

/-- The fingerprint of `width` bits and the home bucket of a key. The fingerprint zero is replaced
by one. -/
def Home.of (key : UInt64) (width buckets : Nat) : Outcome Home := do
  let hash := Hash.mix key
  require (width < 64) .overflow
  let print := hash &&& Bits.mask width
  let bucket ← Hash.scale (Hash.high hash) buckets
  return ⟨if print = 0 then 1 else print, bucket⟩

/-- Tables of buckets with the same number of entries each. -/
class Buckets (τ : Type) where
  bucketCount : τ → Nat
  entriesPerBucket : τ → Nat
  /-- The fingerprint of an entry. -/
  entry : τ → (bucket entry : Nat) → Outcome UInt64
  /-- Whether some entry of a bucket holds a fingerprint. -/
  holds : τ → (bucket : Nat) → (print : UInt64) → Outcome Bool
  /-- Stores a fingerprint in the first empty entry of a bucket, if there is one. -/
  insert? : τ → (bucket : Nat) → (print : UInt64) → Outcome (Option τ)
  /-- Replaces the fingerprint of an entry and answers the old one. -/
  swap : τ → (bucket entry : Nat) → (print : UInt64) → Outcome (UInt64 × τ)

end ApproxSet.Cuckoo
