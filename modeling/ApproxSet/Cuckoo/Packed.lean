import ApproxSet.Bits.Store
import ApproxSet.Cuckoo.Bucket
import ApproxSet.Filter

/-!
# Packed cuckoo filters

Entries of any width from one to thirty-two bits stand back to back in a store of bits, bucket by
bucket.
-/

namespace ApproxSet.Cuckoo

open Outcome

/-- Buckets of packed entries. -/
structure Packed where
  store : Bits.Store
  buckets : Nat
  entries : Nat
  width : Nat
deriving DecidableEq

namespace Packed

/-- A table of empty buckets. -/
def empty (buckets entries width : Nat) : Outcome Packed := do
  let count ← Checked.mul 64 buckets entries
  let bits ← Checked.mul 64 count width
  return ⟨← Bits.Store.zeros bits, buckets, entries, width⟩

/-- The first bit of an entry. -/
def offset (t : Packed) (bucket entry : Nat) : Outcome Nat := do
  let first ← Checked.mul 64 bucket t.entries
  let index ← Checked.add 64 first entry
  Checked.mul 64 index t.width

/-- The fingerprint of an entry. -/
def entry (t : Packed) (bucket entry : Nat) : Outcome UInt64 := do
  t.store.read (← t.offset bucket entry) t.width

/-- The first of the last `left` entries of a bucket that holds a fingerprint. -/
def findFrom (t : Packed) (bucket : Nat) (print : UInt64) : (left : Nat) → Outcome (Option Nat)
  | 0 => return none
  | left + 1 => do
    let index := t.entries - (left + 1)
    if (← t.entry bucket index) = print then return some index
    findFrom t bucket print left

/-- The first entry of a bucket that holds a fingerprint. -/
def find (t : Packed) (bucket : Nat) (print : UInt64) : Outcome (Option Nat) :=
  t.findFrom bucket print t.entries

/-- Whether some entry of a bucket holds a fingerprint. -/
def holds (t : Packed) (bucket : Nat) (print : UInt64) : Outcome Bool := do
  return (← t.find bucket print).isSome

/-- Stores a fingerprint in the first empty entry of a bucket. -/
def insert? (t : Packed) (bucket : Nat) (print : UInt64) : Outcome (Option Packed) := do
  match ← t.find bucket 0 with
  | none => return none
  | some index =>
    let store ← t.store.write (← t.offset bucket index) print t.width
    return some { t with store := store }

/-- Replaces the fingerprint of an entry. -/
def swap (t : Packed) (bucket entry : Nat) (print : UInt64) : Outcome (UInt64 × Packed) := do
  let offset ← t.offset bucket entry
  let evicted ← t.store.read offset t.width
  let store ← t.store.replace offset print t.width
  return (evicted, { t with store := store })

instance : Buckets Packed where
  bucketCount := Packed.buckets
  entriesPerBucket := Packed.entries
  entry := entry
  holds := holds
  insert? := insert?
  swap := swap

/-- Whether a key may be in the set. -/
def mayContain (t : Packed) (key : UInt64) : Outcome Bool := do
  let home ← Home.of key t.width t.buckets
  if ← t.holds home.bucket home.print then return true
  t.holds (← partner home.bucket home.print t.buckets) home.print

/-- All entries, bucket by bucket. -/
def allEntries (t : Packed) : Outcome (List UInt64) := do
  let rows ← (List.range t.buckets).mapM fun bucket =>
    (List.range t.entries).mapM fun entry => t.entry bucket entry
  return rows.flatten

/-- The number of entries that are not empty. -/
def count (t : Packed) : Outcome Nat := do
  return (← t.allEntries).countP (· ≠ 0)

/-- Whether all entries are empty. -/
def isEmpty (t : Packed) : Bool :=
  t.store.ones == 0

/-- The share of entries that are not empty. -/
def load (t : Packed) : Outcome Float := do
  return Numbers.ofCount (← t.count) / Numbers.ofCount (t.buckets * t.entries)

instance : ApproximateSet Packed where
  mayContain := mayContain
  bitCount t := t.buckets * t.entries * t.width

end Packed

end ApproxSet.Cuckoo
