import ApproxSet.Filter
import ApproxSet.XorSet.Slots

/-!
# Queries of an xor filter

A finished filter is an array of slots together with the salt and the geometry it was built under. A
key may be in the set if the exclusive or of its three slots is its fingerprint. Lists of keys are
answered in batches: the edges of a whole batch are computed before any slot is read.
-/

namespace ApproxSet.XorSet

/-- The slots, with the salt, the length of a third and the fingerprint width. -/
structure Table (σ : Type) where
  salt : UInt64
  third : Nat
  width : Nat
  slots : σ
deriving DecidableEq

/-- What has to be known of a key to look it up. -/
structure Target where
  edge : Edge
  print : UInt64
deriving Inhabited

namespace Table

variable {σ : Type}

/-- The number of slots. -/
def slotCount (t : Table σ) : Nat :=
  3 * t.third

/-- The number of bits of all slots. -/
def bitCount (t : Table σ) : Nat :=
  t.slotCount * t.width

/-- The edge and the fingerprint of a key. -/
def target (t : Table σ) (key : UInt64) : Outcome Target := do
  let hash := Hash.salted key t.salt
  return ⟨← Edge.of hash t.third, fingerprint hash (Bits.mask t.width)⟩

/-- The number of keys whose edges are computed together. -/
def batchSize : Nat := 32

/-- Puts the targets of a batch into the scratch array, from the given place on. -/
def fillScratch (t : Table σ) : (keys : List UInt64) → (place : Nat) → Array Target →
    Outcome (Array Target)
  | [], _, scratch => return scratch
  | key :: keys, place, scratch => do
    let target ← t.target key
    fillScratch t keys (place + 1) (scratch.setIfInBounds place target)

variable [SlotArray σ]

/-- Whether the slots of an edge combine to the fingerprint. -/
def agrees (t : Table σ) (target : Target) : Outcome Bool := do
  return (← residue t.slots target.edge target.print) == 0

/-- Whether a key may be in the set. -/
def mayContain (t : Table σ) (key : UInt64) : Outcome Bool := do
  t.agrees (← t.target key)

/-- Answers the keys of so many batches. The scratch array is used again for each batch, so behind
the targets of a short batch it may still hold those of the batch before; they are not read. -/
def answerBatches (t : Table σ) : (batches : Nat) → Array Target → List UInt64 →
    Outcome (List Bool)
  | 0, _, _ => return []
  | batches + 1, scratch, keys => do
    let batch := keys.take batchSize
    let scratch ← t.fillScratch batch 0 scratch
    let answers ← (scratch.toList.take batch.length).mapM t.agrees
    return answers ++ (← answerBatches t batches scratch (keys.drop batchSize))

/-- Whether each of the keys may be in the set. -/
def mayContainAll (t : Table σ) (keys : List UInt64) : Outcome (List Bool) :=
  t.answerBatches ((keys.length + batchSize - 1) / batchSize) (Array.replicate batchSize default)
    keys

/-- The value of the slot with the given index, which has to be below the slot count. -/
def slot (t : Table σ) (index : Nat) : Outcome UInt64 := do
  Outcome.require (index < t.slotCount) .unmet
  SlotArray.slot t.slots index

/-- The values of all slots. -/
def values (t : Table σ) : Outcome (List UInt64) :=
  (List.range t.slotCount).mapM t.slot

instance : ApproximateSet (Table σ) where
  mayContain := mayContain
  bitCount := bitCount

end Table

end ApproxSet.XorSet
