import ApproxSet.Hash.Mix
import ApproxSet.Journal

/-!
# Splitting keys into blocks

The high half of a hash decides which block a key belongs to. The number of blocks follows from the
keys wanted per block, sixty-four at first. As long as some block gets more than fifty keys, one key
less per block is wanted; if not even one key per block spreads them, the keys are degenerate.
-/

namespace ApproxSet.Blocked

open Outcome

/-- The keys that a block may have. -/
def maxLoad : Nat := 50

/-- The keys per block wanted at first. -/
def firstBudget : Nat := 64

/-- The block of a hash. -/
def blockOf (hash : UInt64) (blocks : Nat) : Outcome Nat :=
  Hash.scale (Hash.high hash) blocks

/-- The number of blocks for keys of which `budget` are wanted per block. -/
def blocksFor (keys budget : Nat) : Nat :=
  max 1 ((keys + budget - 1) / budget)

/-- The block of each hash. -/
def route (hashes : List UInt64) (blocks : Nat) : Outcome (List Nat) :=
  hashes.mapM fun hash => blockOf hash blocks

/-- Counts one more key for a block. -/
def countIn (loads : Array Nat) (block : Nat) : Outcome (Array Nat) :=
  if h : block < loads.size then .ok (loads.set block (loads[block] + 1)) else violate .outOfBounds

/-- The number of keys of each block. -/
def countLoads (routes : List Nat) (blocks : Nat) : Outcome (Array Nat) :=
  routes.foldlM countIn (Array.replicate blocks 0)

/-- A block with the number of its keys. -/
structure Load where
  block : Nat
  keys : Nat
deriving DecidableEq

/-- The last of the fullest blocks. -/
def fullest (loads : List Nat) : Load :=
  loads.zipIdx.foldl (fun best load => if best.keys ≤ load.1 then ⟨load.2, load.1⟩ else best) ⟨0, 0⟩

/-- The hashes of each block, in their order. -/
def group (blocks : Nat) (routed : List (Nat × UInt64)) : List (List UInt64) :=
  (List.range blocks).map fun block => (routed.filter (·.1 == block)).map (·.2)

/-- Splits hashes with at most `budget` keys wanted per block. A failure reports the last load that
was too high. -/
def splitHashes (hashes : List UInt64) :
    (budget : Nat) → (last : Load) → Traced (List (List UInt64))
  | 0, last => Traced.refuse (.degenerateSlot last.block last.keys)
  | budget + 1, _ => do
    let blocks := blocksFor hashes.length (budget + 1)
    let routes ← route hashes blocks
    let loads ← countLoads routes blocks
    let worst := fullest loads.toList
    if worst.keys ≤ maxLoad then return group blocks (routes.zip hashes)
    else
      Traced.report (.blockOverloaded (budget + 1) worst.block worst.keys)
      splitHashes hashes budget worst

/-- The hashes of the keys under a seed, split into blocks. -/
def split (keys : List UInt64) (seed : UInt64) : Traced (List (List UInt64)) :=
  splitHashes (keys.map (Hash.salted · seed)) firstBudget ⟨0, 0⟩

end ApproxSet.Blocked
