import ApproxSet.Blocked.Block
import ApproxSet.Blocked.Split
import ApproxSet.CacheLine.Race
import ApproxSet.Filter

/-!
# Blocked xor filters

A blocked filter answers each query from a single cache line: the hash of a key under the seed picks
a block of sixty-four octets, and the block is a small xor filter of its own. The blocks lie behind
each other in a buffer that is one octet short of a further block, so that they can start at any
offset below sixty-four. The offset makes queries fast or slow but never changes an answer.

If a block does not peel, all keys are split anew under the next seed. Keys that occur twice never
peel and are looked for under the first seed.
-/

namespace ApproxSet.Blocked

open Outcome CacheLine

/-- Where the first block is placed in its buffer. -/
inductive Placement where
  /-- At a given offset, of which the remainder by sixty-four counts. -/
  | fixed (offset : Nat)
  /-- At the first octet whose address is a multiple of sixty-four. -/
  | aligned
  /-- Where races show the start of a cache line, or at the start of the buffer. -/
  | raced (settings : RaceSettings)
deriving DecidableEq

/-- What the machine contributes to the placement. -/
structure Machine where
  /-- The octets from the start of the buffer to the next multiple of sixty-four. A number that is
  not below sixty-four says that there is none. -/
  gap : Nat
  /-- The address of the buffer that is raced on. -/
  racedAddress : Nat
  /-- The address of the buffer that is kept. -/
  keptAddress : Nat
  /-- The reads of each race. -/
  reads : Reads

/-- What a construction can be told beside the keys. -/
structure Settings where
  placement : Placement := .fixed 0
  /-- The seed under which keys are first split. -/
  seed : UInt64 := 0
deriving DecidableEq

/-- A buffer with blocks in it. -/
structure Table where
  data : Array UInt8
  offset : Nat
  blocks : Nat
  seed : UInt64
deriving DecidableEq

/-! ### The search for a seed -/

/-- A seed under which all keys peel, with the blocks. -/
structure Solution where
  seed : UInt64
  blocks : List Block
deriving DecidableEq

/-- Splits and solves the keys under one seed after the other. At most `room` seeds are tried, and a
search that used up all of them would never end. -/
def search (keys : List UInt64) (firstSeed : UInt64) : (room : Nat) → (seed : UInt64) →
    Traced Solution
  | 0, _ => Traced.silent (violate .unmet)
  | room + 1, seed => do
    let parts ← split keys seed
    match ← assemble parts with
    | .complete blocks => return ⟨seed, blocks⟩
    | .stuck block load =>
      XorSet.demandDistinctIf (seed = firstSeed) keys
      Traced.report (.blockStalled block load seed)
      search keys firstSeed room (seed + 1)

/-- The number of seeds. -/
def seedRoom : Nat := 2 ^ 64

/-! ### The buffer -/

/-- The size of the buffer for a number of blocks. -/
def bufferSize (blocks : Nat) : Nat :=
  blocks * lineSize + lineSize - 1

/-- The offset of the first block in a buffer of the given size. A line that was found in the buffer
raced on lies elsewhere in the buffer that is kept. -/
def chooseOffset (machine : Machine) (size : Nat) : Placement → Traced Nat
  | .fixed offset => return offset % lineSize
  | .aligned => return if machine.gap < lineSize then machine.gap else 0
  | .raced settings => do
    match ← findLine settings machine.reads (max size (lineSize + pairDistance)) with
    | some start =>
      return (start + machine.racedAddress % lineSize + lineSize
        - machine.keptAddress % lineSize) % lineSize
    | none =>
      Traced.report .noLineFound
      return 0

/-- Writes octets into a buffer. -/
def writeOctets : (octets : List UInt8) → (start : Nat) → Array UInt8 → Array UInt8
  | [], _, data => data
  | octet :: octets, start, data =>
    writeOctets octets (start + 1) (data.setIfInBounds start octet)

/-- Writes the blocks behind each other, each of which has to lie within the buffer. -/
def placeBlocks : (blocks : List Block) → (start : Nat) → Array UInt8 → Outcome (Array UInt8)
  | [], _, data => return data
  | block :: blocks, start, data => do
    require (start + lineSize ≤ data.size) .outOfBounds
    placeBlocks blocks (start + lineSize) (writeOctets block.octets start data)

/-- Builds a filter of distinct keys. -/
def build (machine : Machine) (s : Settings) (keys : List UInt64) : Traced Table := do
  let solution ← search keys s.seed seedRoom s.seed
  let count := solution.blocks.length
  let offset ← chooseOffset machine (bufferSize count) s.placement
  Traced.report (.blocksPlaced count keys.length offset)
  let data ← placeBlocks solution.blocks offset (Array.replicate (bufferSize count) 0)
  return ⟨data, offset, count, solution.seed⟩

/-- The filter of distinct keys with the usual settings. -/
def tableOf (machine : Machine) (keys : List UInt64) : Traced Table :=
  build machine {} keys

namespace Table

/-- The octets of the block with the given index, which has to lie within the buffer. -/
def line (t : Table) (block : Nat) : Outcome (Array UInt8) := do
  let start := t.offset + block * lineSize
  require (start + lineSize ≤ t.data.size) .outOfBounds
  return t.data.extract start (start + lineSize)

/-- Whether a key may be in the set. -/
def mayContain (t : Table) (key : UInt64) : Outcome Bool := do
  let hash := Hash.salted key t.seed
  let line ← t.line (← blockOf hash t.blocks)
  let salt ← XorSet.SlotArray.slot line 0
  let hash := Hash.salted hash salt
  let edge ← XorSet.Edge.of hash blockThird
  let rest ← XorSet.residue (line.extract 1 lineSize) edge (XorSet.fingerprint hash 0xff)
  return rest == 0

/-- The number of bits of all blocks. -/
def bitCount (t : Table) : Nat :=
  t.blocks * lineSize * 8

instance : ApproximateSet Table where
  mayContain := mayContain
  bitCount := bitCount

end Table

end ApproxSet.Blocked
