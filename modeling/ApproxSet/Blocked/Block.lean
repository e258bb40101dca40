import ApproxSet.XorSet.Build

/-!
# The blocks of a blocked filter

A block is an xor filter small enough for a cache line: one octet for the salt and sixty-three slots
of one octet. Its keys are the hashes that were routed to it, hashed once more under the salt. The
salt is the first of the two hundred and fifty-six under which they peel.
-/

namespace ApproxSet.Blocked

open Outcome

/-- The length of each third of a block. -/
def blockThird : Nat := 21

/-- The number of salts that fit into an octet. -/
def saltCount : Nat := 256

/-- A salt and the slots solved under it. -/
structure Block where
  salt : UInt8
  slots : Array UInt8
deriving DecidableEq

/-- The octets of a block, its salt first. -/
def Block.octets (b : Block) : List UInt8 :=
  b.salt :: b.slots.toList

/-- Solves the hashes of a block under the first of the last `left` salts that peels them. -/
def solveFrom (hashes : List UInt64) : (left : Nat) → Outcome (Option Block)
  | 0 => return none
  | left + 1 => do
    let salt := saltCount - (left + 1)
    match ← XorSet.peel hashes blockThird (UInt64.ofNat salt) with
    | .nothing order =>
      let slots ← XorSet.SlotArray.zeros (3 * blockThird) 8
      let slots ← XorSet.solve blockThird (UInt64.ofNat salt) 8 order slots
      return some ⟨UInt8.ofNat salt, slots⟩
    | .core _ => solveFrom hashes left

/-- The block of the given hashes, if they peel under some salt. -/
def solve (hashes : List UInt64) : Outcome (Option Block) :=
  solveFrom hashes saltCount

/-- All blocks, or the first one that does not peel. -/
inductive Assembly where
  | complete (blocks : List Block)
  | stuck (block keys : Nat)
deriving DecidableEq

/-- Solves the blocks in order, of which `solved` are done and stand in reverse. -/
def assembleFrom : (parts : List (List UInt64)) → (solved : List Block) → Outcome Assembly
  | [], solved => return .complete solved.reverse
  | hashes :: parts, solved => do
    match ← solve hashes with
    | some block => assembleFrom parts (block :: solved)
    | none => return .stuck solved.length hashes.length

/-- Solves all blocks in order. -/
def assemble (parts : List (List UInt64)) : Outcome Assembly :=
  assembleFrom parts []

end ApproxSet.Blocked
