import ApproxSet.Failure.Basic
import ApproxSet.Naturals

/-!
# The random numbers of evictions

Evictions draw from an xorshift generator of four 32-bit words, which a linear congruential
generator fills from a 64-bit seed. A number below a bound is the high half of the product of the
bound with a 64-bit draw; draws whose product has too large a low half are thrown away, so that all
numbers are equally likely.
-/

namespace ApproxSet.Cuckoo

open Outcome

/-- The state of the generator. -/
structure Random where
  x : UInt32
  y : UInt32
  z : UInt32
  w : UInt32
deriving DecidableEq

namespace Random

/-- A step of the generator that spreads a seed: the next state. -/
def seedStep (state : UInt64) : UInt64 :=
  state * 6364136223846793005 + 11634580027462260723

/-- A 32-bit word turned right by the low five bits of `count`. -/
def turnRight (word count : UInt32) : UInt32 :=
  let count := count % 32
  (word >>> count) ||| (word <<< ((32 - count) % 32))

/-- The word that the generator which spreads a seed answers in a state. -/
def seedWord (state : UInt64) : UInt32 :=
  turnRight (((state >>> 18) ^^^ state) >>> 27).toUInt32 (state >>> 59).toUInt32

/-- The generator of a seed. Its words are not all zero. -/
def ofSeed (seed : UInt64) : Random :=
  let a := seedStep seed
  let b := seedStep a
  let c := seedStep b
  let d := seedStep c
  let r : Random := ⟨seedWord a, seedWord b, seedWord c, seedWord d⟩
  if r = ⟨0, 0, 0, 0⟩ then ⟨0x0bad5eed, 0x0bad5eed, 0x0bad5eed, 0x0bad5eed⟩ else r

/-- Draws 32 bits. -/
def next32 (r : Random) : UInt32 × Random :=
  let t := r.x ^^^ (r.x <<< 11)
  let w := r.w ^^^ (r.w >>> 19) ^^^ (t ^^^ (t >>> 8))
  (w, ⟨r.y, r.z, r.w, w⟩)

/-- Draws 64 bits, the low half first. -/
def next64 (r : Random) : UInt64 × Random :=
  let (low, r) := r.next32
  let (high, r) := r.next32
  (high.toUInt64 <<< 32 ||| low.toUInt64, r)

/-- Draws a bit: the highest one of 32. -/
def coin (r : Random) : Bool × Random :=
  let (bits, r) := r.next32
  (0x80000000 ≤ bits, r)

/-- Draws until the low half of the product with the bound is at most `zone`. The last of the draws
allowed is taken as it comes. -/
def drawBelow (bound zone : Nat) : (draws : Nat) → Random → Nat × Random
  | 0, r => (r.next64.1.toNat * bound / 2 ^ 64, r.next64.2)
  | draws + 1, r =>
    let (bits, r) := r.next64
    let product := bits.toNat * bound
    if product % 2 ^ 64 ≤ zone then (product / 2 ^ 64, r) else drawBelow bound zone draws r

/-- Draws a number below a positive bound. The number of draws allowed is the number of states. -/
def below (r : Random) (bound : Nat) : Outcome (Nat × Random) := do
  require (0 < bound) .unmet
  let zone := bound * 2 ^ (63 - bound.log2) - 1
  return drawBelow bound zone (2 ^ 128) r

end Random

end ApproxSet.Cuckoo
