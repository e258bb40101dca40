import ApproxSet.Bits.Store
import ApproxSet.Filter
import ApproxSet.Hash.Mix

/-!
# Bloom filters

A Bloom filter is a row of bits. Each key turns on as many bits as there are hash functions; a key
may be in the set if all of its bits are on. The positions of a key come from one mixed hash: the
high half is the first of an arithmetic progression of 32-bit hashes whose step is the low half,
made odd.
-/

namespace ApproxSet

/-- A row of bits and the number of hash functions. -/
structure Bloom where
  bits : Bits.Store
  hashers : Nat
deriving DecidableEq

namespace Bloom

/-- The best number of hash functions: the bits for each key times the natural logarithm of two,
rounded up. -/
def hashersFor (bitsPerKey : Nat) : Nat :=
  Numbers.ceiling (Numbers.ofCount bitsPerKey * 0.6931471805599453)

/-- The hash number `index` of a mixed key. -/
def hashAt (hash : UInt64) (index : Nat) : UInt32 :=
  Hash.high hash + UInt32.ofNat index * (Hash.low hash ||| 1)

/-- The number of hashes that a key takes. Only the low 32 bits of the number of hash functions
count. -/
def hashCount (filter : Bloom) : Nat :=
  filter.hashers % 2 ^ 32

/-- The position of the hash number `index` of a mixed key. -/
def position (length : Nat) (hash : UInt64) (index : Nat) : Outcome Nat :=
  Hash.scale (hashAt hash index) length

/-- Turns on the bits of the next `count` hashes of a mixed key, from number `index` on. -/
def markFrom (hash : UInt64) : (count : Nat) → (index : Nat) → Bits.Store → Outcome Bits.Store
  | 0, _, bits => return bits
  | count + 1, index, bits => do
    let place ← position bits.length hash index
    markFrom hash count (index + 1) (← bits.setBit place)

/-- Whether the bits of the next `count` hashes of a mixed key are on, from number `index` on. The
first bit that is off decides. -/
def markedFrom (bits : Bits.Store) (hash : UInt64) : (count : Nat) → (index : Nat) → Outcome Bool
  | 0, _ => return true
  | count + 1, index => do
    let place ← position bits.length hash index
    if ← bits.getBit place then markedFrom bits hash count (index + 1) else return false

/-- Adds a key. -/
def insert (filter : Bloom) (key : UInt64) : Outcome Bloom := do
  let bits ← markFrom (Hash.mix key) filter.hashCount 0 filter.bits
  return { filter with bits := bits }

/-- The filter of no keys with at least sixty-four bits. -/
def ofSize (keys bitsPerKey : Nat) : Outcome Bloom := do
  let size ← Checked.mul 64 keys bitsPerKey
  return ⟨← Bits.Store.zeros (max 64 size), hashersFor bitsPerKey⟩

/-- The filter of a list of keys with the given number of bits for each key. -/
def build (keys : List UInt64) (bitsPerKey : Nat) : Outcome Bloom := do
  Outcome.demand (0 < bitsPerKey) (.invalidArgument .noBitsPerKey)
  keys.foldlM insert (← ofSize keys.length bitsPerKey)

/-- Whether a key may be in the set. -/
def mayContain (filter : Bloom) (key : UInt64) : Outcome Bool :=
  markedFrom filter.bits (Hash.mix key) filter.hashCount 0

/-- The power of a floating-point number by repeated squaring, the lowest binary digit of the
exponent first. -/
def powerLoop (steps : Nat) (base : Float) (exponent : Nat) (product : Float) : Float :=
  match steps with
  | 0 => product
  | steps + 1 =>
    let product := if exponent % 2 = 1 then product * base else product
    if exponent / 2 = 0 then product else powerLoop steps (base * base) (exponent / 2) product

/-- A floating-point number to the power of an integer below `2 ^ 32` in size. -/
def power (base : Float) (exponent : Int) : Float :=
  let size := powerLoop 33 base exponent.natAbs 1.0
  if exponent < 0 then 1.0 / size else size

/-- The probability that a key outside the set is not recognised, as far as the share of ones
tells. The exponent is the number of hash functions, taken as a signed 32-bit number. -/
def falsePositives (filter : Bloom) : Float :=
  power (Numbers.ofCount filter.bits.ones / Numbers.ofCount filter.bits.length)
    (Int32.ofNat filter.hashers).toInt

instance : ApproximateSet Bloom where
  mayContain := mayContain
  bitCount filter := filter.bits.length

end Bloom

end ApproxSet
