import ApproxSet.Coding.Delta
import ApproxSet.Coding.Range
import ApproxSet.XorSet.Build

/-!
# The serialized form of packed xor filters

One stream of bits holds four delta codes (the slot count and one, the fingerprint width, the salt
and one, the number of nonzero slots and one), then the nonzero slot values in order, and last the
range code of one flag for each slot, set if the slot is not zero. Slots of the first third are zero
more often than those of the others, so each third has a probability of its own.

Reading accepts a stream only if it is used up but for less than an octet.
-/

namespace ApproxSet.XorSet.Serial

open Bits Coding Outcome

/-- How often a slot of each third is zero, out of `2 ^ 11`. -/
def zeroRates : Nat × Nat × Nat :=
  (532, 389, 225)

/-- How often the slot with the given index is zero. -/
def zeroRate (index third : Nat) : Outcome Nat := do
  match ← Checked.div index third with
  | 0 => return zeroRates.1
  | 1 => return zeroRates.2.1
  | _ => return zeroRates.2.2

/-- The range code of the flags of all slots. -/
def encodeMarks (values : List UInt64) (third : Nat) : Outcome (List UInt8) := do
  let flags ← values.zipIdx.mapM fun value => do
    return (value.1 != 0, ← zeroRate value.2 third)
  Range.encodeAll flags

/-- The stream of a filter. The largest salt has no successor and cannot be written. -/
def write (filter : Packed) : Outcome Stream := do
  require (filter.salt < 0xffffffffffffffff) (.largestSalt filter.salt)
  let values ← filter.values
  let nonzero := values.filter (· ≠ 0)
  let s ← Delta.write Stream.empty (UInt64.ofNat (← Checked.add 64 filter.slotCount 1))
  let s ← Delta.write s (UInt64.ofNat filter.width)
  let s ← Delta.write s (filter.salt + 1)
  let s ← Delta.write s (UInt64.ofNat (← Checked.add 64 nonzero.length 1))
  let s ← nonzero.foldlM (fun s value => s.append value filter.width) s
  let marks ← encodeMarks values filter.third
  marks.foldlM (fun s octet => s.append octet.toUInt64 8) s

/-- The serialized form of a filter. -/
def toBytes (filter : Packed) : Outcome (List UInt8) := do
  return (← write filter).toBytes

/-- The four numbers in front of a serialized filter. -/
structure Header where
  slots : Nat
  width : Nat
  salt : UInt64
  nonzero : Nat

/-- Reads a number that is written as its successor. -/
def readCount : Reading Nat := do
  Checked.sub (← Delta.read).toNat 1

/-- Reads the four numbers, each of which is checked before the next one is read. -/
def readHeader : Reading Header := do
  let slots ← readCount
  Reading.expect (0 < slots ∧ slots % 3 = 0) (.slotCount slots)
  let width := (← Delta.read).toNat
  Reading.expect (width ≤ 32) (.fingerprintWidth width)
  let salt ← readCount
  let nonzero ← readCount
  Reading.expect (nonzero ≤ slots) (.nonzeroCount nonzero slots)
  return ⟨slots, width, UInt64.ofNat salt, nonzero⟩

/-- Reads `count` nonzero values. -/
def readValues (width : Nat) : (count : Nat) → Reading (List UInt64)
  | 0 => return []
  | count + 1 => do
    let value ← Reading.bits width
    Reading.expect (value ≠ 0) .zeroValue
    return value :: (← readValues width count)

/-- Reads the flags of the last `left` slots and gives the next nonzero value to each slot whose
flag is set. Answers the slots and the values that are left over. -/
def readSlots (announced third : Nat) :
    (left index : Nat) → Range.Decoder → List UInt64 → Reading (List UInt64 × List UInt64)
  | 0, _, _, values => return ([], values)
  | left + 1, index, decoder, values => do
    let (marked, decoder) ← decoder.decode (← zeroRate index third)
    match marked, values with
    | false, values =>
      let (slots, rest) ← readSlots announced third left (index + 1) decoder values
      return (0 :: slots, rest)
    | true, value :: values =>
      let (slots, rest) ← readSlots announced third left (index + 1) decoder values
      return (value :: slots, rest)
    | true, [] => throw (.refused (.corrupt (.marksMore announced)))

/-- Gives each nonzero value to the slot with its index, from the given index on. -/
def fill : (values : List UInt64) → (index : Nat) → PackedArray → Outcome PackedArray
  | [], _, slots => return slots
  | value :: values, index, slots => do
    let slots ← if value = 0 then pure slots else slots.assign index value
    fill values (index + 1) slots

/-- The packed array of the given slots. -/
def pack (third width : Nat) (values : List UInt64) : Outcome PackedArray := do
  fill values 0 (← PackedArray.zeros (← Checked.mul 64 3 third) width)

/-- Reads a filter. -/
def read : Reading Packed := do
  let header ← readHeader
  let values ← readValues header.width header.nonzero
  let third := header.slots / 3
  let decoder ← Range.Decoder.start
  let (slots, rest) ← readSlots header.nonzero third header.slots 0 decoder values
  Reading.expect (rest = []) (.marksFewer header.nonzero)
  let stream ← get
  let trailing ← Checked.sub stream.length stream.cursor
  Reading.expect (trailing < 8) (.trailingBits trailing)
  return ⟨header.salt, third, header.width, ← pack third header.width slots⟩

/-- The filter that the octets are the serialized form of. -/
def ofBytes (bytes : List UInt8) : Outcome Packed := do
  let stream ← Stream.ofBytes bytes
  (read.runOn stream).1

end ApproxSet.XorSet.Serial
