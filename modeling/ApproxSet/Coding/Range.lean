import ApproxSet.Bits.Stream

/-!
# Range coding of flags

A range coder turns flags of known probability into nearly as few bits as they carry information.
The encoder narrows an interval of 32-bit length by each flag: a cleared flag keeps the lower part,
a set flag the upper one. Whenever the interval gets shorter than `2 ^ 24`, the top octet of its low
end is put out and the interval is stretched by eight bits. A sum that passes over the top octet
carries into octets that were put out before, so an octet is held back together with the run of
`0xff` that follows it until it is known whether a carry comes.

The decoder keeps the distance of the code from the low end of the interval and reads an octet
whenever the encoder put one out. The first octet of a code is always zero.

Probabilities are given for a cleared flag, out of `2 ^ 11`.
-/

namespace ApproxSet.Coding.Range

open Bits Outcome

/-- The length below which an interval is stretched. -/
def leastRange : Nat := 2 ^ 24

/-- The length of the lower part of an interval. -/
def lowerPart (range probability : Nat) : Outcome Nat :=
  Checked.mul 32 (range / 2 ^ 11) probability

/-- The state of an encoder. The octets put out so far stand in reverse order. -/
structure Encoder where
  low : Nat
  range : Nat
  /-- The octet held back. -/
  held : UInt8
  /-- The number of octets held back: the held one and a run of `0xff`. -/
  pending : Nat
  emitted : List UInt8

namespace Encoder

/-- The state before the first flag. The octet held back stands for a carry out of the first. -/
def start : Encoder where
  low := 0
  range := 2 ^ 32 - 1
  held := 0
  pending := 1
  emitted := []

/-- Puts out `pending` octets, the first of which is `octet`, each increased by the carry. -/
def release (carry : UInt8) : (pending : Nat) → (octet : UInt8) → List UInt8 → List UInt8
  | 0, _, emitted => emitted
  | pending + 1, octet, emitted => release carry pending 0xff ((octet + carry) :: emitted)

/-- Puts out the octets held back if it is known whether a carry comes into them, and holds back the
top octet of the low end instead. -/
def settle (e : Encoder) : Outcome Encoder :=
  if e.low < 0xff000000 ∨ e.low / 2 ^ 32 ≠ 0 then do
    require (0 < e.pending) .overflow
    let carry := UInt8.ofNat (e.low / 2 ^ 32)
    return { e with
      emitted := release carry e.pending e.held e.emitted
      held := UInt8.ofNat (e.low / 2 ^ 24)
      pending := 0 }
  else .ok e

/-- Moves the top octet of the low end to the octets held back. -/
def shiftOut (e : Encoder) : Outcome Encoder := do
  let e ← e.settle
  let pending ← Checked.add 64 e.pending 1
  return { e with pending := pending, low := e.low % 2 ^ 24 * 2 ^ 8 }

/-- Stretches a short interval. Three octets stretch the shortest one. -/
def stretch : (steps : Nat) → Encoder → Outcome Encoder
  | 0, e => return e
  | steps + 1, e =>
    if leastRange ≤ e.range then return e
    else do
      let e ← shiftOut { e with range := e.range * 2 ^ 8 % 2 ^ 32 }
      stretch steps e

/-- Keeps the lower part of the interval, or what is above it. -/
def narrow (e : Encoder) (flag : Bool) (lower : Nat) : Outcome Encoder :=
  if flag then do
    let low ← Checked.add 64 e.low lower
    let range ← Checked.sub e.range lower
    return { e with low := low, range := range }
  else .ok { e with range := lower }

/-- Encodes a flag that is cleared with the given probability. -/
def encode (e : Encoder) (flag : Bool) (probability : Nat) : Outcome Encoder := do
  let lower ← lowerPart e.range probability
  let e ← e.narrow flag lower
  stretch 3 e

/-- Puts out all octets of the low end. -/
def flush : (count : Nat) → Encoder → Outcome Encoder
  | 0, e => return e
  | count + 1, e => do flush count (← shiftOut e)

/-- The octets of the code after the last flag. -/
def finish (e : Encoder) : Outcome (List UInt8) := do
  return (← flush 5 e).emitted.reverse

end Encoder

/-- The octets of the code of flags, each with the probability that it is cleared. -/
def encodeAll (flags : List (Bool × Nat)) : Outcome (List UInt8) := do
  let e ← flags.foldlM (fun e flag => Encoder.encode e flag.1 flag.2) Encoder.start
  e.finish

/-- The state of a decoder. -/
structure Decoder where
  range : Nat
  /-- The distance of the code from the low end of the interval. -/
  code : Nat

namespace Decoder

/-- Appends the next octet of the stream to a code, of which 32 bits are kept. -/
def nextOctet (code : Nat) : Reading Nat := do
  let octet ← Reading.bits 8
  return code * 2 ^ 8 % 2 ^ 32 + octet.toNat

/-- Reads the octets in front of the first flag, of which the first has to be zero. -/
def start : Reading Decoder := do
  let position ← Reading.position
  let first ← Reading.bits 8
  Reading.expect (first = 0) (.rangeStart position)
  let code ← nextOctet 0
  let code ← nextOctet code
  let code ← nextOctet code
  let code ← nextOctet code
  return ⟨2 ^ 32 - 1, code⟩

/-- Stretches a short interval. -/
def stretch : (steps : Nat) → Decoder → Reading Decoder
  | 0, d => return d
  | steps + 1, d =>
    if leastRange ≤ d.range then return d
    else do
      let code ← nextOctet d.code
      stretch steps ⟨d.range * 2 ^ 8 % 2 ^ 32, code⟩

/-- Reads a flag that is cleared with the given probability. -/
def decode (d : Decoder) (probability : Nat) : Reading (Bool × Decoder) := do
  let lower ← lowerPart d.range probability
  if d.code < lower then
    return (false, ← stretch 3 ⟨lower, d.code⟩)
  else
    let code ← Checked.sub d.code lower
    let range ← Checked.sub d.range lower
    return (true, ← stretch 3 ⟨range, code⟩)

end Decoder

end ApproxSet.Coding.Range
