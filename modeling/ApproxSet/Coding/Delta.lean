import ApproxSet.Bits.Stream

/-!
# Elias delta codes

A positive number `v` with `n` binary digits is coded as the binary digits of `n`, the binary
digits of `v` without the leading one, and, in front, one zero less than `n` has digits. No code is
the beginning of another, so codes can follow each other without separators.

Digits are written with the highest first, unlike the fixed-width values of a stream.
-/

namespace ApproxSet.Coding

open Bits Outcome

/-- The lowest `count` binary digits of a number, the highest first. -/
def digits : (count : Nat) → (value : Nat) → List Bool
  | 0, _ => []
  | count + 1, value => value.testBit count :: digits count value

/-- The number that binary digits make below the given leading part. -/
def ofDigits (leading : Nat) (bits : List Bool) : Nat :=
  bits.foldl (fun value bit => 2 * value + bit.toNat) leading

namespace Delta

/-- The code of a positive number. -/
def code (value : Nat) : List Bool :=
  let width := value.log2 + 1
  let length := width.log2 + 1
  List.replicate (length - 1) false ++ digits length width ++ digits (width - 1) value

/-- Appends the code of a number, which has to be positive. -/
def write (s : Stream) (value : UInt64) : Outcome Stream := do
  require (0 < value) .deltaOfZero
  let width := value.toNat.log2 + 1
  let length := width.log2 + 1
  let s ← s.append 0 (length - 1)
  (digits length width ++ digits (width - 1) value.toNat).foldlM Stream.appendBit s

/-- Reads zeros up to the first one and counts them. More than `allowed` zeros are damage, which
is reported at the bit where the code starts. -/
def readZeros (start : Nat) : (allowed : Nat) → Reading Nat
  | 0 => do
    Reading.expect (← Reading.bit) (.deltaLength start)
    return 0
  | allowed + 1 => do
    if ← Reading.bit then return 0 else return (← readZeros start allowed) + 1

/-- Reads `count` binary digits below the given leading part. -/
def readDigits : (count : Nat) → (leading : Nat) → Reading Nat
  | 0, leading => return leading
  | count + 1, leading => do
    let bit ← Reading.bit
    readDigits count (2 * leading + bit.toNat)

/-- Reads one code. Seven zeros in front, or a number of more than sixty-four digits, are damage. -/
def read : Reading UInt64 := do
  let start ← Reading.position
  let zeros ← readZeros start 6
  let width ← readDigits zeros 1
  Reading.expect (width ≤ 64) (.deltaWidth start width)
  let value ← readDigits (width - 1) 1
  return UInt64.ofNat value

end Delta

end ApproxSet.Coding
