import ApproxSet.Naturals

/-!
# Floating-point numbers taken apart

A finite floating-point number is a signed natural number times a power of two. `Shape.of` reads
sign, significand and exponent off the bits of a number, and `ceiling` rounds a number up to a
natural number that fits into a word. Counts enter floating-point arithmetic by `ofCount`.
-/

namespace ApproxSet.Numbers

/-- What a floating-point number stands for. -/
inductive Shape where
  | nan
  | infinite (negative : Bool)
  /-- The number `significand * 2 ^ exponent`, or its opposite. -/
  | finite (negative : Bool) (significand : Nat) (exponent : Int)
deriving DecidableEq

/-- The shape of a number. The significand has fifty-three binary digits, or fewer if the exponent
is the least one, `-1074`. -/
def Shape.of (x : Float) : Shape :=
  let bits := x.toBits.toNat
  let negative := bits.testBit 63
  let biased := bits / 2 ^ 52 % 2 ^ 11
  let fraction := bits % 2 ^ 52
  if biased = 2047 then
    if fraction = 0 then .infinite negative else .nan
  else if biased = 0 then .finite negative fraction (-1074)
  else .finite negative (fraction + 2 ^ 52) (Int.ofNat biased - 1075)

/-- The least natural number that is not below `x`. Anything beyond the largest word becomes the
largest word, and negative numbers and NaN become zero. -/
def ceiling (x : Float) : Nat :=
  let largest := 2 ^ 64 - 1
  match Shape.of x with
  | .nan => 0
  | .infinite true => 0
  | .infinite false => largest
  | .finite true _ _ => 0
  | .finite false significand (.ofNat exponent) => min largest (significand * 2 ^ exponent)
  | .finite false significand (.negSucc exponent) =>
    let unit := 2 ^ (exponent + 1)
    (significand + unit - 1) / unit

/-- The floating-point number nearest to a count that fits into a word. -/
def ofCount (count : Nat) : Float :=
  (UInt64.ofNat count).toFloat

end ApproxSet.Numbers
