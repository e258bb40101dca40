import ApproxSet.Numbers.Binary

/-!
# Shortest decimal text of floating-point numbers

A finite number is written with the fewest decimal digits that are read back as the same number,
and with the nearest such digits where there are several; of two equally near ones the larger is
taken. The text is positional, however long it gets: there is no exponent, and no point behind a
whole number.
-/

namespace ApproxSet.Numbers

/-- A rational number `numerator / denominator` and the half-open or closed interval around it of
all reals that are rounded to it, over the same denominator. -/
structure Interval where
  numerator : Nat
  denominator : Nat
  below : Nat
  above : Nat
  closed : Bool

namespace Interval

/-- The interval of `significand * 2 ^ exponent`. The number below a power of two is only half as
far as the one above. The ends are rounded to the even significand. -/
def of (significand : Nat) (exponent : Int) : Interval :=
  let scale := 2 ^ exponent.toNat
  let unit := 2 ^ (-exponent).toNat
  { numerator := 4 * significand * scale
    denominator := 4 * unit
    below := (if significand = 2 ^ 52 then 1 else 2) * scale
    above := 2 * scale
    closed := significand % 2 = 0 }

/-- Whether the rational number `n / denominator` lies in the interval. -/
def holds (i : Interval) (n : Nat) : Bool :=
  if i.closed then i.numerator ≤ n + i.below && n ≤ i.numerator + i.above
  else i.numerator < n + i.below && n < i.numerator + i.above

end Interval

/-- The multiple `digits * 10 ^ place` in the interval that is nearest to its number, if there is
one. Of two equally near multiples the larger is taken. -/
def multipleAt (i : Interval) (place : Int) : Option Nat :=
  let step := 10 ^ place.toNat * i.denominator
  let spread := 10 ^ (-place).toNat
  let digits := i.numerator * spread / step
  let remainder := i.numerator * spread % step
  let scaled : Interval :=
    { i with
      numerator := i.numerator * spread
      below := i.below * spread
      above := i.above * spread }
  let lower := scaled.holds (digits * step)
  let upper := scaled.holds ((digits + 1) * step)
  if lower && (!upper || 2 * remainder < step) then some digits
  else if upper then some (digits + 1)
  else none

/-- The digits and the place of the last digit of the shortest decimal in the interval. Places are
tried from `place` downwards. -/
def shortest (i : Interval) : (steps : Nat) → (place : Int) → Nat × Int
  | 0, place => (0, place)
  | steps + 1, place =>
    match multipleAt i place with
    | some digits => (digits, place)
    | none => shortest i steps (place - 1)

/-- The decimal `digits * 10 ^ place` in positional notation. -/
def positional (digits : Nat) (place : Int) : String :=
  let text := (toString digits).toList
  match place with
  | .ofNat zeros => String.ofList (text ++ List.replicate zeros '0')
  | .negSucc places =>
    let padded := List.replicate (places + 2 - text.length) '0' ++ text
    let whole := padded.length - (places + 1)
    String.ofList (padded.take whole ++ '.' :: padded.drop whole)

/-- The text of a floating-point number. -/
def decimal (x : Float) : String :=
  match Shape.of x with
  | .nan => "NaN"
  | .infinite negative => if negative then "-inf" else "inf"
  | .finite negative significand exponent =>
    let sign := if negative then "-" else ""
    if significand = 0 then sign ++ "0"
    else
      let (digits, place) := shortest (Interval.of significand exponent) 700 310
      sign ++ positional digits place

end ApproxSet.Numbers
