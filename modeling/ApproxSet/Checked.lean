import ApproxSet.Failure.Basic
import ApproxSet.Naturals

/-!
# Arithmetic that stays within a word

Sums, differences and products of natural numbers that are kept in machine words of a given number
of bits. An operation answers the exact result when the word can hold it, and breaks off with
`Breach.overflow` otherwise; nothing is ever reduced modulo the size of the word.
-/

namespace ApproxSet.Checked

open Outcome

/-- The number itself, if it fits into `width` bits. -/
def fit (width value : Nat) : Outcome Nat :=
  if value < 2 ^ width then .ok value else violate .overflow

/-- The sum, if it fits into `width` bits. -/
def add (width a b : Nat) : Outcome Nat :=
  fit width (a + b)

/-- The product, if it fits into `width` bits. -/
def mul (width a b : Nat) : Outcome Nat :=
  fit width (a * b)

/-- The difference, if it is not negative. -/
def sub (a b : Nat) : Outcome Nat :=
  if b ≤ a then .ok (a - b) else violate .overflow

/-- The quotient, if the divisor is not zero. -/
def div (a b : Nat) : Outcome Nat :=
  if b = 0 then violate .overflow else .ok (a / b)

theorem fit_eq_ok {width value : Nat} (h : value < 2 ^ width) : fit width value = .ok value := by
  simp [fit, h]

theorem fit_eq_ok_iff {width value result : Nat} :
    fit width value = .ok result ↔ value < 2 ^ width ∧ value = result := by
  unfold fit
  split
  · simp_all
  · simp only [violate, reduceCtorEq, false_iff]
    omega

theorem sub_eq_ok {a b : Nat} (h : b ≤ a) : sub a b = .ok (a - b) := by
  simp [sub, h]

theorem div_eq_ok {a b : Nat} (h : 0 < b) : div a b = .ok (a / b) := by
  simp [div, Nat.ne_of_gt h]

end ApproxSet.Checked
