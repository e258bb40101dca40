import ApproxSet.Hash.Mix
import ApproxSet.Proofs.Success

/-!
# Mapping hashes onto a range

`Hash.scale` is the checked form of a plain quotient. Up to `2 ^ 32` places it always succeeds, and
whenever it succeeds the answer is one of the places.
-/

namespace ApproxSet.Hash

open Outcome

/-- The place of a 32-bit hash among `n` places. -/
def place (hash : UInt32) (n : Nat) : Nat :=
  hash.toNat * n / 2 ^ 32

theorem place_lt (hash : UInt32) {n : Nat} (h : 0 < n) : place hash n < n := by
  have hlt : hash.toNat < 2 ^ 32 := hash.toNat_lt
  apply Nat.div_lt_of_lt_mul
  exact Nat.mul_lt_mul_of_pos_right hlt h

theorem scale_eq_ok_iff {hash : UInt32} {n result : Nat} :
    scale hash n = .ok result ↔ hash.toNat * n < 2 ^ 64 ∧ place hash n = result := by
  simp only [scale, bind_eq_ok_iff, Checked.mul_eq_ok_iff]
  constructor
  · rintro ⟨product, ⟨hlt, rfl⟩, h⟩
    exact ⟨hlt, Except.ok.inj h⟩
  · rintro ⟨hlt, rfl⟩
    exact ⟨_, ⟨hlt, rfl⟩, rfl⟩

/-- The product with at most `2 ^ 32` places fits into a word. -/
theorem scale_eq_ok (hash : UInt32) {n : Nat} (h : n ≤ 2 ^ 32) :
    scale hash n = .ok (place hash n) := by
  have hlt : hash.toNat < 2 ^ 32 := hash.toNat_lt
  refine scale_eq_ok_iff.2 ⟨?_, rfl⟩
  calc hash.toNat * n ≤ hash.toNat * 2 ^ 32 := Nat.mul_le_mul_left _ h
    _ < 2 ^ 32 * 2 ^ 32 := Nat.mul_lt_mul_of_pos_right hlt (by omega)

theorem scale_eq_overflow {hash : UInt32} {n : Nat} (h : 2 ^ 64 ≤ hash.toNat * n) :
    scale hash n = violate .overflow := by
  rw [scale, Checked.mul_eq_overflow h]
  rfl

theorem scale_eq_place {hash : UInt32} {n result : Nat} (h : scale hash n = .ok result) :
    result = place hash n :=
  (scale_eq_ok_iff.1 h).2.symm

end ApproxSet.Hash
