import ApproxSet.Bloom
import ApproxSet.Cuckoo.Bucket
import ApproxSet.XorSet.Edge
import ApproxSet.Proofs.Numbers.Rounding
import ApproxSet.Proofs.Success

/-!
# Sizes of tables

The lengths of tables and the number of hash functions are in proportion to the number of keys or of
bits. For up to `2 ^ 32` keys no table has more places than a 32-bit hash can be mapped onto, so
neither the arithmetic of sizes nor that of positions leaves its word.
-/

namespace ApproxSet

open Numbers Outcome

theorem Numbers.atMost_ofCount_of_le {count : Nat} (h : count ≤ 2 ^ 32) :
    AtMost (ofCount count) (2 ^ 32 + 1) :=
  (atMost_ofCount (by omega)).mono (by exact_mod_cast Nat.succ_le_succ h)

/-- Up to `2 ^ 32` bits for each key make fewer hash functions than `2 ^ 32`. -/
theorem Bloom.hashersFor_lt {bitsPerKey : Nat} (h : bitsPerKey ≤ 2 ^ 32) :
    hashersFor bitsPerKey < 2 ^ 32 := by
  have hfactor : AtMost 0.6931471805599453 (7 / 10) := by
    have hunpack : (0.6931471805599453 : Float).toModel.unpack =
        .finite .positive 6243314768165359 (-53) (by decide) := rfl
    rw [AtMost, hunpack]
    exact .finite (by decide) (by decide) (by norm_num)
  have hproduct : AtMost (ofCount bitsPerKey * 0.6931471805599453) (3 * 2 ^ 30 : Nat) :=
    ((atMost_ofCount_of_le h).mul hfactor (by norm_num)).mono (by norm_num)
  exact Nat.lt_of_le_of_lt hproduct.ceiling_le (by decide)

/-- Up to `2 ^ 32` keys need no longer thirds than `2 ^ 32` slots. -/
theorem XorSet.thirdFor_eq_ok {keys : Nat} (h : keys ≤ 2 ^ 32) :
    ∃ third, thirdFor keys = .ok third ∧ third ≤ 2 ^ 32 := by
  have hcount := atMost_ofCount_of_le h
  have hfactor : AtMost 1.23 (5 / 4) := by
    have hunpack : (1.23 : Float).toModel.unpack =
        .finite .positive 5539427541665710 (-52) (by decide) := rfl
    rw [AtMost, hunpack]
    exact .finite (by decide) (by decide) (by norm_num)
  have hproduct : AtMost (1.23 * ofCount keys) (2 ^ 33 : Nat) :=
    (hfactor.mul hcount (by norm_num)).mono (by norm_num)
  have hceiling := hproduct.ceiling_le
  rw [thirdFor, Checked.add_eq_ok (by omega), ok_bind]
  exact ⟨_, rfl, by omega⟩

/-- Up to `2 ^ 32` keys need no more than `2 ^ 32` buckets of four entries, of which they occupy
the usual share. -/
theorem Cuckoo.bucketsFor_eq_ok {keys : Nat} (h : keys ≤ 2 ^ 32) :
    ∃ buckets, bucketsFor keys 4 0.94 = .ok buckets ∧ buckets ≤ 2 ^ 32 := by
  have hcount := atMost_ofCount_of_le h
  have hfour : (ofCount 4).toModel.unpack =
      .finite .positive 4503599627370496 (-50) (by decide) := rfl
  have hshare : (0.94 : Float).toModel.unpack =
      .finite .positive 8466767299456532 (-53) (by decide) := rfl
  have hfull : AtMost (ofCount keys / ofCount 4) ((2 : ℚ) ^ 31) :=
    (hcount.div hfour (by decide) (by norm_num) (by norm_num)).mono (by norm_num)
  have hneeded : AtMost (ofCount keys / ofCount 4 / 0.94) (3 * 2 ^ 30 : Nat) :=
    (hfull.div hshare (by decide) (by norm_num) (by norm_num)).mono (by norm_num)
  have hceiling := hneeded.ceiling_le
  rw [bucketsFor]
  generalize ceiling (ofCount keys / ofCount 4 / 0.94) = needed at hceiling ⊢
  have hspare : AtMost (ofCount needed).sqrt (2 ^ 17 : Nat) := by
    have hsquare : AtMost (ofCount needed) ((2 ^ 16 : ℚ) ^ 2) := by
      refine (atMost_ofCount (by omega)).mono ?_
      have hle : (needed : ℚ) ≤ 3 * 2 ^ 30 := by exact_mod_cast hceiling
      linarith
    exact (hsquare.sqrt (by norm_num) (by norm_num)).mono (by norm_num)
  have hroot := hspare.ceiling_le
  rw [Checked.add_eq_ok (by omega), ok_bind, Checked.add_eq_ok (by omega), ok_bind]
  exact ⟨_, rfl, by omega⟩

end ApproxSet
