import ApproxSet.Hash.Mix
import ApproxSet.Proofs.Bits.Word
import Mathlib.Logic.Equiv.Defs

/-!
# Hashing can be undone

Mixing combines a word with itself moved down, and multiplies it by an odd number, in turns. Each of
these steps has an inverse. An odd number has an inverse modulo `2 ^ 64`. And what was moved down
comes off again when the result is combined with itself moved down once and twice, if moving down
three times leaves nothing of a word.

So mixing is a bijection of the words, and so is hashing: in the key for every salt, and in the salt
for every key.
-/

namespace ApproxSet.Hash

open Bits

/-! ### Words combined with themselves -/

/-- A word combined with itself moved down by `count` bits. -/
def smear (count : Nat) (word : UInt64) : UInt64 :=
  word ^^^ shiftDown word count

/-- A word combined with itself moved down by `count` bits, once and twice. -/
def unsmear (count : Nat) (word : UInt64) : UInt64 :=
  word ^^^ shiftDown word count ^^^ shiftDown word (2 * count)

variable {count : Nat}

theorem testBit_smear (h : count < 64) (word : UInt64) (i : Nat) :
    (smear count word).toNat.testBit i =
      (word.toNat.testBit i ^^ word.toNat.testBit (count + i)) := by
  rw [smear, testBit_xor, testBit_shiftDown _ h]

theorem testBit_unsmear (h : 2 * count < 64) (word : UInt64) (i : Nat) :
    (unsmear count word).toNat.testBit i =
      (word.toNat.testBit i ^^ word.toNat.testBit (count + i) ^^
        word.toNat.testBit (2 * count + i)) := by
  rw [unsmear, testBit_xor, testBit_xor, testBit_shiftDown _ (by omega), testBit_shiftDown _ h]

theorem unsmear_smear (hle : 64 ≤ 3 * count) (hlt : 2 * count < 64) (word : UInt64) :
    unsmear count (smear count word) = word := by
  apply word_ext
  intro i _
  have hgone : word.toNat.testBit (count + (2 * count + i)) = false :=
    testBit_toNat_ge word (by omega)
  have htwice : count + (count + i) = 2 * count + i := by omega
  rw [testBit_unsmear hlt, testBit_smear (by omega), testBit_smear (by omega),
    testBit_smear (by omega), hgone, htwice]
  -- the bits that were moved down once or twice cancel
  cases word.toNat.testBit (count + i) <;> cases word.toNat.testBit (2 * count + i) <;> simp

theorem smear_unsmear (hle : 64 ≤ 3 * count) (hlt : 2 * count < 64) (word : UInt64) :
    smear count (unsmear count word) = word := by
  apply word_ext
  intro i _
  have hgone : word.toNat.testBit (2 * count + (count + i)) = false :=
    testBit_toNat_ge word (by omega)
  have htwice : count + (count + i) = 2 * count + i := by omega
  rw [testBit_smear (by omega), testBit_unsmear hlt, testBit_unsmear hlt, hgone, htwice]
  cases word.toNat.testBit (count + i) <;> cases word.toNat.testBit (2 * count + i) <;> simp

/-! ### The steps of a hash as bijections -/

/-- Combining words with themselves, by at least a third of their bits. -/
def smearing (count : Nat) (hle : 64 ≤ 3 * count) (hlt : 2 * count < 64) : UInt64 ≃ UInt64 where
  toFun := smear count
  invFun := unsmear count
  left_inv := unsmear_smear hle hlt
  right_inv := smear_unsmear hle hlt

/-- Multiplying words by a factor that has an inverse. -/
def multiplying (factor inverse : UInt64) (h : factor * inverse = 1) : UInt64 ≃ UInt64 where
  toFun word := word * factor
  invFun word := word * inverse
  left_inv word := by
    dsimp only
    rw [UInt64.mul_assoc, h, UInt64.mul_one]
  right_inv word := by
    dsimp only
    rw [UInt64.mul_assoc, UInt64.mul_comm inverse, h, UInt64.mul_one]

/-- Adding a fixed word. -/
def adding (amount : UInt64) : UInt64 ≃ UInt64 where
  toFun word := word + amount
  invFun word := word - amount
  left_inv word := UInt64.add_sub_cancel word amount
  right_inv word := UInt64.sub_add_cancel word amount

/-- Mixing, step by step. -/
def mixing : UInt64 ≃ UInt64 :=
  (smearing 30 (by decide) (by decide)).trans <|
    (multiplying 0xbf58476d1ce4e5b9 0x96de1b173f119089 (by decide)).trans <|
      (smearing 27 (by decide) (by decide)).trans <|
        (multiplying 0x94d049bb133111eb 0x319642b2d24d8ec3 (by decide)).trans <|
          smearing 31 (by decide) (by decide)

theorem mix_bijective : Function.Bijective mix :=
  mixing.bijective

/-- Under one salt, each hash is that of one key. -/
theorem salted_bijective (salt : UInt64) : Function.Bijective (salted · salt) :=
  ((adding (salt * 0x9e3779b97f4a7c15)).trans mixing).bijective

/-- The salts take a key to all hashes, each of them once. -/
theorem salted_key_bijective (key : UInt64) : Function.Bijective (salted key) := by
  have hsteps : salted key =
      (multiplying 0x9e3779b97f4a7c15 0xf1de83e19937733d (by decide)).trans
        ((adding key).trans mixing) := by
    funext salt
    show mix (key + _) = mix (_ + key)
    rw [UInt64.add_comm]
    rfl
  rw [hsteps]
  exact Equiv.bijective _

end ApproxSet.Hash
