import ApproxSet.Bits.Word
import ApproxSet.Naturals

/-!
# The bits of a word

Every operation on words is described by the bits of its result. Two words with the same bits are
the same word, so equations between words follow from the descriptions.
-/

namespace ApproxSet.Bits

theorem testBit_toNat_ge (word : UInt64) {i : Nat} (h : 64 ≤ i) : word.toNat.testBit i = false := by
  apply Nat.testBit_lt_two_pow
  have hw := word.toNat_lt
  have hp : 2 ^ 64 ≤ 2 ^ i := Nat.pow_le_pow_right (by omega) h
  omega

/-- Words with the same bits are equal. -/
theorem word_ext {a b : UInt64} (h : ∀ i < 64, a.toNat.testBit i = b.toNat.testBit i) : a = b := by
  apply UInt64.toNat_inj.1
  apply Nat.eq_of_testBit_eq
  intro i
  by_cases hi : i < 64
  · exact h i hi
  · rw [testBit_toNat_ge a (by omega), testBit_toNat_ge b (by omega)]

@[simp]
theorem testBit_and (a b : UInt64) (i : Nat) :
    (a &&& b).toNat.testBit i = (a.toNat.testBit i && b.toNat.testBit i) := by
  rw [UInt64.toNat_and, Nat.testBit_and]

@[simp]
theorem testBit_or (a b : UInt64) (i : Nat) :
    (a ||| b).toNat.testBit i = (a.toNat.testBit i || b.toNat.testBit i) := by
  rw [UInt64.toNat_or, Nat.testBit_or]

@[simp]
theorem testBit_xor (a b : UInt64) (i : Nat) :
    (a ^^^ b).toNat.testBit i = (a.toNat.testBit i ^^ b.toNat.testBit i) := by
  rw [UInt64.toNat_xor, Nat.testBit_xor]

theorem xor_and (a b c : UInt64) : (a ^^^ b) &&& c = (a &&& c) ^^^ (b &&& c) := by
  apply word_ext
  intro i _
  simp only [testBit_and, testBit_xor, Bool.and_xor_distrib_right]

@[simp]
theorem testBit_not (a : UInt64) (i : Nat) :
    (~~~a).toNat.testBit i = (decide (i < 64) && !a.toNat.testBit i) := by
  have ha : a.toNat < 2 ^ 64 := a.toNat_lt
  rw [UInt64.toNat_not, show UInt64.size - 1 - a.toNat = 2 ^ 64 - (a.toNat + 1) by
    simp only [UInt64.size]; omega, Nat.testBit_two_pow_sub_succ ha]

theorem toNat_ofNat_of_lt {count : Nat} (h : count < 64) : (UInt64.ofNat count).toNat = count := by
  rw [UInt64.toNat_ofNat', Nat.mod_eq_of_lt (by omega)]

/-- Moving up by `count` bits puts zeros below. -/
theorem testBit_shiftUp (word : UInt64) {count : Nat} (h : count < 64) (i : Nat) :
    (shiftUp word count).toNat.testBit i =
      (decide (i < 64) && (decide (count ≤ i) && word.toNat.testBit (i - count))) := by
  rw [shiftUp, UInt64.toNat_shiftLeft, toNat_ofNat_of_lt h, Nat.mod_eq_of_lt h,
    Nat.testBit_mod_two_pow, Nat.testBit_shiftLeft]

/-- Moving down by `count` bits drops the bits below. -/
theorem testBit_shiftDown (word : UInt64) {count : Nat} (h : count < 64) (i : Nat) :
    (shiftDown word count).toNat.testBit i = word.toNat.testBit (count + i) := by
  rw [shiftDown, UInt64.toNat_shiftRight, toNat_ofNat_of_lt h, Nat.mod_eq_of_lt h,
    Nat.testBit_shiftRight]

theorem toNat_mask {width : Nat} (h : width ≤ 64) : (mask width).toNat = 2 ^ width - 1 := by
  unfold mask
  by_cases hw : 64 ≤ width
  · obtain rfl : width = 64 := by omega
    rfl
  · have hpow : 2 ^ width < 2 ^ 64 := Nat.pow_lt_pow_right (by omega) (by omega)
    have hone : ((1 : UInt64) <<< UInt64.ofNat width).toNat = 2 ^ width := by
      rw [UInt64.toNat_shiftLeft, toNat_ofNat_of_lt (by omega), Nat.mod_eq_of_lt (a := width)
        (by omega), UInt64.toNat_one, Nat.one_shiftLeft, Nat.mod_eq_of_lt hpow]
    have hle : (1 : UInt64) ≤ (1 : UInt64) <<< UInt64.ofNat width := by
      rw [UInt64.le_iff_toNat_le, hone]
      exact Nat.one_le_two_pow
    rw [if_neg hw, UInt64.toNat_sub_of_le _ _ hle, hone]
    rfl

theorem testBit_mask {width : Nat} (h : width ≤ 64) (i : Nat) :
    (mask width).toNat.testBit i = decide (i < width) := by
  rw [toNat_mask h, Nat.testBit_two_pow_sub_one]

/-- A mask keeps the low bits of a word. -/
theorem toNat_and_mask {width : Nat} (h : width ≤ 64) (word : UInt64) :
    (word &&& mask width).toNat = word.toNat % 2 ^ width := by
  rw [UInt64.toNat_and, toNat_mask h, Nat.and_two_pow_sub_one_eq_mod]

@[simp]
theorem testBit_zero_word (i : Nat) : (0 : UInt64).toNat.testBit i = false := by
  simp

theorem testBit_one_word (i : Nat) : (1 : UInt64).toNat.testBit i = decide (0 = i) :=
  Nat.testBit_two_pow (n := 0)

/-- A single bit of a word that is masked out. -/
theorem and_shiftUp_one_bne_zero (word : UInt64) {k : Nat} (h : k < 64) :
    (word &&& shiftUp 1 k != 0) = word.toNat.testBit k := by
  have hbit : ∀ i, (word &&& shiftUp 1 k).toNat.testBit i =
      (decide (i = k) && word.toNat.testBit k) := by
    intro i
    rw [testBit_and, testBit_shiftUp _ h, testBit_one_word]
    by_cases hi : i = k
    · subst hi
      simp [h]
    · have hne : ¬(k ≤ i ∧ 0 = i - k) := by omega
      simp [hi]
      omega
  cases hk : word.toNat.testBit k with
  | true =>
    rw [bne_iff_ne]
    intro hzero
    have hself := hbit k
    rw [hzero, testBit_zero_word, hk] at hself
    simp at hself
  | false =>
    have hzero : word &&& shiftUp 1 k = 0 := by
      apply word_ext
      intro i _
      rw [hbit, hk, Bool.and_false, testBit_zero_word]
    rw [hzero]
    rfl

/-! ### Words that fit a width -/

/-- A word without bits at `width` and above. -/
def Fits (width : Nat) (word : UInt64) : Prop :=
  ∀ i, width ≤ i → word.toNat.testBit i = false

theorem fits_iff_and_mask {width : Nat} (h : width ≤ 64) {word : UInt64} :
    Fits width word ↔ word &&& ~~~mask width = 0 := by
  constructor
  · intro hf
    apply word_ext
    intro i hi
    rw [testBit_and, testBit_not, testBit_mask h, testBit_zero_word]
    by_cases hw : i < width
    · simp [hw]
    · simp [hf i (by omega)]
  · intro hz i hi
    by_cases hw : i < 64
    · have hb := congrArg (fun w : UInt64 => w.toNat.testBit i) hz
      simpa only [testBit_and, testBit_not, testBit_mask h, testBit_zero_word, hw,
        Nat.not_lt.2 hi, decide_true, decide_false, Bool.not_false, Bool.and_true] using hb
    · exact testBit_toNat_ge word (by omega)

theorem fits_iff_lt {width : Nat} {word : UInt64} : Fits width word ↔ word.toNat < 2 ^ width := by
  constructor
  · intro hf
    exact Nat.lt_pow_two_of_testBit _ hf
  · intro hlt i hi
    have hp : 2 ^ width ≤ 2 ^ i := Nat.pow_le_pow_right (by omega) hi
    exact Nat.testBit_lt_two_pow (by omega)

theorem fits_zero (width : Nat) : Fits width 0 := fun i _ => testBit_zero_word i

theorem Fits.xor {width : Nat} {a b : UInt64} (ha : Fits width a) (hb : Fits width b) :
    Fits width (a ^^^ b) := by
  intro i hi
  rw [testBit_xor, ha i hi, hb i hi]
  rfl

theorem fits_and_mask {width : Nat} (h : width ≤ 64) (word : UInt64) :
    Fits width (word &&& mask width) := by
  intro i hi
  rw [testBit_and, testBit_mask h, decide_eq_false (by omega), Bool.and_false]

theorem toUInt64_toUInt8 {value : UInt64} (h : Fits 8 value) : value.toUInt8.toUInt64 = value := by
  have hlt := fits_iff_lt.1 h
  apply UInt64.toNat_inj.1
  rw [UInt8.toNat_toUInt64, UInt64.toNat_toUInt8, Nat.mod_eq_of_lt hlt]

theorem fits_toUInt64 (octet : UInt8) : Fits 8 octet.toUInt64 :=
  fits_iff_lt.2 (by rw [UInt8.toNat_toUInt64]; exact octet.toNat_lt)

/-- Masking a word that fits changes nothing. -/
theorem and_mask_of_fits {width : Nat} (h : width ≤ 64) {word : UInt64} (hf : Fits width word) :
    word &&& mask width = word := by
  apply word_ext
  intro i _
  by_cases hw : i < width
  · simp [testBit_mask h, hw]
  · simp [hf i (by omega)]

/-! ### The bits of a value in a row -/

/-- The lowest `width` bits of a value, the lowest first. -/
def lowBits (width : Nat) (value : UInt64) : List Bool :=
  (List.range width).map value.toNat.testBit

@[simp]
theorem length_lowBits (width : Nat) (value : UInt64) : (lowBits width value).length = width := by
  simp [lowBits]

theorem getElem?_lowBits {width : Nat} (value : UInt64) {i : Nat} (h : i < width) :
    (lowBits width value)[i]? = some (value.toNat.testBit i) := by
  simp [lowBits, h]

theorem lowBits_one_ite (bit : Bool) : lowBits 1 (if bit then 1 else 0) = [bit] := by
  cases bit <;> rfl

theorem lowBits_zero (width : Nat) : lowBits width 0 = List.replicate width false := by
  rw [lowBits, List.map_congr_left fun i _ => testBit_zero_word i, List.map_const',
    List.length_range]

theorem lowBits_and_mask {width : Nat} (h : width ≤ 64) (value : UInt64) :
    lowBits width (value &&& mask width) = lowBits width value := by
  refine List.map_congr_left fun i hi => ?_
  rw [testBit_and, testBit_mask h, decide_eq_true (List.mem_range.1 hi), Bool.and_true]

/-- The value whose lowest bits these are. -/
def wordOf (bits : List Bool) : UInt64 :=
  UInt64.ofNat (BitVec.ofBoolListLE bits).toNat

theorem testBit_wordOf (bits : List Bool) {i : Nat} (h : i < 64) :
    (wordOf bits).toNat.testBit i = bits.getD i false := by
  rw [wordOf, UInt64.toNat_ofNat', Nat.testBit_mod_two_pow, decide_eq_true h, Bool.true_and,
    BitVec.testBit_toNat, BitVec.getLsbD_ofBoolListLE]

theorem wordOf_lowBits {width : Nat} {value : UInt64} (h : Fits width value) :
    wordOf (lowBits width value) = value := by
  refine word_ext fun i hi => ?_
  rw [testBit_wordOf _ hi, List.getD_eq_getElem?_getD]
  by_cases hw : i < width
  · rw [getElem?_lowBits value hw, Option.getD_some]
  · rw [List.getElem?_eq_none (by simpa using hw), Option.getD_none, h i (by omega)]

/-- A value that fits a width is determined by its lowest bits. -/
theorem lowBits_inj {width : Nat} {a b : UInt64} (ha : Fits width a) (hb : Fits width b) :
    lowBits width a = lowBits width b ↔ a = b := by
  refine ⟨fun h => word_ext fun i _ => ?_, fun h => h ▸ rfl⟩
  by_cases hi : i < width
  · have hbit := getElem?_lowBits a hi
    rw [h, getElem?_lowBits b hi] at hbit
    exact (Option.some.inj hbit).symm
  · rw [ha i (by omega), hb i (by omega)]

end ApproxSet.Bits
