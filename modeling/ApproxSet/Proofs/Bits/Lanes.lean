import ApproxSet.Proofs.Bits.Word
import Mathlib.Data.Nat.Find

/-!
# Lanes of a word

A number is cut into lanes of `k` bits, counted from the lowest bit. What word operations do to all
lanes at once is stated for one lane at a time.

The heart is the search for a zero lane. One is taken off every lane, and lanes whose highest bit
goes on are flagged. As long as no lane below is zero nothing is borrowed, so up to the lowest zero
lane just that lane is flagged. Lanes above it may be flagged by a borrow, but the answers only
depend on the lowest flag and on whether there is any.
-/

namespace ApproxSet.Bits

/-- A lane of a number. -/
def lane (k word j : Nat) : Nat :=
  word / 2 ^ (k * j) % 2 ^ k

variable {k j a b i : Nat}

/-! ### Lanes by their bits -/

theorem testBit_lane (k word j i : Nat) :
    (lane k word j).testBit i = (decide (i < k) && word.testBit (k * j + i)) := by
  rw [lane, Nat.testBit_mod_two_pow, Nat.testBit_div_two_pow, Nat.add_comm]

theorem lane_lt (k word j : Nat) : lane k word j < 2 ^ k :=
  Nat.mod_lt _ (Nat.two_pow_pos k)

/-- A word with nothing above its lanes is zero just if all of its lanes are. -/
theorem eq_zero_iff_lanes {count : Nat} (hk : 0 < k) (hword : word < 2 ^ (k * count)) :
    word = 0 ↔ ∀ j < count, lane k word j = 0 := by
  constructor
  · rintro rfl j -
    rw [lane, Nat.zero_div, Nat.zero_mod]
  · intro h
    apply Nat.eq_of_testBit_eq
    intro i
    rw [Nat.zero_testBit]
    by_cases hi : i < k * count
    · have hbit := testBit_lane k word (i / k) (i % k)
      rw [h _ (Nat.div_lt_of_lt_mul hi), Nat.zero_testBit, Nat.div_add_mod,
        decide_eq_true (Nat.mod_lt i hk), Bool.true_and] at hbit
      exact hbit.symm
    · refine Nat.testBit_lt_two_pow (Nat.lt_of_lt_of_le hword ?_)
      exact Nat.pow_le_pow_right (by omega) (by omega)

theorem lane_xor (k a b j : Nat) : lane k (a ^^^ b) j = lane k a j ^^^ lane k b j := by
  apply Nat.eq_of_testBit_eq
  intro i
  rw [Nat.testBit_xor, testBit_lane, testBit_lane, testBit_lane, Nat.testBit_xor]
  cases decide (i < k) <;> simp

theorem lane_or (k a b j : Nat) : lane k (a ||| b) j = lane k a j ||| lane k b j := by
  apply Nat.eq_of_testBit_eq
  intro i
  rw [Nat.testBit_or, testBit_lane, testBit_lane, testBit_lane, Nat.testBit_or]
  cases decide (i < k) <;> simp

/-- Lanes within a word are those of the number before it is cut to the word. -/
theorem lane_mod {width : Nat} (word : Nat) (h : k * j + k ≤ width) :
    lane k (word % 2 ^ width) j = lane k word j := by
  apply Nat.eq_of_testBit_eq
  intro i
  rw [testBit_lane, testBit_lane, Nat.testBit_mod_two_pow]
  by_cases hi : i < k
  · simp [show k * j + i < width by omega]
  · simp [hi]

/-- Lanes do not meet. -/
theorem lane_bit_apart (hne : i ≠ j) (ha : a < k) :
    ¬(k * j ≤ k * i + a ∧ k * i + a < k * j + k) := by
  intro h
  rcases Nat.lt_or_gt_of_ne hne with hlt | hlt
  · have hmul := Nat.mul_le_mul_left k hlt
    rw [Nat.mul_succ] at hmul
    omega
  · have hmul := Nat.mul_le_mul_left k hlt
    rw [Nat.mul_succ] at hmul
    omega

/-- Moving a number up by some lanes. -/
theorem lane_shiftLeft (k value m j : Nat) :
    lane k (value <<< (k * m)) j = if j < m then 0 else lane k value (j - m) := by
  apply Nat.eq_of_testBit_eq
  intro i
  rw [testBit_lane, Nat.testBit_shiftLeft]
  by_cases hi : i < k
  · by_cases hjm : j < m
    · have hmul := Nat.mul_le_mul_left k hjm
      rw [Nat.mul_succ] at hmul
      rw [if_pos hjm, Nat.zero_testBit, decide_eq_false (p := k * m ≤ k * j + i) (by omega),
        Bool.false_and, Bool.and_false]
    · have hmul : k * (j - m) + k * m = k * j := by
        rw [← Nat.mul_add, Nat.sub_add_cancel (by omega)]
      rw [if_neg hjm, testBit_lane, decide_eq_true (p := k * m ≤ k * j + i) (by omega),
        Bool.true_and, show k * j + i - k * m = k * (j - m) + i by omega]
  · rw [decide_eq_false hi, Bool.false_and]
    split
    · exact (Nat.zero_testBit i).symm
    · rw [testBit_lane, decide_eq_false hi, Bool.false_and]

/-- A word that differs from another in the bits of one lane differs in this lane only. -/
theorem lane_replaced {width word word' value e : Nat}
    (hbit : ∀ i < width, word'.testBit i =
      if k * e ≤ i ∧ i < k * e + k then value.testBit (i - k * e) else word.testBit i)
    (hvalue : value < 2 ^ k) (hj : k * j + k ≤ width) :
    lane k word' j = if j = e then value else lane k word j := by
  apply Nat.eq_of_testBit_eq
  intro i
  rw [testBit_lane]
  by_cases hi : i < k
  · rw [hbit _ (by omega), decide_eq_true hi, Bool.true_and]
    by_cases hje : j = e
    · subst hje
      rw [if_pos (by omega), if_pos rfl, Nat.add_sub_cancel_left]
    · rw [if_neg (lane_bit_apart hje hi), if_neg hje, testBit_lane, decide_eq_true hi,
        Bool.true_and]
  · rw [decide_eq_false hi, Bool.false_and]
    have hhigh : 2 ^ k ≤ 2 ^ i := Nat.pow_le_pow_right (by omega) (by omega)
    split
    · exact (Nat.testBit_lt_two_pow (by omega)).symm
    · have hlt := lane_lt k word j
      exact (Nat.testBit_lt_two_pow (by omega)).symm

/-- Adding a number into a zero lane. -/
theorem lane_insert (width : Nat) {word value e : Nat} (hzero : lane k word e = 0)
    (hvalue : value < 2 ^ k) (hj : k * j + k ≤ width) :
    lane k (word ||| value <<< (k * e) % 2 ^ width) j = if j = e then value else lane k word j := by
  refine lane_replaced (fun i hi => ?_) hvalue hj
  rw [Nat.testBit_or, Nat.testBit_mod_two_pow, Nat.testBit_shiftLeft, decide_eq_true hi,
    Bool.true_and]
  by_cases hin : k * e ≤ i ∧ i < k * e + k
  · have hoff : word.testBit i = false := by
      have hbit := testBit_lane k word e (i - k * e)
      rw [hzero, Nat.zero_testBit, decide_eq_true (by omega), Bool.true_and,
        show k * e + (i - k * e) = i by omega] at hbit
      exact hbit.symm
    simp [hin, hoff]
  · rw [if_neg hin]
    by_cases hle : k * e ≤ i
    · have hhigh : 2 ^ k ≤ 2 ^ (i - k * e) := Nat.pow_le_pow_right (by omega) (by omega)
      rw [Nat.testBit_lt_two_pow (x := value) (by omega), Bool.and_false, Bool.or_false]
    · simp [hle]

/-- Clearing a lane and adding a number into it. -/
theorem lane_exchange (width : Nat) {word value e : Nat} (he : k * e + k ≤ width)
    (hvalue : value < 2 ^ k) (hj : k * j + k ≤ width) :
    lane k (word &&& (2 ^ width - 1 - (2 ^ k - 1) <<< (k * e) % 2 ^ width) |||
      value <<< (k * e) % 2 ^ width) j = if j = e then value else lane k word j := by
  have hcleared : lane k (word &&& (2 ^ width - 1 - (2 ^ k - 1) <<< (k * e) % 2 ^ width)) e = 0 ∧
      ∀ i < width, ¬(k * e ≤ i ∧ i < k * e + k) →
        (word &&& (2 ^ width - 1 - (2 ^ k - 1) <<< (k * e) % 2 ^ width)).testBit i =
          word.testBit i := by
    have hlt : (2 ^ k - 1) <<< (k * e) % 2 ^ width < 2 ^ width := Nat.mod_lt _ (Nat.two_pow_pos _)
    have hmask : ∀ i, (2 ^ width - 1 - (2 ^ k - 1) <<< (k * e) % 2 ^ width).testBit i =
        (decide (i < width) && !(decide (i < width) && (decide (k * e ≤ i) &&
          decide (i - k * e < k)))) := by
      intro i
      rw [show 2 ^ width - 1 - (2 ^ k - 1) <<< (k * e) % 2 ^ width =
          2 ^ width - ((2 ^ k - 1) <<< (k * e) % 2 ^ width + 1) by omega,
        Nat.testBit_two_pow_sub_succ hlt, Nat.testBit_mod_two_pow, Nat.testBit_shiftLeft,
        Nat.testBit_two_pow_sub_one]
    constructor
    · apply Nat.eq_of_testBit_eq
      intro i
      rw [testBit_lane, Nat.testBit_and, hmask, Nat.zero_testBit]
      by_cases hi : i < k
      · simp [hi, show k * e + i < width by omega]
      · simp [hi]
    · intro i hi hout
      rw [Nat.testBit_and, hmask]
      by_cases hle : k * e ≤ i
      · simp [hi, show ¬i - k * e < k by omega]
      · simp [hi, hle]
  rw [lane_insert width hcleared.1 hvalue hj]
  by_cases hje : j = e
  · rw [if_pos hje, if_pos hje]
  · rw [if_neg hje, if_neg hje]
    apply Nat.eq_of_testBit_eq
    intro i
    rw [testBit_lane, testBit_lane]
    by_cases hi : i < k
    · rw [hcleared.2 _ (by omega) (lane_bit_apart hje hi)]
    · simp [hi]

/-- The highest bit of a lane tells whether the lane is in its upper half. -/
theorem testBit_top (hk : 0 < k) (word j : Nat) :
    word.testBit (k * j + (k - 1)) = decide (2 ^ (k - 1) ≤ lane k word j) := by
  have hlt := lane_lt k word j
  have hpow : 2 ^ k = 2 ^ (k - 1) * 2 := by
    rw [← Nat.pow_succ, Nat.succ_eq_add_one, Nat.sub_add_cancel hk]
  have hbit := testBit_lane k word j (k - 1)
  rw [decide_eq_true (by omega), Bool.true_and] at hbit
  rw [← hbit, Nat.testBit_eq_decide_div_mod_eq]
  have hsmall : lane k word j / 2 ^ (k - 1) < 2 := by
    apply Nat.div_lt_of_lt_mul
    omega
  by_cases htop : 2 ^ (k - 1) ≤ lane k word j
  · have hone : 0 < lane k word j / 2 ^ (k - 1) := Nat.div_pos htop (Nat.two_pow_pos _)
    simp [htop, show lane k word j / 2 ^ (k - 1) = 1 by omega]
  · simp [htop, Nat.div_eq_of_lt (Nat.lt_of_not_le htop)]

theorem xor_eq_zero_iff_eq : a ^^^ b = 0 ↔ a = b := by
  constructor
  · intro h
    have hback := congrArg (· ^^^ b) h
    simpa only [Nat.xor_assoc, Nat.xor_self, Nat.xor_zero, Nat.zero_xor] using hback
  · intro h
    rw [h, Nat.xor_self]

/-! ### Multiples of a word of ones -/

/-- A small number that is spread over lanes by a product with ones. -/
theorem lane_mul {print ones : Nat} (hprint : print < 2 ^ k) (hone : lane k ones j ≤ 1)
    (hlow : (2 ^ k - 1) * (ones % 2 ^ (k * j)) < 2 ^ (k * j)) :
    lane k (print * ones) j = print * lane k ones j := by
  have hsplit : print * ones =
      print * (ones % 2 ^ (k * j)) + 2 ^ (k * j) * (print * (ones / 2 ^ (k * j))) := by
    calc print * ones
        = print * (ones % 2 ^ (k * j) + 2 ^ (k * j) * (ones / 2 ^ (k * j))) := by
          rw [Nat.mod_add_div]
      _ = _ := by rw [Nat.mul_add, Nat.mul_left_comm]
  have hrest : print * (ones % 2 ^ (k * j)) < 2 ^ (k * j) :=
    Nat.lt_of_le_of_lt (Nat.mul_le_mul_right _ (by omega)) hlow
  have hquotient : print * ones / 2 ^ (k * j) = print * (ones / 2 ^ (k * j)) := by
    rw [hsplit, Nat.add_mul_div_left _ _ (Nat.two_pow_pos _), Nat.div_eq_of_lt hrest, Nat.zero_add]
  have hle : print * lane k ones j < 2 ^ k :=
    Nat.lt_of_le_of_lt (Nat.mul_le_mul_left _ hone) (by omega)
  rw [lane, hquotient, Nat.mul_mod, ← lane, Nat.mod_eq_of_lt (a := print) hprint,
    Nat.mod_eq_of_lt hle]

/-! ### The search for a zero lane -/

/-- The words that the search uses: a one in every lane, and the highest bit of every lane. -/
structure LaneMasks (k count : Nat) (ones tops : UInt64) : Prop where
  pos : 0 < k
  total : k * count = 64
  one : ∀ j < count, lane k ones.toNat j = 1
  low : ∀ j < count, (2 ^ k - 1) * (ones.toNat % 2 ^ (k * j)) < 2 ^ (k * j)
  top : ∀ i < 64, tops.toNat.testBit i = decide (i % k = k - 1)

/-- Flags for the lowest zero lane of a word and possibly for some lanes above it. -/
def zeroFlags (ones tops word : UInt64) : UInt64 :=
  (word - ones) &&& ~~~word &&& tops

section Masks

variable {count : Nat} {ones tops word : UInt64}

theorem LaneMasks.lane_end_le (hm : LaneMasks k count ones tops) (hj : j < count) :
    k * j + k ≤ 64 := by
  rw [← Nat.mul_succ, ← hm.total]
  exact Nat.mul_le_mul_left k hj

/-- Below the lowest zero lane nothing is borrowed. -/
theorem LaneMasks.low_le (hm : LaneMasks k count ones tops) (hj : j ≤ count)
    (hlanes : ∀ i < j, lane k word.toNat i ≠ 0) :
    ones.toNat % 2 ^ (k * j) ≤ word.toNat % 2 ^ (k * j) := by
  induction j with
  | zero => simp [Nat.mod_one]
  | succ j ih =>
    have hone : ones.toNat / 2 ^ (k * j) % 2 ^ k = 1 := hm.one j (by omega)
    have hlane : word.toNat / 2 ^ (k * j) % 2 ^ k ≠ 0 := hlanes j (by omega)
    have hrest := ih (by omega) fun i hi => hlanes i (by omega)
    rw [Nat.mul_succ, Nat.pow_add, Nat.mod_mul, Nat.mod_mul, hone]
    exact Nat.add_le_add hrest (Nat.mul_le_mul_left _ (by omega))

/-- Without a borrow, one is taken off a lane by itself. -/
theorem LaneMasks.lane_sub (hm : LaneMasks k count ones tops) (hj : j < count)
    (hle : ones.toNat % 2 ^ (k * j) ≤ word.toNat % 2 ^ (k * j)) :
    lane k (word - ones).toNat j = (lane k word.toNat j + (2 ^ k - 1)) % 2 ^ k := by
  have hend := hm.lane_end_le hj
  have hone : ones.toNat / 2 ^ (k * j) % 2 ^ k = 1 := hm.one j hj
  have hones : ones.toNat < 2 ^ 64 := ones.toNat_lt
  have hpos : 0 < 2 ^ (k * j) := Nat.two_pow_pos _
  have hk : 0 < 2 ^ k := Nat.two_pow_pos _
  have hwhole : 2 ^ 64 = 2 ^ (k * j) * (2 ^ k * 2 ^ (64 - (k * j + k))) := by
    rw [← Nat.pow_add, ← Nat.pow_add]
    congr 1
    omega
  rw [UInt64.toNat_sub, lane_mod _ hend]
  unfold lane
  generalize ones.toNat = L at *
  generalize word.toNat = X at *
  generalize 2 ^ (64 - (k * j + k)) = R at *
  rw [hwhole] at hones ⊢
  generalize hM : 2 ^ (k * j) = M at *
  generalize hK : 2 ^ k = K at *
  -- both numbers, and the word that is borrowed from, split at the lane
  have hL := Nat.mod_add_div L M
  have hX := Nat.mod_add_div X M
  have hXlt : X % M < M := Nat.mod_lt _ hpos
  have hq := Nat.mod_add_div (L / M) K
  have hquot : L / M < K * R := Nat.div_lt_of_lt_mul hones
  have hR : L / M / K < R := Nat.div_lt_of_lt_mul hquot
  have hdiff : M * (K * R) - L + X =
      (X % M - L % M) + M * (K * R - L / M + X / M) := by
    rw [Nat.mul_add, Nat.mul_sub]
    have hmul : M * (L / M) ≤ M * (K * R) := Nat.mul_le_mul_left _ (by omega)
    omega
  have hinner : K * R - L / M + X / M = X / M + (K - 1) + K * (R - L / M / K - 1) := by
    rw [hone] at hq
    have hmul : K * (R - L / M / K - 1) = K * R - K * (L / M / K) - K := by
      rw [Nat.mul_sub, Nat.mul_sub, Nat.mul_one]
    have hge : K * (L / M / K) + K ≤ K * R := by
      rw [← Nat.mul_succ]
      exact Nat.mul_le_mul_left _ hR
    omega
  rw [hdiff, Nat.add_mul_div_left _ _ hpos, Nat.div_eq_of_lt (by omega), Nat.zero_add, hinner,
    Nat.add_mul_mod_self_left, Nat.mod_add_mod]

/-- Up to the lowest zero lane, a lane is flagged just if it is zero. -/
theorem LaneMasks.testBit_flag (hm : LaneMasks k count ones tops) (hj : j < count)
    (hlanes : ∀ i < j, lane k word.toNat i ≠ 0) :
    (zeroFlags ones tops word).toNat.testBit (k * j + (k - 1)) =
      decide (lane k word.toNat j = 0) := by
  have hend := hm.lane_end_le hj
  have hpos := hm.pos
  have hlt := lane_lt k word.toNat j
  have hpow : 2 ^ k = 2 ^ (k - 1) * 2 := by
    rw [← Nat.pow_succ, Nat.succ_eq_add_one, Nat.sub_add_cancel hpos]
  have hhalf : 0 < 2 ^ (k - 1) := Nat.two_pow_pos _
  rw [zeroFlags, testBit_and, testBit_and, testBit_not, hm.top _ (by omega),
    Nat.mul_add_mod, Nat.mod_eq_of_lt (by omega), decide_eq_true rfl,
    decide_eq_true (p := k * j + (k - 1) < 64) (by omega), testBit_top hpos, testBit_top hpos,
    hm.lane_sub hj (hm.low_le (by omega) hlanes)]
  by_cases hzero : lane k word.toNat j = 0
  · rw [hzero, Nat.zero_add, Nat.mod_eq_of_lt (by omega)]
    simp [show 2 ^ (k - 1) ≤ 2 ^ k - 1 by omega]
  · rw [show lane k word.toNat j + (2 ^ k - 1) = lane k word.toNat j - 1 + 2 ^ k by omega,
      Nat.add_mod_right, Nat.mod_eq_of_lt (by omega)]
    by_cases htop : 2 ^ (k - 1) ≤ lane k word.toNat j
    · simp [hzero, htop]
    · simp [hzero, show ¬2 ^ (k - 1) ≤ lane k word.toNat j - 1 by omega]

/-- No flag lies below the lowest zero lane. -/
theorem LaneMasks.testBit_below (hm : LaneMasks k count ones tops) (hj : j ≤ count)
    (hlanes : ∀ i < j, lane k word.toNat i ≠ 0) {b : Nat} (hb : b < k * j) :
    (zeroFlags ones tops word).toNat.testBit b = false := by
  have hpos := hm.pos
  have hall : k * j ≤ 64 := by
    rw [← hm.total]
    exact Nat.mul_le_mul_left k hj
  by_cases htop : b % k = k - 1
  · have hlane : b / k < j := Nat.div_lt_of_lt_mul hb
    have hsplit : b = k * (b / k) + (k - 1) := by
      have hdiv := Nat.div_add_mod b k
      omega
    rw [hsplit, hm.testBit_flag (by omega) fun i hi => hlanes i (by omega)]
    exact decide_eq_false (hlanes _ hlane)
  · rw [zeroFlags, testBit_and, hm.top _ (by omega), decide_eq_false htop, Bool.and_false]

/-- There is a flag just if there is a zero lane. -/
theorem LaneMasks.zeroFlags_eq_zero_iff (hm : LaneMasks k count ones tops) :
    zeroFlags ones tops word = 0 ↔ ∀ j < count, lane k word.toNat j ≠ 0 := by
  constructor
  · intro hflags
    by_contra hsome
    have hfree : ∃ j, j < count ∧ lane k word.toNat j = 0 := by
      simpa only [not_forall, not_not, exists_prop, ne_eq] using hsome
    obtain ⟨hj, hzero⟩ := Nat.find_spec hfree
    have hbit := hm.testBit_flag hj fun i hi hz => Nat.find_min hfree hi ⟨by omega, hz⟩
    rw [hflags, testBit_zero_word, decide_eq_true hzero] at hbit
    exact Bool.false_ne_true hbit
  · intro hlanes
    apply word_ext
    intro b hb
    rw [testBit_zero_word, hm.testBit_below (Nat.le_refl _) hlanes (hm.total ▸ hb)]

/-- The lowest flag is the highest bit of the lowest zero lane. -/
theorem LaneMasks.lowestOne_zeroFlags (hm : LaneMasks k count ones tops) (hj : j < count)
    (hzero : lane k word.toNat j = 0) (hlanes : ∀ i < j, lane k word.toNat i ≠ 0) :
    lowestOne (zeroFlags ones tops word) = k * j + (k - 1) := by
  have hend := hm.lane_end_le hj
  have hpos := hm.pos
  have hfind : (List.range 64).find? (fun i => (zeroFlags ones tops word).toNat.testBit i) =
      some (k * j + (k - 1)) := by
    rw [List.find?_range_eq_some, hm.testBit_flag hj hlanes]
    refine ⟨decide_eq_true hzero, List.mem_range.2 (by omega), fun b hb => ?_⟩
    by_cases hlow : b < k * j
    · rw [hm.testBit_below (by omega) hlanes hlow]
      rfl
    · -- the other bits of the lane itself are never flags
      have hmod : b % k = b - k * j := by
        rw [show b = k * j + (b - k * j) by omega, Nat.mul_add_mod, Nat.mod_eq_of_lt (by omega)]
        omega
      rw [zeroFlags, testBit_and, hm.top _ (by omega), decide_eq_false (by omega), Bool.and_false]
      rfl
  rw [lowestOne, hfind, Option.getD_some]

/-- A number is found in a lane by spreading it over all lanes and searching for a zero lane. -/
theorem LaneMasks.zeroFlags_xor_eq_zero_iff (hm : LaneMasks k count ones tops) {print : UInt64}
    (hprint : print.toNat < 2 ^ k) :
    zeroFlags ones tops (word ^^^ print * ones) = 0 ↔
      ∀ j < count, lane k word.toNat j ≠ print.toNat := by
  rw [hm.zeroFlags_eq_zero_iff]
  have hlane : ∀ j < count, lane k (word ^^^ print * ones).toNat j =
      lane k word.toNat j ^^^ print.toNat := by
    intro j hj
    rw [UInt64.toNat_xor, lane_xor, UInt64.toNat_mul, lane_mod _ (hm.lane_end_le hj),
      lane_mul hprint (by rw [hm.one j hj]) (hm.low j hj), hm.one j hj, Nat.mul_one]
  refine forall_congr' fun j => forall_congr' fun hj => ?_
  rw [hlane j hj, ne_eq, xor_eq_zero_iff_eq]

end Masks

end ApproxSet.Bits
