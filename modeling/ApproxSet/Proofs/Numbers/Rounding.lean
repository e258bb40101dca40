import ApproxSet.Numbers.Binary
import Mathlib.Algebra.Order.Field.Power
import Mathlib.Algebra.Order.Floor.Defs
import Mathlib.Data.Nat.Cast.Order.Field
import Mathlib.Data.Rat.Cast.Order
import Mathlib.Tactic.Linarith
import Mathlib.Tactic.Positivity

/-!
# Upper bounds of floating-point numbers

Sizes of tables are computed with floating-point numbers and rounded up in the end. They only have
to stay within machine words, so it is enough to know how much a result can be above the exact one.
A number below `2 ^ 53` has no digits above the units to lose, and rounding moves its last digit by
one at most. So no operation adds more than one to a result of this size.
-/

namespace ApproxSet.Numbers

open Float.Model Float.Model.UnpackedFloat

/-- The number is not negative, and it is at most the bound. Its last digit is not above the units,
and not too small to be packed. -/
inductive Within (bound : ℚ) : UnpackedFloat → Prop
  | zero (hbound : 0 ≤ bound) : Within bound (.zero .positive)
  | finite {significand : Nat} {exponent : Int} {hpos : 0 < significand}
      (hleast : -1074 ≤ exponent) (hunits : exponent ≤ 0)
      (hle : (significand : ℚ) * 2 ^ exponent ≤ bound) :
      Within bound (.finite .positive significand exponent hpos)

/-- The floating-point number is not negative, and it is at most the bound. -/
def AtMost (x : Float) (bound : ℚ) : Prop :=
  Within bound x.toModel.unpack

variable {bound : ℚ} {m : Nat} {e : Int} {sign : Sign}

theorem Within.of_zero (h : Within bound (.zero sign)) : sign = .positive ∧ 0 ≤ bound := by
  cases h with
  | zero hbound => exact ⟨rfl, hbound⟩

theorem Within.of_finite {hpos : 0 < m} (h : Within bound (.finite sign m e hpos)) :
    sign = .positive ∧ (m : ℚ) * 2 ^ e ≤ bound := by
  cases h with
  | finite hleast hunits hle => exact ⟨rfl, hle⟩

/-- A number that is zero unless there are digits is within a bound if the digits are. -/
theorem Within.zero_or {condition : Prop} [Decidable condition]
    {digits : ¬condition → UnpackedFloat} (hbound : 0 ≤ bound)
    (hdigits : ∀ h, Within bound (digits h)) :
    Within bound (if h : condition then .zero .positive else digits h) := by
  by_cases h : condition
  · rw [dif_pos h]
    exact .zero hbound
  · rw [dif_neg h]
    exact hdigits h

/-! ### Rounding -/

theorem shift_mantissa (em : ExtendedMantissa) (count : Nat) :
    (em >>> count).mantissa = em.mantissa / 2 ^ count := by
  induction count with
  | zero => exact (Nat.div_one _).symm
  | succ count ih =>
    show (em >>> count).mantissa / 2 = _
    rw [ih, Nat.div_div_eq_div_mul, Nat.pow_succ]

theorem mantissa_ofMantissaAndAccuracy (m : Nat) (accuracy : Accuracy) :
    (ExtendedMantissa.ofMantissaAndAccuracy m accuracy).mantissa = m := by
  rcases accuracy with _ | (_ | _ | _) <;> rfl

theorem roundedMantissa_le (em : ExtendedMantissa) : em.roundedMantissa ≤ em.mantissa + 1 := by
  unfold ExtendedMantissa.roundedMantissa
  generalize em.accuracy = accuracy
  rcases accuracy with _ | (_ | _ | _)
  all_goals
    dsimp only [Accuracy.roundToNearestEven]
    omega

/-- Digits that are shifted out make a number smaller. -/
theorem div_mul_two_zpow_le (m count : Nat) (e : Int) :
    ((m / 2 ^ count : Nat) : ℚ) * 2 ^ (e + count) ≤ m * 2 ^ e := by
  have hdiv : ((m / 2 ^ count : Nat) : ℚ) * 2 ^ count ≤ m := by
    exact_mod_cast Nat.div_mul_le_self m (2 ^ count)
  rw [zpow_add₀ (by norm_num), zpow_natCast, mul_comm ((2 : ℚ) ^ e), ← mul_assoc]
  exact mul_le_mul_of_nonneg_right hdiv (by positivity)

/-- Zeros that are shifted in do not change a number. -/
theorem shiftLeft_mul_two_zpow (m count : Nat) (e : Int) :
    ((m <<< count : Nat) : ℚ) * 2 ^ (e - count) = m * 2 ^ e := by
  rw [Nat.shiftLeft_eq, Nat.cast_mul, Nat.cast_pow, Nat.cast_ofNat, mul_assoc, ← zpow_natCast,
    ← zpow_add₀ (by norm_num), add_sub_cancel]

theorem targetExponent_eq (total : Int) :
    Format.binary64.targetExponent total = max (total - 53) (-1074) := rfl

/-- A number below `2 ^ 53` has at most fifty-three digits in front of the point. -/
theorem totalExponent_le (he : e ≤ 0) (h : (m : ℚ) * 2 ^ e < 2 ^ 53) : totalExponent m e ≤ 53 := by
  unfold totalExponent
  by_cases hm : m = 0
  · subst hm
    show ((0 : Nat) : Int) + 1 + e ≤ 53
    omega
  · have hpow : (2 : ℚ) ^ ((m.log2 : Int) + e) ≤ m * 2 ^ e := by
      rw [zpow_add₀ (by norm_num), zpow_natCast]
      refine mul_le_mul_of_nonneg_right ?_ (by positivity)
      exact_mod_cast Nat.log2_self_le hm
    have hlt : (2 : ℚ) ^ ((m.log2 : Int) + e) < 2 ^ (53 : Int) := lt_of_le_of_lt hpow h
    have hexp := (zpow_lt_zpow_iff_right₀ (by norm_num)).1 hlt
    omega

/-- Rounding moves the last digit by one. -/
theorem within_roundWithAccuracy (accuracy : Accuracy) (he : e ≤ 0)
    (h : (m : ℚ) * 2 ^ e ≤ bound) (hbound : bound + 1 < 2 ^ 53) :
    Within (bound + 1) (roundWithAccuracy Format.binary64 .positive m e accuracy) := by
  have htotal := totalExponent_le he (by linarith)
  unfold roundWithAccuracy shiftToTargetExponent shiftToExponent
  rw [targetExponent_eq]
  dsimp only
  generalize hcount : (max (totalExponent m e - 53) (-1074) - e).toNat = count
  generalize hem : ExtendedMantissa.ofMantissaAndAccuracy m accuracy >>> count = em
  have hrounded := roundedMantissa_le em
  rw [← hem, shift_mantissa, mantissa_ofMantissaAndAccuracy, hem] at hrounded
  generalize em.roundedMantissa = rounded at hrounded ⊢
  have hunits : e + count ≤ 0 := by omega
  have hvalue : (rounded : ℚ) * 2 ^ (e + count) ≤ bound + 1 := by
    have hone : (2 : ℚ) ^ (e + count) ≤ 1 := zpow_le_one_of_nonpos₀ (by norm_num) hunits
    have hdigits : (rounded : ℚ) ≤ (m / 2 ^ count : Nat) + 1 := by exact_mod_cast hrounded
    calc (rounded : ℚ) * 2 ^ (e + count)
        ≤ ((m / 2 ^ count : Nat) + 1) * 2 ^ (e + count) :=
          mul_le_mul_of_nonneg_right hdigits (by positivity)
      _ = (m / 2 ^ count : Nat) * 2 ^ (e + count) + 2 ^ (e + count) := by rw [add_mul, one_mul]
      _ ≤ bound + 1 := add_le_add ((div_mul_two_zpow_le m count e).trans h) hone
  -- Rounding up may have made one digit more, which a second shift takes off again.
  have htotal' := totalExponent_le hunits (lt_of_le_of_lt hvalue hbound)
  rw [targetExponent_eq]
  refine .zero_or (le_trans (by positivity) hvalue) fun _ => .finite (by omega) (by omega) ?_
  rw [shift_mantissa]
  exact (div_mul_two_zpow_le rounded _ _).trans hvalue

/-! ### Packed numbers -/

theorem toNat_implicit_append (fraction : BitVec 52) :
    (1#1 ++ fraction).toNat = fraction.toNat + 2 ^ 52 := by
  rw [BitVec.toNat_append, ← Nat.shiftLeft_add_eq_or_of_lt fraction.isLt, Nat.add_comm]
  rfl

theorem unpackSign_packComponents {biased : BitVec 11} {fraction : BitVec 52} :
    unpackSign (packComponents Format.binary64 sign biased fraction) = sign.toBitVec := by
  unfold unpackSign packComponents
  rw [BitVec.extractLsb, BitVec.extractLsb'_append_eq_of_le (by decide),
    BitVec.extractLsb'_append_eq_of_le (by decide)]
  cases sign <;> rfl

/-- Bits of a finite number that is not negative. -/
theorem within_unpack {bits : BitVec 64} {biased : BitVec 11} {fraction : BitVec 52}
    (hsign : @unpackSign Format.binary64 bits = Sign.positive.toBitVec)
    (hexponent : @unpackExponent Format.binary64 bits = biased)
    (hmantissa : @unpackMantissa Format.binary64 bits = fraction) (hfinite : biased ≠ -1#11)
    (hleast : biased = 0#11 → (fraction.toNat : ℚ) * 2 ^ (-1074 : Int) ≤ bound)
    (hother : biased ≠ 0#11 → biased.toNat ≤ 1075 ∧
      ((fraction.toNat + 2 ^ 52 : Nat) : ℚ) * 2 ^ ((biased.toNat : Int) - 1075) ≤ bound) :
    Within bound (UnpackedFloat.unpack Format.binary64 bits) := by
  subst hmantissa
  unfold UnpackedFloat.unpack
  rw [hsign, hexponent]
  dsimp only
  rw [if_neg hfinite]
  by_cases hzero : biased = 0#11
  · have hle := hleast hzero
    rw [if_pos hzero]
    subst hzero
    exact .zero_or (le_trans (by positivity) hle) fun _ => .finite (le_refl _) (by decide) hle
  · have hpos : biased.toNat ≠ 0 := fun h => hzero (BitVec.eq_of_toNat_eq h)
    obtain ⟨hunits, hle⟩ := hother hzero
    rw [if_neg hzero]
    refine .finite ?_ ?_ ?_
    · show -1074 ≤ (biased.toNat : Int) - 1075
      omega
    · show (biased.toNat : Int) - 1075 ≤ 0
      omega
    · rw [toNat_implicit_append]
      exact hle

theorem pack_finite {hpos : 0 < m} {biased : Nat} (hexp : e = (biased : Int) - 1075)
    (hfinite : biased < 2047) :
    UnpackedFloat.pack Format.binary64 (.finite .positive m e hpos) =
      if m.log2 + 1 = 53 then
        packComponents Format.binary64 .positive (BitVec.ofNat 11 biased) (BitVec.ofNat 52 m)
      else packComponents Format.binary64 .positive 0#11 (BitVec.ofNat 52 m) := by
  have hbiased : (e + Format.binary64.exponentBias +
      Format.binary64.mantissaBitsWithoutImplicit).toNat = biased := by
    show (e + ((1023 : Nat) : Int) + ((52 : Nat) : Int)).toNat = biased
    omega
  unfold UnpackedFloat.pack
  dsimp only
  rw [hbiased, if_neg (by show ¬2 ^ 11 ≤ biased + 1; omega)]
  rfl

/-- A number that was rounded is not made greater by packing it. -/
theorem Within.unpack_pack {u : UnpackedFloat} (h : Within bound u) :
    Within bound (Float.Model.pack u).unpack := by
  show Within bound (UnpackedFloat.unpack Format.binary64 (UnpackedFloat.pack Format.binary64 u))
  cases h with
  | zero hnonneg => exact .zero hnonneg
  | @finite m e hpos hleast hunits hle =>
    obtain ⟨biased, hbiased⟩ : ∃ biased : Nat, e = (biased : Int) - 1075 :=
      ⟨(e + 1075).toNat, by omega⟩
    rw [pack_finite hbiased (by omega)]
    split
    case isTrue hnormal =>
      have hlog : m.log2 = 52 := by omega
      have hlow : 2 ^ 52 ≤ m := hlog ▸ Nat.log2_self_le (by omega)
      have hhigh : m < 2 ^ 53 := (Nat.log2_lt (by omega)).1 (by omega)
      have hword : (BitVec.ofNat 11 biased).toNat = biased := by
        rw [BitVec.toNat_ofNat]
        exact Nat.mod_eq_of_lt (by omega)
      have hfraction : (BitVec.ofNat 52 m).toNat + 2 ^ 52 = m := by
        rw [BitVec.toNat_ofNat]
        omega
      refine within_unpack unpackSign_packComponents unpackExponent_packComponents
        unpackMantissa_packComponents (fun h => ?_) (fun h => ?_) fun _ => ?_
      · have hones : biased = 2 ^ 11 - 1 := hword.symm.trans (congrArg BitVec.toNat h)
        omega
      · have hnone : biased = 0 := hword.symm.trans (congrArg BitVec.toNat h)
        omega
      · rw [hword, hfraction, ← hbiased]
        exact ⟨by omega, hle⟩
    case isFalse hsubnormal =>
      refine within_unpack unpackSign_packComponents unpackExponent_packComponents
        unpackMantissa_packComponents (by decide) (fun _ => ?_) fun h => absurd rfl h
      have hdigits : ((BitVec.ofNat 52 m).toNat : ℚ) ≤ m := by
        rw [BitVec.toNat_ofNat]
        exact_mod_cast Nat.mod_le m (2 ^ 52)
      have hunit : (2 : ℚ) ^ (-1074 : Int) ≤ 2 ^ e := zpow_le_zpow_right₀ (by norm_num) hleast
      exact le_trans (mul_le_mul hdigits hunit (by positivity) (by positivity)) hle

theorem toNat_unpackMantissa (bits : BitVec 64) :
    (@unpackMantissa Format.binary64 bits).toNat = bits.toNat % 2 ^ 52 := by
  simp [unpackMantissa]

theorem toNat_unpackExponent (bits : BitVec 64) :
    (@unpackExponent Format.binary64 bits).toNat = bits.toNat / 2 ^ 52 % 2 ^ 11 := by
  simp [unpackExponent, Nat.shiftRight_eq_div_pow]

theorem testBit_of_unpackSign {bits : BitVec 64}
    (h : Sign.ofBitVec (@unpackSign Format.binary64 bits) = .positive) :
    bits.toNat.testBit 63 = false := by
  have hsign : @unpackSign Format.binary64 bits = 0#1 := by
    unfold Sign.ofBitVec at h
    split at h
    case isTrue hzero => exact hzero
    case isFalse => cases h
  have hnat := congrArg BitVec.toNat hsign
  unfold unpackSign at hnat
  simp [Nat.shiftRight_eq_div_pow] at hnat
  simp [Nat.testBit_eq_decide_div_mod_eq]
  omega

/-- A bound of a number whose bits are taken apart. -/
theorem AtMost.shape {x : Float} (h : AtMost x bound) :
    ∃ significand exponent, Shape.of x = .finite false significand exponent ∧
      (significand : ℚ) * 2 ^ exponent ≤ bound := by
  unfold AtMost Float.Model.unpack UnpackedFloat.unpack at h
  have hbits : x.toBits.toNat = x.toModel.toBits.toBitVec.toNat := rfl
  unfold Shape.of
  rw [hbits]
  generalize x.toModel.toBits.toBitVec = bits at h ⊢
  dsimp only at h ⊢
  rw [← toNat_unpackMantissa, ← toNat_unpackExponent]
  by_cases hspecial : @unpackExponent Format.binary64 bits = -1#11
  · rw [if_pos hspecial] at h
    split at h <;> cases h
  · have hfinite : (@unpackExponent Format.binary64 bits).toNat ≠ 2047 :=
      fun heq => hspecial (BitVec.eq_of_toNat_eq heq)
    rw [if_neg hspecial] at h
    rw [if_neg hfinite]
    by_cases hzero : @unpackExponent Format.binary64 bits = 0#11
    · have hbiased : (@unpackExponent Format.binary64 bits).toNat = 0 := congrArg BitVec.toNat hzero
      rw [if_pos hzero] at h
      rw [if_pos hbiased]
      by_cases hnone : @unpackMantissa Format.binary64 bits = 0#52
      · rw [dif_pos hnone] at h
        obtain ⟨hsign, hle⟩ := h.of_zero
        have hfraction : (@unpackMantissa Format.binary64 bits).toNat = 0 :=
          congrArg BitVec.toNat hnone
        rw [testBit_of_unpackSign hsign, hfraction]
        exact ⟨0, -1074, rfl, by simpa using hle⟩
      · rw [dif_neg hnone] at h
        obtain ⟨hsign, hle⟩ := h.of_finite
        rw [hbiased] at hle
        rw [testBit_of_unpackSign hsign]
        exact ⟨_, -1074, rfl, hle⟩
    · have hbiased : (@unpackExponent Format.binary64 bits).toNat ≠ 0 :=
        fun heq => hzero (BitVec.eq_of_toNat_eq heq)
      rw [if_neg hzero] at h
      rw [if_neg hbiased]
      obtain ⟨hsign, hle⟩ := h.of_finite
      rw [toNat_implicit_append] at hle
      rw [testBit_of_unpackSign hsign]
      exact ⟨_, _, rfl, hle⟩

theorem AtMost.ceiling_le {x : Float} {most : Nat} (h : AtMost x most) : ceiling x ≤ most := by
  obtain ⟨significand, exponent, hshape, hle⟩ := h.shape
  unfold ceiling
  rw [hshape]
  cases exponent with
  | ofNat exponent =>
    refine Nat.le_trans (Nat.min_le_right _ _) ?_
    rw [Int.ofNat_eq_natCast, zpow_natCast] at hle
    exact_mod_cast hle
  | negSucc exponent =>
    have hunit : 0 < 2 ^ (exponent + 1) := Nat.two_pow_pos _
    have hle : significand ≤ most * 2 ^ (exponent + 1) := by
      rw [zpow_negSucc, ← div_eq_mul_inv, div_le_iff₀ (by positivity)] at hle
      exact_mod_cast hle
    show (significand + 2 ^ (exponent + 1) - 1) / 2 ^ (exponent + 1) ≤ most
    rw [Nat.div_le_iff_le_mul hunit]
    omega

/-! ### Operations -/

variable {x y : Float} {a b : ℚ}

theorem AtMost.mono (h : AtMost x a) (hle : a ≤ b) : AtMost x b := by
  unfold AtMost at h ⊢
  cases hx : x.toModel.unpack with
  | zero sign =>
    rw [hx] at h
    obtain ⟨rfl, hnonneg⟩ := h.of_zero
    exact .zero (hnonneg.trans hle)
  | finite sign m e hpos =>
    rw [hx] at h
    cases h with
    | finite hleast hunits hm => exact .finite hleast hunits (hm.trans hle)
  | infinity sign => rw [hx] at h; cases h
  | notANumber => rw [hx] at h; cases h

theorem atMost_ofCount {count : Nat} (h : count + 1 < 2 ^ 53) :
    AtMost (ofCount count) (count + 1) := by
  refine Within.unpack_pack ?_
  have hcount : (UInt64.ofNat count).toNat = count := by
    rw [UInt64.toNat_ofNat']
    exact Nat.mod_eq_of_lt (by omega)
  unfold UnpackedFloat.ofUInt64 UnpackedFloat.ofNat UnpackedFloat.ofInt UnpackedFloat.normalize
  rw [hcount]
  rcases Nat.eq_zero_or_pos count with rfl | hpos
  · exact .zero (by norm_num)
  · rw [Int.compare_eq_gt.2 (by omega)]
    unfold UnpackedFloat.round decreaseExponent
    refine within_roundWithAccuracy .exact (by omega) ?_ (by exact_mod_cast h)
    rw [shiftLeft_mul_two_zpow, zpow_zero, mul_one, Int.toNat_natCast]

theorem AtMost.mul (hx : AtMost x a) (hy : AtMost y b) (h : a * b + 1 < 2 ^ 53) :
    AtMost (x * y) (a * b + 1) := by
  refine Within.unpack_pack ?_
  unfold AtMost at hx hy
  generalize x.toModel.unpack = u at hx ⊢
  generalize y.toModel.unpack = v at hy ⊢
  cases hx with
  | zero ha =>
    cases hy with
    | zero hb => exact .zero (by positivity)
    | finite hleast hunits hle =>
      have hb : 0 ≤ b := le_trans (by positivity) hle
      exact .zero (by positivity)
  | @finite m e hpos hleast hunits hm =>
    have ha : 0 ≤ a := le_trans (by positivity) hm
    cases hy with
    | zero hb => exact .zero (by positivity)
    | @finite n f hpos' hleast' hunits' hn =>
      refine within_roundWithAccuracy .exact (by omega) ?_ h
      calc ((m * n : Nat) : ℚ) * 2 ^ (e + f)
          = m * 2 ^ e * (n * 2 ^ f) := by
            rw [Nat.cast_mul, zpow_add₀ (by norm_num), mul_mul_mul_comm]
        _ ≤ a * b := mul_le_mul hm hn (by positivity) ha

theorem divCore_le {n : Nat} {f : Int} (hpos : 0 < n)
    (htotal : totalExponent m e - totalExponent n f ≤ 53) :
    (divCore Format.binary64 m e n f).2.1 ≤ 0 ∧
      ((divCore Format.binary64 m e n f).1 : ℚ) * 2 ^ (divCore Format.binary64 m e n f).2.1 ≤
        m * 2 ^ e / (n * 2 ^ f) := by
  unfold divCore
  rw [targetExponent_eq]
  dsimp only
  generalize hunit : min (e - f) (max (totalExponent m e - totalExponent n f - 53) (-1074)) = unit
  have hcount : (((e - f - unit).toNat : Nat) : Int) = e - f - unit := by omega
  refine ⟨by omega, ?_⟩
  rw [le_div_iff₀ (by positivity)]
  calc ((m <<< (e - f - unit).toNat / n : Nat) : ℚ) * 2 ^ unit * (n * 2 ^ f)
      = ((m <<< (e - f - unit).toNat / n * n : Nat) : ℚ) * 2 ^ (unit + f) := by
        rw [zpow_add₀ (by norm_num), mul_mul_mul_comm, Nat.cast_mul]
    _ ≤ ((m <<< (e - f - unit).toNat : Nat) : ℚ) * 2 ^ (unit + f) := by
        refine mul_le_mul_of_nonneg_right ?_ (by positivity)
        exact_mod_cast Nat.div_mul_le_self _ n
    _ = m * 2 ^ e := by
        rw [← shiftLeft_mul_two_zpow m (e - f - unit).toNat e, hcount]
        congr 2
        omega

/-- Quotients by a number that is at least one half. -/
theorem AtMost.div {n : Nat} {f : Int} {hpos : 0 < n} (hx : AtMost x a)
    (hy : y.toModel.unpack = .finite .positive n f hpos) (hhalf : 0 ≤ totalExponent n f)
    (ha : a < 2 ^ 53) (h : a / (n * 2 ^ f) + 1 < 2 ^ 53) :
    AtMost (x / y) (a / (n * 2 ^ f) + 1) := by
  refine Within.unpack_pack ?_
  rw [hy]
  unfold AtMost at hx
  generalize x.toModel.unpack = u at hx ⊢
  cases hx with
  | zero hnonneg => exact .zero (by positivity)
  | @finite m e hpos' hleast hunits hm =>
    have htotal := totalExponent_le hunits (lt_of_le_of_lt hm ha)
    obtain ⟨hunit, hquotient⟩ := divCore_le hpos (show totalExponent m e - totalExponent n f ≤ 53
      by omega)
    exact within_roundWithAccuracy _ hunit
      (hquotient.trans (div_le_div_of_nonneg_right hm (by positivity))) h

theorem sqrtCore_le (he : e ≤ 0) :
    (sqrtCore Format.binary64 m e).2.1 ≤ 0 ∧
      (((sqrtCore Format.binary64 m e).1 : ℚ) * 2 ^ (sqrtCore Format.binary64 m e).2.1) ^ 2 ≤
        m * 2 ^ e := by
  unfold sqrtCore
  dsimp only
  generalize hunit : min (e.ediv 2)
    (Format.binary64.targetExponent ((totalExponent m e + 1).ediv 2)) = unit
  have hhalf : unit ≤ e / 2 := hunit ▸ min_le_left _ _
  have hcount : (((e - 2 * unit).toNat : Nat) : Int) = e - 2 * unit := by omega
  refine ⟨by omega, ?_⟩
  generalize (e - 2 * unit).toNat = count at hcount ⊢
  have hroot : ((m <<< count).sqrt : ℚ) ^ 2 ≤ (m <<< count : Nat) := by
    rw [pow_two]
    exact_mod_cast Nat.sqrt_le (m <<< count)
  calc (((m <<< count).sqrt : ℚ) * 2 ^ unit) ^ 2
      = ((m <<< count).sqrt : ℚ) ^ 2 * 2 ^ (2 * unit) := by
        rw [mul_pow, ← zpow_natCast ((2 : ℚ) ^ unit), ← zpow_mul, mul_comm unit]
        rfl
    _ ≤ ((m <<< count : Nat) : ℚ) * 2 ^ (2 * unit) :=
        mul_le_mul_of_nonneg_right hroot (by positivity)
    _ = m * 2 ^ e := by
        rw [← shiftLeft_mul_two_zpow m count e, hcount]
        congr 2
        omega

theorem AtMost.sqrt (hx : AtMost x (a ^ 2)) (ha : 0 ≤ a) (h : a + 1 < 2 ^ 53) :
    AtMost x.sqrt (a + 1) := by
  refine Within.unpack_pack ?_
  unfold AtMost at hx
  generalize x.toModel.unpack = u at hx ⊢
  cases hx with
  | zero hnonneg => exact .zero (by positivity)
  | @finite m e hpos' hleast hunits hm =>
    obtain ⟨hunit, hroot⟩ := sqrtCore_le (m := m) hunits
    have hle := (pow_le_pow_iff_left₀ (by positivity) ha (by decide)).1 (hroot.trans hm)
    exact within_roundWithAccuracy _ hunit hle h

end ApproxSet.Numbers
