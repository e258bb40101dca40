import ApproxSet.Proofs.Numbers.Rounding

/-!
# Products by a number above one

A word that is not zero becomes a floating-point number with all of its fifty-three digits. Rounding
drops the digits behind these, so a product by a number above one never rounds back to the word: it
has more in its digits or a greater exponent, up to a product that is too great and is infinite.
-/

namespace ApproxSet.Numbers

open Float.Model Float.Model.UnpackedFloat

variable {x y : Float} {m n : Nat} {e f : Int} {u v : UnpackedFloat}

/-- The number is positive and has all of its fifty-three digits. -/
def Full (m : Nat) (e : Int) (u : UnpackedFloat) : Prop :=
  2 ^ 52 ≤ m ∧ m < 2 ^ 53 ∧ ∃ hpos, u = .finite .positive m e hpos

theorem le_roundedMantissa (em : ExtendedMantissa) : em.mantissa ≤ em.roundedMantissa := by
  unfold ExtendedMantissa.roundedMantissa
  generalize em.accuracy = accuracy
  rcases accuracy with _ | (_ | _ | _)
  all_goals
    dsimp only [Accuracy.roundToNearestEven]
    omega

/-- The first fifty-three digits of a number. -/
theorem first_digits (hm : 2 ^ 52 ≤ m) :
    52 ≤ m.log2 ∧ 2 ^ 52 ≤ m / 2 ^ (m.log2 - 52) ∧ m / 2 ^ (m.log2 - 52) < 2 ^ 53 := by
  have hne : m ≠ 0 := by omega
  have hlog : 52 ≤ m.log2 := (Nat.le_log2 hne).2 hm
  refine ⟨hlog, ?_, ?_⟩
  · rw [Nat.le_div_iff_mul_le (Nat.two_pow_pos _), ← Nat.pow_add, Nat.add_sub_cancel' hlog]
    exact Nat.log2_self_le hne
  · rw [Nat.div_lt_iff_lt_mul (Nat.two_pow_pos _), ← Nat.pow_add,
      show 53 + (m.log2 - 52) = m.log2 + 1 by omega]
    exact Nat.lt_log2_self

/-- Digits behind the fifty-third one are rounded away. If that makes a digit more, the exponent
grows. -/
theorem full_roundWithAccuracy (accuracy : Accuracy) (hm : 2 ^ 52 ≤ m) (he : -1074 ≤ e) :
    ∃ n f, Full n f (roundWithAccuracy Format.binary64 .positive m e accuracy) ∧
      (f = e + (m.log2 - 52 : Nat) ∧ m / 2 ^ (m.log2 - 52) ≤ n ∨
        f = e + (m.log2 - 52 : Nat) + 1) := by
  obtain ⟨hlog, hlow, hhigh⟩ := first_digits hm
  unfold roundWithAccuracy shiftToTargetExponent shiftToExponent
  dsimp only
  rw [targetExponent_eq, totalExponent,
    show (max ((m.log2 : Int) + 1 + e - 53) (-1074) - e).toNat = m.log2 - 52 by omega]
  generalize hem : ExtendedMantissa.ofMantissaAndAccuracy m accuracy >>> (m.log2 - 52) = em
  have hfirst : em.mantissa = m / 2 ^ (m.log2 - 52) := by
    rw [← hem, shift_mantissa, mantissa_ofMantissaAndAccuracy]
  have hle := le_roundedMantissa em
  have hmost := roundedMantissa_le em
  rw [hfirst] at hle hmost
  generalize em.roundedMantissa = rounded at hle hmost ⊢
  generalize m.log2 - 52 = count at *
  -- the second shift only has something to do if rounding has carried into a further digit
  generalize hshift : (Format.binary64.targetExponent (totalExponent rounded (e + count)) -
    (e + count)).toNat = shift
  rw [targetExponent_eq, totalExponent] at hshift
  generalize hlast : (ExtendedMantissa.ofMantissaAndAccuracy rounded .exact >>> shift) = last
  have hvalue : last.mantissa = rounded / 2 ^ shift := by
    rw [← hlast, shift_mantissa, mantissa_ofMantissaAndAccuracy]
  rcases Nat.lt_or_ge rounded (2 ^ 53) with hsame | hmore
  · have hdigits : rounded.log2 = 52 := (Nat.log2_eq_iff (by omega)).2 ⟨by omega, hsame⟩
    obtain rfl : shift = 0 := by omega
    rw [Nat.pow_zero, Nat.div_one] at hvalue
    exact ⟨_, _, ⟨by omega, by omega, _, dif_neg (by omega)⟩, .inl (by omega)⟩
  · obtain rfl : rounded = 2 ^ 53 := by omega
    rw [Nat.log2_two_pow] at hshift
    obtain rfl : shift = 1 := by omega
    exact ⟨_, _, ⟨by omega, by omega, _, dif_neg (by omega)⟩, .inr (by omega)⟩

/-! ### Packed numbers -/

/-- Bits of a number with all digits. -/
theorem full_unpack {bits : BitVec 64} {biased : BitVec 11} {fraction : BitVec 52}
    (hsign : @unpackSign Format.binary64 bits = Sign.positive.toBitVec)
    (hexponent : @unpackExponent Format.binary64 bits = biased)
    (hmantissa : @unpackMantissa Format.binary64 bits = fraction)
    (hleast : biased ≠ 0#11) (hfinite : biased ≠ -1#11) :
    Full (fraction.toNat + 2 ^ 52) ((biased.toNat : Int) - 1075)
      (UnpackedFloat.unpack Format.binary64 bits) := by
  have hfraction := fraction.isLt
  subst hmantissa
  unfold UnpackedFloat.unpack
  rw [hsign, hexponent]
  dsimp only
  rw [if_neg hfinite, if_neg hleast, ← toNat_implicit_append]
  refine ⟨?_, ?_, _, rfl⟩
  · rw [toNat_implicit_append]
    omega
  · rw [toNat_implicit_append]
    omega

/-- Packing keeps a number with all digits. -/
theorem Full.unpack_pack (h : Full m e u) (hleast : -1074 ≤ e) (hmost : e ≤ 971) :
    Full m e (Float.Model.pack u).unpack := by
  obtain ⟨hlow, hhigh, hpos, rfl⟩ := h
  obtain ⟨biased, hbiased⟩ : ∃ biased : Nat, e = (biased : Int) - 1075 :=
    ⟨(e + 1075).toNat, by omega⟩
  have hdigits : m.log2 = 52 := (Nat.log2_eq_iff (by omega)).2 ⟨hlow, hhigh⟩
  have hword : (BitVec.ofNat 11 biased).toNat = biased := by
    rw [BitVec.toNat_ofNat]
    exact Nat.mod_eq_of_lt (by omega)
  have hfraction : (BitVec.ofNat 52 m).toNat + 2 ^ 52 = m := by
    rw [BitVec.toNat_ofNat]
    omega
  have hsign := @unpackSign_packComponents .positive (BitVec.ofNat 11 biased) (BitVec.ofNat 52 m)
  have hfull := full_unpack hsign unpackExponent_packComponents unpackMantissa_packComponents
    (fun hzero => by
      have hnone : biased = 0 := hword.symm.trans (congrArg BitVec.toNat hzero)
      omega)
    (fun hones => by
      have hall : biased = 2 ^ 11 - 1 := hword.symm.trans (congrArg BitVec.toNat hones)
      omega)
  rw [hword, hfraction, ← hbiased] at hfull
  show Full m e (UnpackedFloat.unpack Format.binary64 (UnpackedFloat.pack Format.binary64 _))
  rw [pack_finite hbiased (by omega), if_pos (by omega)]
  exact hfull

/-- Packing makes a number that is too great infinite. -/
theorem Full.unpack_pack_great (h : Full m e u) (hgreat : 971 < e) :
    (Float.Model.pack u).unpack = .infinity .positive := by
  obtain ⟨-, -, hpos, rfl⟩ := h
  have hbiased : 2 ^ 11 ≤ (e + Format.binary64.exponentBias + ((52 : Nat) : Int)).toNat + 1 := by
    show 2 ^ 11 ≤ (e + ((1023 : Nat) : Int) + ((52 : Nat) : Int)).toNat + 1
    omega
  show UnpackedFloat.unpack Format.binary64 (UnpackedFloat.pack Format.binary64 _) = _
  unfold UnpackedFloat.pack
  dsimp only
  rw [if_pos hbiased]
  rfl

/-! ### Words -/

theorem log2_shiftLeft (hm : m ≠ 0) (shift : Nat) : (m <<< shift).log2 = m.log2 + shift := by
  rw [Nat.log2_eq_iff, Nat.shiftLeft_eq, Nat.pow_add,
    show m.log2 + shift + 1 = m.log2 + 1 + shift by omega, Nat.pow_add]
  · exact ⟨Nat.mul_le_mul_right _ (Nat.log2_self_le hm),
      Nat.mul_lt_mul_of_pos_right Nat.lt_log2_self (Nat.two_pow_pos _)⟩
  · rw [Nat.shiftLeft_eq]
    exact Nat.mul_ne_zero hm (Nat.two_pow_pos _).ne'

/-- A word that is not zero has all digits as a floating-point number. -/
theorem full_toFloat {count : UInt64} (h : count ≠ 0) :
    ∃ m e, Full m e count.toFloat.toModel.unpack ∧ -52 ≤ e := by
  have hne : count.toNat ≠ 0 := fun hzero => h (UInt64.toNat_inj.1 hzero)
  have hlog : count.toNat.log2 < 64 := (Nat.log2_lt hne).2 count.toNat_lt
  obtain ⟨m, e, hfull, hleast, hmost⟩ :
      ∃ m e, Full m e (UnpackedFloat.ofUInt64 Format.binary64 count) ∧ -52 ≤ e ∧ e ≤ 971 := by
    unfold UnpackedFloat.ofUInt64 UnpackedFloat.ofNat UnpackedFloat.ofInt UnpackedFloat.normalize
    rw [Int.compare_eq_gt.2 (by omega)]
    unfold UnpackedFloat.round decreaseExponent
    dsimp only
    rw [Int.toNat_natCast, targetExponent_eq, totalExponent]
    generalize hshift : (0 - max ((count.toNat.log2 : Int) + 1 + 0 - 53) (-1074)).toNat = shift
    have hshifted := log2_shiftLeft hne shift
    have hdigits : 2 ^ 52 ≤ count.toNat <<< shift := by
      have hpow : 2 ^ (count.toNat <<< shift).log2 ≤ count.toNat <<< shift :=
        Nat.log2_self_le (by simpa [Nat.shiftLeft_eq] using hne)
      exact Nat.le_trans (Nat.pow_le_pow_right (by decide) (by omega)) hpow
    obtain ⟨m, e, hfull, hexponent⟩ :=
      full_roundWithAccuracy (e := 0 - shift) .exact hdigits (by omega)
    exact ⟨m, e, hfull, by omega, by omega⟩
  exact ⟨m, e, hfull.unpack_pack (by omega) hmost, hleast⟩

/-! ### Numbers above one -/

theorem lt_iff_compare : x < y ↔
    UnpackedFloat.compare x.toModel.unpack y.toModel.unpack = some .lt := by
  show decide (x.toModel < y.toModel) = true ↔ _
  rw [decide_eq_true_iff]
  exact beq_iff_eq

theorem compare_finite (hm : 0 < m) (hn : 0 < n) :
    UnpackedFloat.compare (.finite .positive m e hm) (.finite .positive n f hn) =
      some ((compare e f).then (compare m n)) :=
  rfl

theorem compare_eq_lt_iff {hm : 0 < m} {hn : 0 < n} :
    UnpackedFloat.compare (.finite .positive m e hm) (.finite .positive n f hn) = some .lt ↔
      e < f ∨ e = f ∧ m < n := by
  rw [compare_finite, Option.some.injEq, Ordering.then_eq_lt, Int.compare_eq_lt,
    Nat.compare_eq_lt, Int.compare_eq_eq]

theorem unpack_one : (1 : Float).toModel.unpack =
    .finite .positive (2 ^ 52) (-52) (by decide) := rfl

theorem full_of_one_lt (hfinite : y.isFinite = true) (h : 1 < y) :
    ∃ n f, Full n f y.toModel.unpack ∧ (-52 < f ∨ -52 = f ∧ 2 ^ 52 < n) := by
  rw [lt_iff_compare, unpack_one] at h
  change UnpackedFloat.isFinite y.toModel.unpack = true at hfinite
  unfold Float.Model.unpack UnpackedFloat.unpack at *
  generalize y.toModel.toBits.toBitVec = bits at *
  dsimp only at *
  generalize hsign : Sign.ofBitVec (@unpackSign Format.binary64 bits) = sign at *
  have hfraction : (@unpackMantissa Format.binary64 bits).toNat < 2 ^ 52 := BitVec.isLt _
  by_cases hspecial : @unpackExponent Format.binary64 bits = -1#11
  · rw [if_pos hspecial] at hfinite
    split at hfinite <;> cases hfinite
  · rw [if_neg hspecial] at h ⊢
    by_cases hleast : @unpackExponent Format.binary64 bits = 0#11
    · rw [if_pos hleast, hleast] at h
      by_cases hzero : @unpackMantissa Format.binary64 bits = 0#52
      · rw [dif_pos hzero] at h
        cases h
      · rw [dif_neg hzero] at h
        cases sign with
        | negative => cases h
        | positive =>
          rw [compare_eq_lt_iff] at h
          change -52 < (-1074 : Int) ∨ -52 = (-1074 : Int) ∧ _ at h
          omega
    · rw [if_neg hleast] at h ⊢
      cases sign with
      | negative => cases h
      | positive =>
        rw [compare_eq_lt_iff] at h
        refine ⟨_, _, ⟨?_, ?_, _, rfl⟩, h⟩
        · rw [toNat_implicit_append]
          omega
        · rw [toNat_implicit_append]
          omega

/-- A product by a number above one is above the other factor: it has either a greater exponent or
more in its first fifty-three digits. -/
theorem Full.mul_above (hu : Full m e u) (hv : Full n f v) (hleast : -52 ≤ e)
    (habove : -52 < f ∨ -52 = f ∧ 2 ^ 52 < n) :
    ∃ q g, Full q g (UnpackedFloat.mul Format.binary64 u v) ∧ (e < g ∨ e = g ∧ m < q) := by
  obtain ⟨hm, -, hmpos, rfl⟩ := hu
  obtain ⟨hn, -, hnpos, rfl⟩ := hv
  have hlow : 2 ^ 52 * 2 ^ 52 ≤ m * n := Nat.mul_le_mul hm hn
  have hlog : 104 ≤ (m * n).log2 := (Nat.le_log2 (by omega)).2 hlow
  obtain ⟨q, g, hq, hexponent⟩ :=
    full_roundWithAccuracy (m := m * n) (e := e + f) .exact (by omega) (by omega)
  refine ⟨q, g, hq, ?_⟩
  rcases hexponent with ⟨hg, hdigits⟩ | hg
  · by_cases hsame : e < g
    · exact .inl hsame
    · have hshift : (m * n).log2 - 52 = 52 := by omega
      have hmore : (m + 1) * 2 ^ 52 ≤ m * n :=
        calc (m + 1) * 2 ^ 52 = m * 2 ^ 52 + 2 ^ 52 := Nat.succ_mul _ _
          _ ≤ m * 2 ^ 52 + m := Nat.add_le_add_left hm _
          _ = m * (2 ^ 52 + 1) := (Nat.mul_succ _ _).symm
          _ ≤ m * n := Nat.mul_le_mul_left m (by omega)
      rw [hshift] at hdigits
      exact .inr ⟨by omega, ((Nat.le_div_iff_mul_le (by decide)).2 hmore).trans hdigits⟩
  · exact .inl (by omega)

/-! ### Order -/

/-- The number is not negative, and it is a number. -/
inductive NotNegative : UnpackedFloat → Prop
  | zero : NotNegative (.zero .positive)
  | finite {m : Nat} {e : Int} {hpos : 0 < m} : NotNegative (.finite .positive m e hpos)
  | infinity : NotNegative (.infinity .positive)

theorem le_iff_compare : x ≤ y ↔
    (UnpackedFloat.compare x.toModel.unpack y.toModel.unpack).any (·.isLE) = true := by
  show decide (x.toModel ≤ y.toModel) = true ↔ _
  rw [decide_eq_true_iff]
  exact Iff.rfl

theorem compare_isLE_iff {hm : 0 < m} {hn : 0 < n} :
    (UnpackedFloat.compare (.finite .positive m e hm) (.finite .positive n f hn)).any (·.isLE) =
      true ↔ e < f ∨ e = f ∧ m ≤ n := by
  rw [compare_finite, Option.any_some, Ordering.isLE_then_iff_or]
  simp [Int.compare_eq_lt, Nat.isLE_compare]

/-- Numbers that are not negative are in order one way or the other. -/
theorem not_lt_iff_le (hx : NotNegative x.toModel.unpack) (hy : NotNegative y.toModel.unpack) :
    ¬x < y ↔ y ≤ x := by
  rw [lt_iff_compare, le_iff_compare]
  generalize x.toModel.unpack = u at hx ⊢
  generalize y.toModel.unpack = v at hy ⊢
  cases hx with
  | @finite m e =>
    cases hy with
    | @finite n f =>
      rw [compare_eq_lt_iff, compare_isLE_iff]
      omega
    | zero => exact iff_of_true nofun rfl
    | infinity => exact iff_of_false (fun hnot => hnot rfl) nofun
  | zero =>
    cases hy with
    | zero => exact iff_of_true nofun rfl
    | finite => exact iff_of_false (fun hnot => hnot rfl) nofun
    | infinity => exact iff_of_false (fun hnot => hnot rfl) nofun
  | infinity =>
    cases hy with
    | zero => exact iff_of_true nofun rfl
    | finite => exact iff_of_true nofun rfl
    | infinity => exact iff_of_true nofun rfl

theorem notNegative_toFloat (count : UInt64) : NotNegative count.toFloat.toModel.unpack := by
  by_cases hcount : count = 0
  · rw [hcount]
    exact .zero
  · obtain ⟨m, e, ⟨-, -, hpos, hunpack⟩, -⟩ := full_toFloat hcount
    rw [hunpack]
    exact .finite

/-! ### A word times a number above one -/

theorem unpack_mul (x y : Float) : (x * y).toModel.unpack =
    (Float.Model.pack
      (UnpackedFloat.mul Format.binary64 x.toModel.unpack y.toModel.unpack)).unpack :=
  rfl

theorem unpack_zero_mul (hfinite : y.isFinite = true) (h : 1 < y) :
    ((0 : UInt64).toFloat * y).toModel.unpack = .zero .positive := by
  obtain ⟨n, f, ⟨-, -, hpos, hy⟩, -⟩ := full_of_one_lt hfinite h
  have hzero : (0 : UInt64).toFloat.toModel.unpack = .zero .positive := rfl
  have hproduct : UnpackedFloat.mul Format.binary64 (.zero .positive)
      (.finite .positive n f hpos) = .zero .positive := rfl
  rw [unpack_mul, hy, hzero, hproduct]
  rfl

/-- A word that is not zero is less than its product with a number above one. The product may be too
great for a number, and then it is infinite. -/
theorem above_toFloat_mul {count : UInt64} (hcount : count ≠ 0) (hfinite : y.isFinite = true)
    (h : 1 < y) : NotNegative (count.toFloat * y).toModel.unpack ∧
      count.toFloat < count.toFloat * y := by
  obtain ⟨m, e, hx, hleast⟩ := full_toFloat hcount
  obtain ⟨n, f, hy, habove⟩ := full_of_one_lt hfinite h
  obtain ⟨q, g, hproduct, hgreater⟩ := hx.mul_above hy hleast habove
  obtain ⟨-, -, hpos, hx⟩ := hx
  rw [lt_iff_compare, unpack_mul]
  by_cases hgreat : 971 < g
  · rw [hproduct.unpack_pack_great hgreat, hx]
    exact ⟨.infinity, rfl⟩
  · obtain ⟨-, -, hpos, hpacked⟩ := hproduct.unpack_pack (by omega) (by omega)
    rw [hpacked, hx]
    exact ⟨.finite, compare_eq_lt_iff.2 hgreater⟩

theorem not_lt_toFloat_mul_iff (count other : UInt64) (hfinite : y.isFinite = true) (h : 1 < y) :
    ¬count.toFloat < other.toFloat * y ↔ other.toFloat * y ≤ count.toFloat := by
  refine not_lt_iff_le (notNegative_toFloat count) ?_
  by_cases hother : other = 0
  · rw [hother, unpack_zero_mul hfinite h]
    exact .zero
  · exact (above_toFloat_mul hother hfinite h).1

theorem zero_mul_le (count : UInt64) (hfinite : y.isFinite = true) (h : 1 < y) :
    (0 : UInt64).toFloat * y ≤ count.toFloat := by
  have hcount := notNegative_toFloat count
  rw [le_iff_compare, unpack_zero_mul hfinite h]
  generalize count.toFloat.toModel.unpack = u at hcount ⊢
  cases hcount <;> rfl

/-- No word other than zero is as great as its own product with a number above one. -/
theorem mul_le_self_iff (count : UInt64) (hfinite : y.isFinite = true) (h : 1 < y) :
    count.toFloat * y ≤ count.toFloat ↔ count = 0 := by
  rw [← not_lt_toFloat_mul_iff count count hfinite h]
  constructor
  · intro hnot
    by_contra hcount
    exact hnot (above_toFloat_mul hcount hfinite h).2
  · rintro rfl
    exact (not_lt_toFloat_mul_iff 0 0 hfinite h).2 (zero_mul_le 0 hfinite h)

end ApproxSet.Numbers
