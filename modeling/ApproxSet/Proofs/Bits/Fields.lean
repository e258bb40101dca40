import ApproxSet.Proofs.Bits.Store
import Mathlib.Logic.Function.Basic

/-!
# A store as a row of fields

A store that is divided into fields of one width shows a function from indices to values. The fields
never meet, whatever their width, so writing one of them changes the function at one index only.
-/

namespace ApproxSet.Bits.Store

open Outcome

/-- The store consists of `count` fields of a width, which hold the values of a function. -/
structure Fields (s : Store) (count width : Nat) (f : Nat → UInt64) : Prop where
  pos : 0 < width
  le : width ≤ 64
  tidy : s.Tidy
  length : s.length = count * width
  small : count * width < 2 ^ 64
  field : ∀ i < count, s.field (i * width) width = f i

variable {s t : Store} {count width i j k : Nat} {f g : Nat → UInt64} {value : UInt64}

theorem field_apart (hij : i ≠ j) (hk : k < width) :
    ¬(j * width ≤ i * width + k ∧ i * width + k < j * width + width) := by
  intro h
  rcases Nat.lt_or_gt_of_ne hij with hlt | hlt
  · have hmul := Nat.mul_le_mul_right width hlt
    rw [Nat.succ_mul] at hmul
    omega
  · have hmul := Nat.mul_le_mul_right width hlt
    rw [Nat.succ_mul] at hmul
    omega

theorem field_end_le (width : Nat) (hi : i < count) : i * width + width ≤ count * width := by
  rw [← Nat.succ_mul]
  exact Nat.mul_le_mul_right width hi

namespace Fields

theorem mul_eq_ok (h : s.Fields count width f) (hi : i < count) :
    Checked.mul 64 i width = .ok (i * width) := by
  have hend := field_end_le width hi
  have hsmall := h.small
  exact Checked.mul_eq_ok (by omega)

theorem requireField (h : s.Fields count width f) (hi : i < count) :
    s.requireField (i * width) width = .ok () := by
  have hend := field_end_le width hi
  have hlength := h.length
  have hsmall := h.small
  exact requireField_eq_ok_iff.2 ⟨h.pos, h.le, by omega, by omega⟩

theorem fits (h : s.Fields count width f) (hi : i < count) : Fits width (f i) := by
  rw [← h.field i hi]
  exact fits_field h.le

/-- Only the values at the indices of fields count. -/
theorem congr (h : s.Fields count width f) (hfg : ∀ i < count, f i = g i) :
    s.Fields count width g :=
  ⟨h.pos, h.le, h.tidy, h.length, h.small, fun i hi => (h.field i hi).trans (hfg i hi)⟩

theorem read_eq_ok (h : s.Fields count width f) (hi : i < count) :
    s.read (i * width) width = .ok (f i) := by
  rw [Store.read_eq_ok h.tidy (h.requireField hi), h.field i hi]

theorem bit_eq (h : s.Fields count width f) (hi : i < count * width) :
    s.bit i = (f (i / width)).toNat.testBit (i % width) := by
  have hindex : i / width < count := (Nat.div_lt_iff_lt_mul h.pos).2 hi
  rw [← h.field _ hindex, testBit_field h.le, decide_eq_true (Nat.mod_lt i h.pos), Bool.true_and,
    Nat.div_add_mod']

/-- A store is determined by its fields. -/
theorem unique (hs : s.Fields count width f) (ht : t.Fields count width f) : s = t := by
  refine hs.tidy.ext ht.tidy (hs.length.trans ht.length.symm) fun i => ?_
  by_cases hi : i < count * width
  · rw [hs.bit_eq hi, ht.bit_eq hi]
  · rw [hs.tidy.clear i (by rw [hs.length]; omega), ht.tidy.clear i (by rw [ht.length]; omega)]

/-- A value that was put into one field shows there, and all other fields stay. -/
theorem overwrite (h : s.Fields count width f) (hfits : Fits width value) (htidy : t.Tidy)
    (hover : Overwrites s t (i * width) width value) :
    t.Fields count width (Function.update f i value) := by
  refine ⟨h.pos, h.le, htidy, hover.length.trans h.length, h.small, ?_⟩
  intro j hj
  apply word_ext
  intro k _
  rw [testBit_field h.le, hover.bit]
  by_cases hk : k < width
  · by_cases hji : j = i
    · subst hji
      simp [hk]
    · rw [if_neg (field_apart hji hk), Function.update_of_ne hji, ← h.field j hj,
        testBit_field h.le]
  · by_cases hji : j = i
    · subst hji
      simp [hk, hfits k (by omega)]
    · rw [Function.update_of_ne hji, ← h.field j hj, testBit_field h.le]
      simp [hk]

theorem write_eq_ok (h : s.Fields count width f) (hi : i < count) (hzero : f i = 0)
    (hfits : Fits width value) :
    ∃ t, s.write (i * width) value width = .ok t ∧
      t.Fields count width (Function.update f i value) := by
  have hempty := (field_eq_zero_iff h.le).1 ((h.field i hi).trans hzero)
  obtain ⟨t, ht, hover, htidy⟩ := Store.write_eq_ok h.tidy (h.requireField hi) hfits hempty
  exact ⟨t, ht, h.overwrite hfits htidy hover⟩

theorem replace_eq_ok (h : s.Fields count width f) (hi : i < count) (hfits : Fits width value) :
    ∃ t, s.replace (i * width) value width = .ok t ∧
      t.Fields count width (Function.update f i value) := by
  obtain ⟨t, ht, hover, htidy⟩ : ∃ t, s.replace (i * width) value width = .ok t ∧ _ :=
    Store.replace_eq_ok value h.tidy (h.requireField hi)
  rw [and_mask_of_fits h.le hfits] at hover
  exact ⟨t, ht, h.overwrite hfits htidy hover⟩

end Fields

theorem zeros_fields (hpos : 0 < width) (hle : width ≤ 64) (hsmall : count * width < 2 ^ 64)
    (h : zeros (count * width) = .ok s) : s.Fields count width fun _ => 0 := by
  obtain ⟨htidy, hlength, hbit⟩ := zeros_spec h
  exact ⟨hpos, hle, htidy, hlength, hsmall,
    fun i _ => (field_eq_zero_iff hle).2 fun _ _ => hbit _⟩

end ApproxSet.Bits.Store
