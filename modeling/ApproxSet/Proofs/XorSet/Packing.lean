import ApproxSet.Proofs.XorSet.Membership
import ApproxSet.XorSet.Serial

/-!
# Packed filters and the values of their slots

A packed filter shows a value in each of its slots, and no two packed arrays show the same values.
Filters that were built have this shape, and so has every array that values are packed into. Packing
the values that a filter shows therefore gives the very slots of the filter.
-/

namespace ApproxSet.XorSet

open Bits Outcome

/-- The slots of a filter of a proper geometry, with the values of a function. -/
structure Packed.Holds (filter : Packed) (f : Nat → UInt64) : Prop where
  third : 0 < filter.third
  width : filter.width ≤ 32
  room : 3 * filter.third * filter.width + 63 < 2 ^ 64
  shows : filter.slots.Shows (3 * filter.third) filter.width f

variable {filter : Packed} {f : Nat → UInt64} {slots : PackedArray} {third width count index : Nat}

theorem Packed.Holds.pos (h : filter.Holds f) : 0 < filter.width :=
  h.shows.fields.pos

theorem Packed.Holds.values_eq_ok (h : filter.Holds f) :
    filter.values = .ok ((List.range (3 * filter.third)).map f) := by
  refine mapM_eq_ok_map fun i hi => ?_
  have hi : i < 3 * filter.third := List.mem_range.1 hi
  rw [Table.slot, require_bind _ (show i < filter.slotCount from hi)]
  exact PackedArray.slot_eq_ok h.shows hi

/-- A filter that was built has a proper geometry. -/
theorem holds_of_buildPacked {s : Settings} {keys : List UInt64}
    (h : (buildPacked s keys).outcome = .ok filter) : ∃ f, filter.Holds f := by
  obtain ⟨⟨hpos, hle⟩, htable⟩ := buildPacked_spec h
  have hadmits : LawfulSlots.Admits PackedArray s.width := ⟨hpos, by omega⟩
  obtain ⟨hwidth, hthird, order, -, hshows⟩ := buildTable_spec hadmits (by omega) htable
  obtain ⟨empty, hempty⟩ := zeros_of_buildTable htable
  have hroom := PackedArray.zeros_lt hempty
  rw [← hwidth] at hshows hle hroom
  exact ⟨_, thirdFor_pos hthird, hle, hroom, hshows⟩

namespace Serial

/-! ### Packing -/

theorem fill_cons (value : UInt64) (values : List UInt64) (index : Nat) (slots : PackedArray) :
    fill (value :: values) index slots =
      (if value = 0 then pure slots else slots.assign index value) >>=
        fill values (index + 1) := by
  rw [fill]
  split <;> rfl

/-- Values that were put into packed slots show there. -/
theorem fill_eq_ok (hfits : ∀ i < count, Fits width (f i)) :
    ∀ {left index : Nat} {slots : PackedArray}, index + left = count →
      slots.Shows count width (fun i => if i < index then f i else 0) →
      ∃ slots', fill ((List.range' index left).map f) index slots = .ok slots' ∧
        slots'.Shows count width f := by
  intro left
  induction left with
  | zero =>
    intro index slots hindex h
    have hall : ∀ i < count, (if i < index then f i else 0) = f i := fun i hi => if_pos (by omega)
    exact ⟨slots, rfl, h.width_eq, h.fields.congr hall⟩
  | succ left ih =>
    intro index slots hindex h
    have hhere : index < count := by omega
    rw [List.range'_succ, List.map_cons, fill_cons]
    -- one slot further, whether it is zero or not
    have hnext : ∃ mid, (if f index = 0 then pure slots else slots.assign index (f index)) =
        Except.ok mid ∧ mid.Shows count width fun i => if i < index + 1 then f i else 0 := by
      by_cases hzero : f index = 0
      · rw [if_pos hzero]
        refine ⟨slots, rfl, h.width_eq, h.fields.congr fun i hi => ?_⟩
        by_cases hi' : i = index
        · subst hi'
          rw [if_neg (Nat.lt_irrefl i), if_pos (Nat.lt_succ_self i), hzero]
        · simp only [show i < index + 1 ↔ i < index by omega]
      · rw [if_neg hzero]
        obtain ⟨mid, hmid, hshows⟩ := PackedArray.assign_eq_ok h hhere
          (if_neg (Nat.lt_irrefl index)) (hfits index hhere)
        refine ⟨mid, hmid, hshows.width_eq, hshows.fields.congr fun i hi => ?_⟩
        by_cases hi' : i = index
        · subst hi'
          rw [Function.update_self, if_pos (Nat.lt_succ_self i)]
        · rw [Function.update_of_ne hi']
          simp only [show i < index + 1 ↔ i < index by omega]
    obtain ⟨mid, hmid, hshows⟩ := hnext
    obtain ⟨slots', hslots', hdone⟩ := ih (by omega) hshows
    refine ⟨slots', ?_, hdone⟩
    rw [hmid, ok_bind, hslots']

/-- Values that fit are packed into slots that show them. -/
theorem pack_spec (hpos : 0 < width) (hle : width ≤ 64) (hsmall : 3 * third * width + 63 < 2 ^ 64)
    (hfits : ∀ i < 3 * third, Fits width (f i)) :
    ∃ slots, pack third width ((List.range (3 * third)).map f) = .ok slots ∧
      slots.Shows (3 * third) width f := by
  have hcount : 3 * third ≤ 3 * third * width := Nat.le_mul_of_pos_right _ hpos
  obtain ⟨empty, hempty⟩ := PackedArray.zeros_eq_ok hsmall
  have hzeros := PackedArray.zeros_shows hpos hle hempty
  obtain ⟨slots, hslots, hshows⟩ := fill_eq_ok hfits (Nat.zero_add _)
    ⟨hzeros.width_eq, hzeros.fields.congr fun i _ => (if_neg (Nat.not_lt_zero i)).symm⟩
  refine ⟨slots, ?_, hshows⟩
  rw [pack, Checked.mul_eq_ok (by omega), ok_bind, hempty, ok_bind, List.range_eq_range', hslots]

/-- Packing the values that slots show gives these slots. -/
theorem pack_eq_ok (h : slots.Shows (3 * third) width f)
    (hsmall : 3 * third * width + 63 < 2 ^ 64) :
    pack third width ((List.range (3 * third)).map f) = .ok slots := by
  obtain ⟨slots', hslots', hshows⟩ :=
    pack_spec h.fields.pos h.fields.le hsmall fun i hi => h.fields.fits hi
  rw [hslots', hshows.unique h]

theorem pack_lt {values : List UInt64} (h : pack third width values = .ok slots) :
    3 * third * width + 63 < 2 ^ 64 := by
  obtain ⟨count, hcount, h⟩ := bind_eq_ok_iff.1 h
  obtain ⟨-, rfl⟩ := Checked.mul_eq_ok_iff.1 hcount
  obtain ⟨empty, hempty, -⟩ := bind_eq_ok_iff.1 h
  exact PackedArray.zeros_lt hempty

end Serial

end ApproxSet.XorSet
