import ApproxSet.Proofs.XorSet.SlotArray
import Mathlib.Data.List.Induction

/-!
# Packed slots do not meet

Packed slots of most widths lie across the borders of words and share words with their neighbours,
and to give a slot its value only ever turns bits on. Still an array of packed slots is nothing but
a function from indices to values: values may be given to slots that are zero in any order, and
every slot then holds the value that it was given last. Nothing else is accepted, neither a slot
that is taken or does not exist nor a value that is too wide.

A slot of a width that divides the word is read off a single word. It is the same field of the store
that the general way of reading finds, up to the last word, of which only a part may be in use.
-/

namespace ApproxSet.XorSet

open Bits Outcome

/-- Gives values to slots, one after the other. -/
def PackedArray.assignAll (slots : PackedArray) (given : List (Nat × UInt64)) :
    Outcome PackedArray :=
  given.foldlM (fun slots pair => slots.assign pair.1 pair.2) slots

/-- The value that a slot was given last, or zero if it was given none. -/
def lastGiven (given : List (Nat × UInt64)) (index : Nat) : UInt64 :=
  (given.reverse.lookup index).getD 0

/-- Every value fits, and it goes to a slot that is zero when its turn comes. -/
def Admissible (count width : Nat) (given : List (Nat × UInt64)) : Prop :=
  ∀ before index value after, given = before ++ (index, value) :: after →
    index < count ∧ lastGiven before index = 0 ∧ value.toNat < 2 ^ width

variable {count width index : Nat} {value : UInt64} {given : List (Nat × UInt64)}
  {f : Nat → UInt64} {slots t : PackedArray}

/-! ### Lists of assignments -/

/-- One more assignment changes what one slot was given last. -/
theorem lastGiven_concat (given : List (Nat × UInt64)) (index : Nat) (value : UInt64) :
    lastGiven (given ++ [(index, value)]) = Function.update (lastGiven given) index value := by
  funext i
  rw [lastGiven, List.reverse_concat, List.lookup_cons]
  by_cases hi : i = index
  · rw [hi, Function.update_self, beq_self_eq_true]
    rfl
  · rw [Function.update_of_ne hi, beq_eq_false_iff_ne.2 hi]
    rfl

theorem admissible_nil : Admissible count width [] := by
  intro before index value after h
  exact absurd h.symm (List.append_ne_nil_of_right_ne_nil before (List.cons_ne_nil _ after))

theorem admissible_concat_iff : Admissible count width (given ++ [(index, value)]) ↔
    Admissible count width given ∧ index < count ∧ lastGiven given index = 0 ∧
      value.toNat < 2 ^ width := by
  constructor
  · intro h
    refine ⟨fun before i v after hgiven => ?_, h given index value [] rfl⟩
    exact h before i v (after ++ [(index, value)]) (by rw [hgiven]; simp)
  · intro ⟨hgiven, hlast⟩ before i v after h
    rcases List.eq_nil_or_concat after with rfl | ⟨front, pair, rfl⟩
    · obtain ⟨rfl, hpair⟩ := List.append_inj' h rfl
      cases hpair
      exact hlast
    · have hfront : given ++ [(index, value)] = (before ++ (i, v) :: front) ++ [pair] := by
        rw [h]
        simp
      obtain ⟨rfl, -⟩ := List.append_inj' hfront rfl
      exact hgiven before i v front rfl

/-! ### Assignments to an array -/

namespace PackedArray

/-- An array takes a value just if it fits and there is such a slot, which is zero. -/
theorem assign_eq_ok_iff (h : slots.Shows count width f) :
    (∃ t, slots.assign index value = .ok t) ↔ index < count ∧ f index = 0 ∧ Fits width value := by
  constructor
  · rintro ⟨t, ht⟩
    rw [assign, h.width_eq] at ht
    obtain ⟨offset, hoffset, ht⟩ := bind_eq_ok_iff.1 ht
    obtain ⟨-, rfl⟩ := Checked.mul_eq_ok_iff.1 hoffset
    obtain ⟨store, hstore, -⟩ := bind_eq_ok_iff.1 ht
    obtain ⟨hfield, hfits, hzero, -⟩ := (Store.write_eq_ok_iff h.fields.tidy).1 hstore
    obtain ⟨hpos, -, hend, -⟩ := Store.requireField_eq_ok_iff.1 hfield
    have hindex : index < count := by
      rw [h.fields.length, ← Nat.succ_mul] at hend
      exact Nat.le_of_mul_le_mul_right hend hpos
    exact ⟨hindex, (h.fields.field index hindex).symm.trans hzero, hfits⟩
  · rintro ⟨hindex, hzero, hfits⟩
    obtain ⟨t, ht, -⟩ := assign_eq_ok h hindex hzero hfits
    exact ⟨t, ht⟩

theorem assignAll_concat (slots : PackedArray) (given : List (Nat × UInt64)) (index : Nat)
    (value : UInt64) : slots.assignAll (given ++ [(index, value)]) =
      slots.assignAll given >>= fun t => t.assign index value := by
  rw [assignAll, List.foldlM_append]
  simp [assignAll]

/-- What was accepted has been admissible, and every slot shows the value that it was given last. -/
theorem assignAll_shows (h : slots.Shows count width fun _ => 0)
    (ht : slots.assignAll given = .ok t) :
    Admissible count width given ∧ t.Shows count width (lastGiven given) := by
  induction given using List.reverseRecOn generalizing t with
  | nil =>
    cases ht
    exact ⟨admissible_nil, h⟩
  | append_singleton given pair ih =>
    obtain ⟨index, value⟩ := pair
    rw [assignAll_concat] at ht
    obtain ⟨mid, hmid, ht⟩ := bind_eq_ok_iff.1 ht
    obtain ⟨hadmissible, hshows⟩ := ih hmid
    obtain ⟨hindex, hzero, hfits⟩ := (assign_eq_ok_iff hshows).1 ⟨t, ht⟩
    obtain ⟨t', ht', hshows'⟩ := assign_eq_ok hshows hindex hzero hfits
    rw [ht, Except.ok.injEq] at ht'
    subst ht'
    rw [lastGiven_concat]
    exact ⟨admissible_concat_iff.2 ⟨hadmissible, hindex, hzero, fits_iff_lt.1 hfits⟩, hshows'⟩

theorem assignAll_eq_ok (h : slots.Shows count width fun _ => 0)
    (hgiven : Admissible count width given) : ∃ t, slots.assignAll given = .ok t := by
  induction given using List.reverseRecOn with
  | nil => exact ⟨slots, rfl⟩
  | append_singleton given pair ih =>
    obtain ⟨index, value⟩ := pair
    obtain ⟨hfront, hindex, hzero, hlt⟩ := admissible_concat_iff.1 hgiven
    obtain ⟨mid, hmid⟩ := ih hfront
    have hshows := (assignAll_shows h hmid).2
    rw [assignAll_concat, hmid, ok_bind]
    exact (assign_eq_ok_iff hshows).2 ⟨hindex, hzero, fits_iff_lt.2 hlt⟩

/-! ### Reading -/

/-- Whatever is read is no wider than a slot, also behind the last one. -/
theorem slot_lt (hwidth : slots.width ≤ 64) (h : slots.slot index = .ok value) :
    value.toNat < 2 ^ slots.width := by
  have haligned : ∀ k, slots.readAligned k index = .ok value → value.toNat < 2 ^ slots.width := by
    intro k h
    obtain ⟨word, -, h⟩ := bind_eq_ok_iff.1 h
    cases h
    exact fits_iff_lt.1 (fits_and_mask hwidth _)
  unfold slot at h
  split at h
  case h_1 => exact haligned 3 h
  case h_2 => exact haligned 2 h
  case h_3 => exact haligned 1 h
  case h_4 =>
    obtain ⟨offset, -, h⟩ := bind_eq_ok_iff.1 h
    obtain ⟨⟨⟩, -, h⟩ := bind_eq_ok_iff.1 h
    obtain ⟨first, -, h⟩ := bind_eq_ok_iff.1 h
    obtain ⟨second, -, h⟩ := bind_eq_ok_iff.1 h
    cases h
    exact fits_iff_lt.1 (fits_and_mask hwidth _)

/-- The array is a function from the indices below `count` to values of the width. A slot is the
field of the store that stands at its place, also where it is read off a single word. -/
structure IsFunction (t : PackedArray) (count width : Nat) (f : Nat → UInt64) : Prop where
  slot : ∀ index < count, t.slot index = .ok (f index)
  below : ∀ index value, t.slot index = .ok value → value.toNat < 2 ^ width
  field : ∀ index < count, t.slot index = t.store.read (index * width) width
  aligned : ∀ k, 2 ^ k * width = 64 → ∀ index < count,
    t.readAligned k index = t.store.read (index * width) width

theorem Shows.isFunction (h : t.Shows count width f) : t.IsFunction count width f where
  slot index hindex := slot_eq_ok h hindex
  below index value hvalue := by
    have hwidth := h.width_eq
    have hle := h.fields.le
    subst hwidth
    exact slot_lt hle hvalue
  field index hindex := by rw [slot_eq_ok h hindex, h.fields.read_eq_ok hindex]
  aligned k hk index hindex := by
    rw [readAligned_eq_ok h hk hindex, h.fields.read_eq_ok hindex]

end PackedArray

/-- Values for slots of at least thirteen bits. The slot with the index 3 stays zero at first. -/
def fiveValues : List (Nat × UInt64) :=
  [(4, 0x1fff), (3, 0), (9, 0x1555), (3, 0x1234), (5, 1)]

end ApproxSet.XorSet
