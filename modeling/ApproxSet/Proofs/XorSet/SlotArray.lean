import ApproxSet.Proofs.Bits.Fields
import ApproxSet.XorSet.Slots

/-!
# Arrays of independent slots

The three kinds of slot arrays behave alike: an array shows a function from indices to values, and
assigning a value that fits to a slot that is zero changes the function at that index and nowhere
else. `LawfulSlots` collects these laws, so that what is solved for one kind of array is solved for
all of them.

For packed slots the law says that they are the fields of their store, and that a slot read off a
single word is the same field.
-/

namespace ApproxSet.XorSet

open Bits Outcome

/-- The laws of arrays of slots. -/
class LawfulSlots (σ : Type) [SlotArray σ] where
  /-- The widths that such an array supports. -/
  Admits : (width : Nat) → Prop
  /-- The array has `count` slots of a width, with the values of a function. -/
  Shows : σ → (count width : Nat) → (Nat → UInt64) → Prop
  zeros_shows {count width : Nat} {slots : σ} : Admits width →
    SlotArray.zeros count width = .ok slots → Shows slots count width fun _ => 0
  slot_eq_ok {slots : σ} {count width index : Nat} {f : Nat → UInt64} :
    Shows slots count width f → index < count → SlotArray.slot slots index = .ok (f index)
  assign_eq_ok {slots : σ} {count width index : Nat} {f : Nat → UInt64} {value : UInt64} :
    Shows slots count width f → index < count → f index = 0 → Fits width value →
    ∃ slots', SlotArray.assign slots index value = .ok slots' ∧
      Shows slots' count width (Function.update f index value)

/-! ### Octets and 16-bit words -/

theorem toUInt64_toUInt16 {value : UInt64} (h : Fits 16 value) :
    value.toUInt16.toUInt64 = value := by
  have hlt := fits_iff_lt.1 h
  apply UInt64.toNat_inj.1
  rw [UInt16.toNat_toUInt64, UInt64.toNat_toUInt16, Nat.mod_eq_of_lt hlt]

/-- The elements of an array stand for the values of a function. -/
def ShowsAs {ε : Type} (toWord : ε → UInt64) (slots : Array ε) (count : Nat) (f : Nat → UInt64) :
    Prop :=
  slots.size = count ∧ ∀ i (h : i < slots.size), toWord slots[i] = f i

section ShowsAs

variable {ε : Type} {toWord : ε → UInt64} {slots : Array ε} {count index : Nat} {f : Nat → UInt64}

theorem showsAs_replicate {zero : ε} (h : toWord zero = 0) :
    ShowsAs toWord (Array.replicate count zero) count fun _ => 0 :=
  ⟨by simp, by simp [h]⟩

theorem ShowsAs.set {element : ε} {value : UInt64} (h : ShowsAs toWord slots count f)
    (hi : index < slots.size) (hvalue : toWord element = value) :
    ShowsAs toWord (slots.set index element) count (Function.update f index value) := by
  refine ⟨by rw [Array.size_set]; exact h.1, fun i hi' => ?_⟩
  rw [Array.size_set] at hi'
  by_cases hii : i = index
  · subst hii
    rw [Array.getElem_set_self, Function.update_self, hvalue]
  · rw [Array.getElem_set_ne hi hi' (Ne.symm hii), Function.update_of_ne hii, h.2 i hi']

end ShowsAs

instance : LawfulSlots (Array UInt8) where
  Admits width := width = 8
  Shows slots count width f := width = 8 ∧ ShowsAs UInt8.toUInt64 slots count f
  zeros_shows := by
    rintro count width slots rfl h
    cases h
    exact ⟨rfl, showsAs_replicate rfl⟩
  slot_eq_ok := by
    rintro slots count width index f ⟨-, rfl, hf⟩ hindex
    simp [SlotArray.slot, hindex, hf]
  assign_eq_ok := by
    rintro slots count width index f value ⟨rfl, hshows⟩ hindex hzero hfits
    obtain rfl := hshows.1
    have hslot : slots[index] = 0 := UInt8.toUInt64_inj.1 ((hshows.2 index hindex).trans hzero)
    refine ⟨slots.set index value.toUInt8, ?_, rfl, hshows.set hindex (toUInt64_toUInt8 hfits)⟩
    simp [SlotArray.assign, hindex, hslot, require, ok_bind, pure_eq_ok]

instance : LawfulSlots (Array UInt16) where
  Admits width := width = 16
  Shows slots count width f := width = 16 ∧ ShowsAs UInt16.toUInt64 slots count f
  zeros_shows := by
    rintro count width slots rfl h
    cases h
    exact ⟨rfl, showsAs_replicate rfl⟩
  slot_eq_ok := by
    rintro slots count width index f ⟨-, rfl, hf⟩ hindex
    simp [SlotArray.slot, hindex, hf]
  assign_eq_ok := by
    rintro slots count width index f value ⟨rfl, hshows⟩ hindex hzero hfits
    obtain rfl := hshows.1
    have hslot : slots[index] = 0 := UInt16.toUInt64_inj.1 ((hshows.2 index hindex).trans hzero)
    refine ⟨slots.set index value.toUInt16, ?_, rfl, hshows.set hindex (toUInt64_toUInt16 hfits)⟩
    simp [SlotArray.assign, hindex, hslot, require, ok_bind, pure_eq_ok]

/-! ### Packed slots -/

namespace PackedArray

/-- The slots are the fields of the store. -/
structure Shows (slots : PackedArray) (count width : Nat) (f : Nat → UInt64) : Prop where
  width_eq : slots.width = width
  fields : slots.store.Fields count width f

variable {slots : PackedArray} {count width i k : Nat} {f : Nat → UInt64}

theorem zeros_shows (hpos : 0 < width) (hle : width ≤ 64) (h : zeros count width = .ok slots) :
    slots.Shows count width fun _ => 0 := by
  obtain ⟨bits, hbits, h⟩ := bind_eq_ok_iff.1 h
  obtain ⟨hsmall, rfl⟩ := Checked.mul_eq_ok_iff.1 hbits
  obtain ⟨store, hstore, h⟩ := bind_eq_ok_iff.1 h
  cases h
  exact ⟨rfl, Store.zeros_fields hpos hle hsmall hstore⟩

/-- An array can be allotted if the bits of its words can be counted. -/
theorem zeros_eq_ok (h : count * width + 63 < 2 ^ 64) :
    ∃ slots, zeros count width = .ok slots := by
  rw [zeros, Checked.mul_eq_ok (by omega), ok_bind, Store.zeros_eq_ok_iff.2 ⟨h, rfl⟩]
  exact ⟨_, rfl⟩

/-- Where they cannot, there is no array. -/
theorem zeros_eq_overflow (h : 2 ^ 64 ≤ count * width + 63) :
    zeros count width = violate .overflow := by
  by_cases hbits : count * width < 2 ^ 64
  · rw [zeros, Checked.mul_eq_ok hbits, ok_bind, Store.zeros_eq_overflow h]
    rfl
  · rw [zeros, Checked.mul_eq_overflow (Nat.le_of_not_lt hbits)]
    rfl

/-- The bits of all slots can be counted, and so can those of the words that hold them. -/
theorem zeros_lt (h : zeros count width = .ok slots) : count * width + 63 < 2 ^ 64 := by
  obtain ⟨bits, hbits, h⟩ := bind_eq_ok_iff.1 h
  obtain ⟨-, rfl⟩ := Checked.mul_eq_ok_iff.1 hbits
  obtain ⟨store, hstore, -⟩ := bind_eq_ok_iff.1 h
  exact (Store.zeros_eq_ok_iff.1 hstore).1

theorem readField_eq_ok (h : slots.Shows count width f) (hi : i < count) :
    slots.readField i = .ok (f i) := by
  rw [readField, h.width_eq, h.fields.mul_eq_ok hi, ok_bind, h.fields.read_eq_ok hi]

/-- A field of a width that divides the word lies in one word. -/
theorem readAligned_eq_ok (h : slots.Shows count width f) (hk : 2 ^ k * width = 64)
    (hi : i < count) : slots.readAligned k i = .ok (f i) := by
  have hend := Store.field_end_le width hi
  have hlength := h.fields.length
  have hsize := h.fields.tidy.size
  have hpos := h.fields.pos
  have hindex : i * width / 64 = i / 2 ^ k := by
    rw [← hk, Nat.mul_div_mul_right _ _ hpos]
  have hshift : i * width % 64 = i % 2 ^ k * width := by
    rw [← hk, Nat.mul_mod_mul_right]
  have hinside : ¬64 < i % 2 ^ k * width + width := by
    have hlt : i % 2 ^ k < 2 ^ k := Nat.mod_lt _ (Nat.two_pow_pos k)
    have hmul := Store.field_end_le width hlt
    omega
  rw [← h.fields.field i hi, Store.field, hindex, hshift, if_neg hinside, UInt64.or_zero,
    readAligned, h.width_eq, Store.word_eq_ok (by omega), ok_bind]
  rfl

theorem slot_eq_ok (h : slots.Shows count width f) (hi : i < count) :
    slots.slot i = .ok (f i) := by
  have hwidth := h.width_eq
  unfold slot
  split
  case h_1 h8 => exact readAligned_eq_ok h (by omega) hi
  case h_2 h16 => exact readAligned_eq_ok h (by omega) hi
  case h_3 h32 => exact readAligned_eq_ok h (by omega) hi
  case h_4 => exact readField_eq_ok h hi

theorem assign_eq_ok {value : UInt64} (h : slots.Shows count width f) (hi : i < count)
    (hzero : f i = 0) (hfits : Fits width value) :
    ∃ slots', slots.assign i value = .ok slots' ∧
      slots'.Shows count width (Function.update f i value) := by
  obtain ⟨store, hstore, hfields⟩ := h.fields.write_eq_ok hi hzero hfits
  refine ⟨{ slots with store := store }, ?_, h.width_eq, hfields⟩
  rw [assign, h.width_eq, h.fields.mul_eq_ok hi, ok_bind, hstore]
  rfl

/-- Packed slots are determined by the values that they show. -/
theorem Shows.unique {slots' : PackedArray} (h : slots.Shows count width f)
    (h' : slots'.Shows count width f) : slots = slots' := by
  obtain ⟨store, given⟩ := slots
  obtain ⟨store', given'⟩ := slots'
  have hstore : store = store' := h.fields.unique h'.fields
  have hgiven : given = given' := h.width_eq.trans h'.width_eq.symm
  rw [hstore, hgiven]

instance : LawfulSlots PackedArray where
  Admits width := 0 < width ∧ width ≤ 64
  Shows := Shows
  zeros_shows hwidth h := zeros_shows hwidth.1 hwidth.2 h
  slot_eq_ok := slot_eq_ok
  assign_eq_ok := assign_eq_ok

end PackedArray

end ApproxSet.XorSet
