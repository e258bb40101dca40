import ApproxSet.Bits.Store
import ApproxSet.Proofs.Bits.Word
import ApproxSet.Proofs.Success

/-!
# A store as an array of bits

`Store.bit` reads a store as an unbounded row of bits, and each operation is described by the bits
of the store that it leaves. A store is tidy if it has just the words that its length needs and no
bit beyond its length; all operations keep stores tidy, and tidy stores of one length with the same
bits are equal.

Fields may start at any bit and lie across two words. Whatever a field takes up, its operations
touch the word of its first bit and, if it reaches beyond that, the next one.
-/

namespace ApproxSet.Bits.Store

open Outcome

/-- The bit with the given index. It is off beyond the last word. -/
def bit (s : Store) (i : Nat) : Bool :=
  (s.words.getD (i / 64) 0).toNat.testBit (i % 64)

/-- The store has the words that its length needs, and no bit beyond its length. -/
structure Tidy (s : Store) : Prop where
  size : s.words.size = (s.length + 63) / 64
  clear : ∀ i, s.length ≤ i → s.bit i = false

/-- The store `t` is `s` but for a field of `width` bits, which holds the low bits of a value. -/
structure Overwrites (s t : Store) (offset width : Nat) (value : UInt64) : Prop where
  length : t.length = s.length
  size : t.words.size = s.words.size
  bit : ∀ i, t.bit i =
    if offset ≤ i ∧ i < offset + width then value.toNat.testBit (i - offset) else s.bit i

variable {s t : Store} {offset width index i : Nat} {value : UInt64}

theorem Overwrites.tidy (h : Overwrites s t offset width value) (hs : s.Tidy)
    (hfit : offset + width ≤ s.length) : t.Tidy := by
  refine ⟨by rw [h.size, h.length, hs.size], fun i hi => ?_⟩
  rw [h.length] at hi
  rw [h.bit, if_neg (by omega), hs.clear i hi]

/-- A tidy store is determined by its length and its bits. -/
theorem Tidy.ext (hs : s.Tidy) (ht : t.Tidy) (hlength : s.length = t.length)
    (hbit : ∀ i, s.bit i = t.bit i) : s = t := by
  have hwords : s.words = t.words := by
    apply Array.ext
    · rw [hs.size, ht.size, hlength]
    · intro j hj hj'
      apply word_ext
      intro k hk
      have hb := hbit (64 * j + k)
      rw [bit, bit, show (64 * j + k) / 64 = j by omega, show (64 * j + k) % 64 = k by omega] at hb
      simpa [Array.getD, hj, hj'] using hb
  cases s
  cases t
  cases hlength
  cases hwords
  rfl

/-! ### Single words -/

theorem word_eq_ok (h : index < s.words.size) : s.word index = .ok (s.words.getD index 0) := by
  simp [word, Array.getD, h]

theorem changeWord_eq_ok_iff {change : UInt64 → UInt64} :
    s.changeWord index change = .ok t ↔ index < s.words.size ∧
      t = { s with words := s.words.setIfInBounds index (change (s.words.getD index 0)) } := by
  by_cases h : index < s.words.size
  · simp [changeWord, Array.getD, Array.setIfInBounds, h, eq_comm]
  · simp [changeWord, h, violate]

/-- Changing a word changes the bits of that word and no others. -/
theorem bit_changeWord {change : UInt64 → UInt64} (h : s.changeWord index change = .ok t) :
    t.length = s.length ∧ t.words.size = s.words.size ∧
      ∀ i, t.bit i = if i / 64 = index then
        (change (s.words.getD index 0)).toNat.testBit (i % 64) else s.bit i := by
  obtain ⟨hindex, rfl⟩ := changeWord_eq_ok_iff.1 h
  refine ⟨rfl, by simp, fun i => ?_⟩
  unfold bit
  by_cases hi : i / 64 = index
  · simp [hi, hindex, Array.getD_eq_getD_getElem?]
  · simp [hi, Array.getD_eq_getD_getElem?, Ne.symm hi]

/-! ### Fields -/

theorem requireField_eq_ok_iff :
    s.requireField offset width = .ok () ↔
      0 < width ∧ width ≤ 64 ∧ offset + width ≤ s.length ∧ offset + width < 2 ^ 64 := by
  rw [requireField, require_bind_eq_ok_iff, bind_eq_ok_iff]
  simp only [Checked.add_eq_ok_iff, require_eq_ok_iff]
  constructor
  · rintro ⟨⟨h0, h64⟩, stop, ⟨hlt, rfl⟩, hle⟩
    exact ⟨h0, h64, hle, hlt⟩
  · rintro ⟨h0, h64, hle, hlt⟩
    exact ⟨⟨h0, h64⟩, _, ⟨hlt, rfl⟩, hle⟩

/-- The value of a field, without the checks of `read`. -/
def field (s : Store) (offset width : Nat) : UInt64 :=
  (shiftDown (s.words.getD (offset / 64) 0) (offset % 64) |||
    if 64 < offset % 64 + width then
      shiftUp (s.words.getD (offset / 64 + 1) 0) (64 - offset % 64) else 0) &&& mask width

/-- The bits of a field are those of the store from its offset on. -/
theorem testBit_field (hwidth : width ≤ 64) (i : Nat) :
    (s.field offset width).toNat.testBit i = (decide (i < width) && s.bit (offset + i)) := by
  rw [field, testBit_and, testBit_or, testBit_mask hwidth, testBit_shiftDown _ (by omega)]
  by_cases hi : i < width
  · by_cases hin : offset % 64 + i < 64
    · -- the bit lies in the first word, and the second one only has bits above it
      have hsecond : (if 64 < offset % 64 + width then
          shiftUp (s.words.getD (offset / 64 + 1) 0) (64 - offset % 64)
          else 0).toNat.testBit i = false := by
        split
        · rw [testBit_shiftUp _ (by omega), decide_eq_false (p := 64 - offset % 64 ≤ i) (by omega)]
          simp
        · exact testBit_zero_word i
      rw [hsecond, bit, show (offset + i) / 64 = offset / 64 by omega,
        show (offset + i) % 64 = offset % 64 + i by omega]
      simp [hi]
    · rw [testBit_toNat_ge _ (by omega), if_pos (by omega), testBit_shiftUp _ (by omega), bit,
        show (offset + i) / 64 = offset / 64 + 1 by omega,
        show (offset + i) % 64 = i - (64 - offset % 64) by omega]
      simp [hi, show i < 64 by omega, show 64 ≤ i + offset % 64 by omega]
  · simp [hi]

theorem fits_field (hwidth : width ≤ 64) : Fits width (s.field offset width) := by
  intro i hi
  rw [testBit_field hwidth, decide_eq_false (by omega), Bool.false_and]

/-- A field reads as zero just if all its bits are off. -/
theorem field_eq_zero_iff (hwidth : width ≤ 64) :
    s.field offset width = 0 ↔ ∀ i < width, s.bit (offset + i) = false := by
  constructor
  · intro h i hi
    have hb : (s.field offset width).toNat.testBit i = _ := testBit_field hwidth i
    rw [h, testBit_zero_word] at hb
    simpa [hi] using hb.symm
  · intro h
    apply word_ext
    intro i _
    rw [testBit_field hwidth, testBit_zero_word]
    by_cases hi : i < width
    · simp [h i hi]
    · simp [hi]

theorem bitsOfNext_eq_ok (hsize : 64 < offset % 64 + width → offset / 64 + 1 < s.words.size) :
    s.bitsOfNext (offset / 64) (offset % 64) width =
      .ok (if 64 < offset % 64 + width then
        shiftUp (s.words.getD (offset / 64 + 1) 0) (64 - offset % 64) else 0) := by
  unfold bitsOfNext
  split
  · rw [word_eq_ok (hsize ‹_›)]
    rfl
  · rfl

/-- A read succeeds just on the fields that lie within the store, and answers their values. -/
theorem read_eq_ok_iff (hs : s.Tidy) :
    s.read offset width = .ok value ↔
      s.requireField offset width = .ok () ∧ s.field offset width = value := by
  simp only [read, bind_eq_ok_iff]
  constructor
  · rintro ⟨⟨⟩, hfield, first, hfirst, second, hsecond, h⟩
    obtain ⟨h0, h64, hle, -⟩ := requireField_eq_ok_iff.1 hfield
    have hsize := hs.size
    rw [word_eq_ok (by omega)] at hfirst
    rw [bitsOfNext_eq_ok (by omega)] at hsecond
    cases hfirst
    cases hsecond
    exact ⟨hfield, Except.ok.inj h⟩
  · rintro ⟨hfield, rfl⟩
    obtain ⟨h0, h64, hle, -⟩ := requireField_eq_ok_iff.1 hfield
    have hsize := hs.size
    exact ⟨(), hfield, _, word_eq_ok (by omega), _, bitsOfNext_eq_ok (by omega), rfl⟩

theorem read_eq_ok (hs : s.Tidy) (hfield : s.requireField offset width = .ok ()) :
    s.read offset width = .ok (s.field offset width) :=
  (read_eq_ok_iff hs).2 ⟨hfield, rfl⟩

/-! ### Changing a field

Writing and clearing both combine the words under a field with a value that is moved to the place of
the field. On each bit they act as `mix`, which leaves the bits beside the value alone. -/

/-- Combines the words under a field with a value. -/
def combine (op : UInt64 → UInt64 → UInt64) (s : Store) (offset width : Nat) (value : UInt64) :
    Outcome Store := do
  let s ← s.changeWord (offset / 64) (op · (shiftUp value (offset % 64)))
  s.changeNext (offset / 64) (offset % 64) width (op · (shiftDown value (64 - offset % 64)))

theorem combine_eq_ok (op : UInt64 → UInt64 → UInt64) (value : UInt64) (hs : s.Tidy)
    (hfield : s.requireField offset width = .ok ()) :
    ∃ t, combine op s offset width value = .ok t := by
  obtain ⟨h0, h64, hle, -⟩ := requireField_eq_ok_iff.1 hfield
  have hsize := hs.size
  unfold combine
  rw [changeWord_eq_ok_iff.2 ⟨by omega, rfl⟩, ok_bind, changeNext]
  split
  · exact ⟨_, changeWord_eq_ok_iff.2 ⟨by simp only [Array.size_setIfInBounds]; omega, rfl⟩⟩
  · exact ⟨_, rfl⟩

theorem bit_combine {op : UInt64 → UInt64 → UInt64} (mix : Bool → Bool → Bool)
    (hop : ∀ a b : UInt64, ∀ i < 64,
      (op a b).toNat.testBit i = mix (a.toNat.testBit i) (b.toNat.testBit i))
    (hmix : ∀ b, mix b false = b) (hwidth : width ≤ 64) (hfits : Fits width value)
    (h : combine op s offset width value = .ok t) :
    t.length = s.length ∧ t.words.size = s.words.size ∧
      ∀ i, t.bit i = mix (s.bit i) (decide (offset ≤ i) && value.toNat.testBit (i - offset)) := by
  obtain ⟨m, hm, ht⟩ := bind_eq_ok_iff.1 h
  obtain ⟨hmlength, hmsize, hmbit⟩ := bit_changeWord hm
  -- the bits of the store after the first of the two words has changed
  have hfirst : ∀ i, i / 64 ≠ offset / 64 + 1 ∨ ¬64 < offset % 64 + width → m.bit i =
      mix (s.bit i) (decide (offset ≤ i) && value.toNat.testBit (i - offset)) := by
    intro i hi
    rw [hmbit]
    by_cases hw : i / 64 = offset / 64
    · rw [if_pos hw, hop _ _ _ (by omega), testBit_shiftUp _ (by omega), ← hw, ← bit,
        decide_eq_true (p := i % 64 < 64) (by omega), Bool.true_and]
      by_cases ho : offset ≤ i
      · rw [show i % 64 - offset % 64 = i - offset by omega]
        simp [ho, show offset % 64 ≤ i % 64 by omega]
      · simp [ho, show ¬offset % 64 ≤ i % 64 by omega]
    · rw [if_neg hw]
      by_cases ho : offset ≤ i
      · rw [hfits (i - offset) (by omega), Bool.and_false, hmix]
      · simp [ho, hmix]
  unfold changeNext at ht
  split at ht
  case isTrue hnext =>
    obtain ⟨htlength, htsize, htbit⟩ := bit_changeWord ht
    refine ⟨htlength.trans hmlength, htsize.trans hmsize, fun i => ?_⟩
    rw [htbit]
    by_cases hw : i / 64 = offset / 64 + 1
    · have hword : m.words.getD (offset / 64 + 1) 0 = s.words.getD (offset / 64 + 1) 0 := by
        rw [(changeWord_eq_ok_iff.1 hm).2]
        simp [Array.getD_eq_getD_getElem?]
      rw [if_pos hw, hop _ _ _ (by omega), testBit_shiftDown _ (by omega), hword, ← hw, ← bit,
        show 64 - offset % 64 + i % 64 = i - offset by omega]
      simp [show offset ≤ i by omega]
    · rw [if_neg hw, hfirst i (.inl hw)]
  case isFalse hnext =>
    cases ht
    exact ⟨hmlength, hmsize, fun i => hfirst i (.inr hnext)⟩

/-- A write succeeds just on an empty field within the store that is wide enough for the value. It
changes the field to the value and nothing else, and it always reads back as the value. -/
theorem write_eq_ok_iff (hs : s.Tidy) :
    s.write offset value width = .ok t ↔
      s.requireField offset width = .ok () ∧ Fits width value ∧ s.field offset width = 0 ∧
        combine (· ||| ·) s offset width value = .ok t := by
  rw [write, bind_eq_ok_iff]
  constructor
  · rintro ⟨⟨⟩, hfield, h⟩
    obtain ⟨hfits, h⟩ := require_bind_eq_ok_iff.1 h
    obtain ⟨before, hbefore, h⟩ := bind_eq_ok_iff.1 h
    obtain ⟨hzero, h⟩ := require_bind_eq_ok_iff.1 h
    obtain ⟨m, hm, h⟩ := bind_eq_ok_iff.1 h
    obtain ⟨last, hlast, h⟩ := bind_eq_ok_iff.1 h
    obtain ⟨after, -, h⟩ := bind_eq_ok_iff.1 h
    obtain ⟨-, h⟩ := require_bind_eq_ok_iff.1 h
    cases h
    have hwidth := (requireField_eq_ok_iff.1 hfield).2.1
    exact ⟨hfield, (fits_iff_and_mask hwidth).2 hfits,
      ((read_eq_ok_iff hs).1 hbefore).2.trans hzero, bind_eq_ok_iff.2 ⟨m, hm, hlast⟩⟩
  · rintro ⟨hfield, hfits, hzero, h⟩
    obtain ⟨h0, h64, hle, hlt⟩ := requireField_eq_ok_iff.1 hfield
    obtain ⟨hlength, hsize, hbit⟩ := bit_combine (· || ·) (fun a b i _ => testBit_or a b i)
      Bool.or_false h64 hfits h
    have ht : t.Tidy := by
      refine ⟨by rw [hsize, hlength, hs.size], fun i hi => ?_⟩
      rw [hlength] at hi
      rw [hbit, hs.clear i hi, hfits (i - offset) (by omega)]
      simp
    have hback : t.field offset width = value := by
      apply word_ext
      intro i _
      rw [testBit_field h64, hbit]
      by_cases hi : i < width
      · simp [hi, (field_eq_zero_iff h64).1 hzero i hi]
      · simp [hi, hfits i (by omega)]
    have htfield : t.requireField offset width = .ok () :=
      requireField_eq_ok_iff.2 ⟨h0, h64, by rw [hlength]; exact hle, hlt⟩
    obtain ⟨m, hm, hlast⟩ := bind_eq_ok_iff.1 h
    refine ⟨(), hfield, require_bind_eq_ok_iff.2 ⟨(fits_iff_and_mask h64).1 hfits, ?_⟩⟩
    refine bind_eq_ok_iff.2 ⟨_, read_eq_ok hs hfield, require_bind_eq_ok_iff.2 ⟨hzero, ?_⟩⟩
    refine bind_eq_ok_iff.2 ⟨m, hm, bind_eq_ok_iff.2 ⟨t, hlast, ?_⟩⟩
    exact bind_eq_ok_iff.2 ⟨_, read_eq_ok ht htfield, require_bind_eq_ok_iff.2 ⟨hback, rfl⟩⟩

/-- What a write leaves behind. -/
theorem write_overwrites (hs : s.Tidy) (h : s.write offset value width = .ok t) :
    Overwrites s t offset width value ∧ t.Tidy := by
  obtain ⟨hfield, hfits, hzero, h⟩ := (write_eq_ok_iff hs).1 h
  obtain ⟨h0, h64, hle, -⟩ := requireField_eq_ok_iff.1 hfield
  obtain ⟨hlength, hsize, hbit⟩ := bit_combine (· || ·) (fun a b i _ => testBit_or a b i)
    Bool.or_false h64 hfits h
  have hover : Overwrites s t offset width value := by
    refine ⟨hlength, hsize, fun i => ?_⟩
    rw [hbit]
    by_cases hi : offset ≤ i ∧ i < offset + width
    · have hoff := (field_eq_zero_iff h64).1 hzero (i - offset) (by omega)
      rw [show offset + (i - offset) = i by omega] at hoff
      simp [hi, hoff]
    · rw [if_neg hi]
      by_cases ho : offset ≤ i
      · rw [hfits (i - offset) (by omega), Bool.and_false, Bool.or_false]
      · simp [ho]
  exact ⟨hover, hover.tidy hs hle⟩

/-- A value that was written reads back. -/
theorem read_of_write (h : s.write offset value width = .ok t) :
    t.read offset width = .ok value := by
  obtain ⟨⟨⟩, -, h⟩ := bind_eq_ok_iff.1 h
  obtain ⟨-, h⟩ := require_bind_eq_ok_iff.1 h
  obtain ⟨before, -, h⟩ := bind_eq_ok_iff.1 h
  obtain ⟨-, h⟩ := require_bind_eq_ok_iff.1 h
  obtain ⟨first, -, h⟩ := bind_eq_ok_iff.1 h
  obtain ⟨last, -, h⟩ := bind_eq_ok_iff.1 h
  obtain ⟨after, hafter, h⟩ := bind_eq_ok_iff.1 h
  obtain ⟨hvalue, h⟩ := require_bind_eq_ok_iff.1 h
  cases h
  exact hvalue ▸ hafter

/-- A write into an empty field succeeds. -/
theorem write_eq_ok (hs : s.Tidy) (hfield : s.requireField offset width = .ok ())
    (hfits : Fits width value) (hempty : ∀ i < width, s.bit (offset + i) = false) :
    ∃ t, s.write offset value width = .ok t ∧ Overwrites s t offset width value ∧ t.Tidy := by
  have hwidth := (requireField_eq_ok_iff.1 hfield).2.1
  obtain ⟨t, ht⟩ := combine_eq_ok (· ||| ·) value hs hfield
  have hwrite : s.write offset value width = .ok t :=
    (write_eq_ok_iff hs).2 ⟨hfield, hfits, (field_eq_zero_iff hwidth).2 hempty, ht⟩
  exact ⟨t, hwrite, write_overwrites hs hwrite⟩

/-- Clearing a field turns its bits off. -/
theorem clear_eq_ok (hs : s.Tidy) (hfield : s.requireField offset width = .ok ()) :
    ∃ t, s.clear offset width = .ok t ∧ Overwrites s t offset width 0 ∧ t.Tidy := by
  obtain ⟨h0, h64, hle, -⟩ := requireField_eq_ok_iff.1 hfield
  obtain ⟨t, ht⟩ := combine_eq_ok (fun word m => word &&& ~~~m) (mask width) hs hfield
  have hclear : s.clear offset width = .ok t := bind_eq_ok_iff.2 ⟨(), hfield, ht⟩
  have hop : ∀ a b : UInt64, ∀ i < 64,
      (a &&& ~~~b).toNat.testBit i = (a.toNat.testBit i && !b.toNat.testBit i) := by
    intro a b i hi
    rw [testBit_and, testBit_not, decide_eq_true hi, Bool.true_and]
  have hmask : Fits width (mask width) := by
    intro i hi
    rw [testBit_mask h64, decide_eq_false (by omega)]
  obtain ⟨hlength, hsize, hbit⟩ :=
    bit_combine (fun a b => a && !b) hop (by simp) h64 hmask ht
  have hover : Overwrites s t offset width 0 := by
    refine ⟨hlength, hsize, fun i => ?_⟩
    rw [hbit, testBit_mask h64, testBit_zero_word]
    by_cases hi : offset ≤ i ∧ i < offset + width
    · simp [hi, show i - offset < width by omega]
    · by_cases ho : offset ≤ i
      · simp [hi, show ¬i - offset < width by omega]
      · simp [ho]
  exact ⟨t, hclear, hover, hover.tidy hs hle⟩

/-- Replacing sets a field to the low bits of a value, whatever it held. -/
theorem replace_eq_ok (value : UInt64) (hs : s.Tidy)
    (hfield : s.requireField offset width = .ok ()) :
    ∃ t, s.replace offset value width = .ok t ∧
      Overwrites s t offset width (value &&& mask width) ∧ t.Tidy := by
  obtain ⟨h0, h64, hle, hlt⟩ := requireField_eq_ok_iff.1 hfield
  obtain ⟨m, hm, hmover, hmtidy⟩ := clear_eq_ok hs hfield
  have hmfield : m.requireField offset width = .ok () :=
    requireField_eq_ok_iff.2 ⟨h0, h64, by rw [hmover.length]; exact hle, hlt⟩
  have hmempty : ∀ i < width, m.bit (offset + i) = false := by
    intro i hi
    rw [hmover.bit, if_pos (by omega), testBit_zero_word]
  obtain ⟨t, ht, htover, httidy⟩ := write_eq_ok hmtidy hmfield (fits_and_mask h64 value) hmempty
  refine ⟨t, bind_eq_ok_iff.2 ⟨m, hm, ht⟩, ?_, httidy⟩
  refine ⟨htover.length.trans hmover.length, htover.size.trans hmover.size, fun i => ?_⟩
  rw [htover.bit]
  split
  · rfl
  · rw [hmover.bit, if_neg ‹_›]

/-- A bit that is turned on is a field of one bit. -/
theorem setBit_eq_ok (hs : s.Tidy) (h : index < s.length) :
    ∃ t, s.setBit index = .ok t ∧ Overwrites s t index 1 1 ∧ t.Tidy := by
  have hsize := hs.size
  obtain ⟨t, ht⟩ : ∃ t, s.changeWord (index / 64) (· ||| shiftUp 1 (index % 64)) = .ok t :=
    ⟨_, changeWord_eq_ok_iff.2 ⟨by omega, rfl⟩⟩
  obtain ⟨hlength, hsize', hbit⟩ := bit_changeWord ht
  have hover : Overwrites s t index 1 1 := by
    refine ⟨hlength, hsize', fun i => ?_⟩
    rw [hbit]
    by_cases hword : i / 64 = index / 64
    · rw [if_pos hword, testBit_or, testBit_shiftUp _ (by omega), testBit_one_word,
        testBit_one_word, ← hword, ← bit]
      by_cases hi : i = index
      · subst hi
        simp
        omega
      · rw [if_neg (by omega)]
        simp
        omega
    · rw [if_neg hword, if_neg (by omega)]
  exact ⟨t, by rw [setBit, require_bind _ h, ht], hover, hover.tidy hs h⟩

/-! ### New stores and longer ones -/

theorem wordsFor_eq_ok_iff {length count : Nat} :
    wordsFor length = .ok count ↔ length + 63 < 2 ^ 64 ∧ (length + 63) / 64 = count := by
  simp only [wordsFor, bind_eq_ok_iff, Checked.add_eq_ok_iff]
  constructor
  · rintro ⟨padded, ⟨hlt, rfl⟩, h⟩
    exact ⟨hlt, Except.ok.inj h⟩
  · rintro ⟨hlt, rfl⟩
    exact ⟨_, ⟨hlt, rfl⟩, rfl⟩

theorem bit_of_words_zero {length count : Nat} (i : Nat) :
    (⟨Array.replicate count 0, length⟩ : Store).bit i = false := by
  by_cases h : i / 64 < count
  · simp [bit, Array.getD_eq_getD_getElem?, h]
  · simp [bit, Array.getD_eq_getD_getElem?, h]

/-- A new store is all zeros. -/
theorem zeros_eq_ok_iff {length : Nat} :
    zeros length = .ok s ↔
      length + 63 < 2 ^ 64 ∧ s = ⟨Array.replicate ((length + 63) / 64) 0, length⟩ := by
  simp only [zeros, bind_eq_ok_iff, wordsFor_eq_ok_iff]
  constructor
  · rintro ⟨count, ⟨hlt, rfl⟩, h⟩
    exact ⟨hlt, (Except.ok.inj h).symm⟩
  · rintro ⟨hlt, rfl⟩
    exact ⟨_, ⟨hlt, rfl⟩, rfl⟩

theorem zeros_eq_overflow {length : Nat} (h : 2 ^ 64 ≤ length + 63) :
    zeros length = violate .overflow := by
  rw [zeros, wordsFor, Checked.add_eq_overflow h]
  rfl

theorem zeros_spec {length : Nat} (h : zeros length = .ok s) :
    s.Tidy ∧ s.length = length ∧ ∀ i, s.bit i = false := by
  obtain ⟨-, rfl⟩ := zeros_eq_ok_iff.1 h
  exact ⟨⟨by simp, fun i _ => bit_of_words_zero i⟩, rfl, bit_of_words_zero⟩

/-- Growing keeps the bits of a store and adds zeros. -/
theorem grow_eq_ok {length : Nat} (hs : s.Tidy) (hlt : length + 63 < 2 ^ 64) :
    ∃ t, s.grow length = .ok t ∧ t.Tidy ∧ t.length = max s.length length ∧
      ∀ i, t.bit i = s.bit i := by
  unfold grow
  split
  · exact ⟨s, rfl, hs, by omega, fun _ => rfl⟩
  · rw [wordsFor_eq_ok_iff.2 ⟨hlt, rfl⟩, ok_bind]
    have hsize := hs.size
    have hbit : ∀ i, (⟨s.words ++ Array.replicate ((length + 63) / 64 - s.words.size) 0, length⟩ :
        Store).bit i = s.bit i := by
      intro i
      by_cases hi : i / 64 < s.words.size
      · simp [bit, Array.getD_eq_getD_getElem?, Array.getElem?_append, hi]
      · by_cases hi' : i / 64 - s.words.size < (length + 63) / 64 - s.words.size
        · simp [bit, Array.getD_eq_getD_getElem?, Array.getElem?_append, hi, hi']
        · simp [bit, Array.getD_eq_getD_getElem?, Array.getElem?_append, hi, hi']
    refine ⟨_, rfl, ⟨?_, fun i hi => ?_⟩, ?_, hbit⟩
    · simp only [Array.size_append, Array.size_replicate]
      omega
    · rw [hbit, hs.clear i (by simp only at hi; omega)]
    · simp only
      omega

/-- A store only grows if the words that it then needs can be counted. -/
theorem grow_lt {length : Nat} (h : s.grow length = .ok t) :
    length ≤ s.length ∨ length + 63 < 2 ^ 64 := by
  unfold grow at h
  split at h
  case isTrue hle => exact .inl hle
  case isFalse hlt =>
    obtain ⟨count, hcount, -⟩ := bind_eq_ok_iff.1 h
    exact .inr (wordsFor_eq_ok_iff.1 hcount).1

/-- A store of given words has all their bits. -/
theorem ofWords_spec {words : List UInt64} (h : ofWords words = .ok s) :
    s.Tidy ∧ s.length = 64 * words.length ∧
      ∀ i, s.bit i = (words.getD (i / 64) 0).toNat.testBit (i % 64) := by
  obtain ⟨length, hlength, h⟩ := bind_eq_ok_iff.1 h
  obtain ⟨-, rfl⟩ := Checked.mul_eq_ok_iff.1 hlength
  cases h
  have hbit : ∀ i, (⟨words.toArray, words.length * 64⟩ : Store).bit i =
      (words.getD (i / 64) 0).toNat.testBit (i % 64) := by
    intro i
    simp [bit, Array.getD_eq_getD_getElem?, List.getD_eq_getElem?_getD]
  refine ⟨⟨?_, fun i hi => ?_⟩, Nat.mul_comm _ _, hbit⟩
  · simp only [List.size_toArray]
    omega
  · simp only at hi
    rw [hbit, List.getD_eq_getElem?_getD, List.getElem?_eq_none (by omega)]
    exact testBit_zero_word _

theorem ofWords_lt {words : List UInt64} (h : ofWords words = .ok s) :
    words.length * 64 < 2 ^ 64 := by
  obtain ⟨length, hlength, -⟩ := bind_eq_ok_iff.1 h
  exact (Checked.mul_eq_ok_iff.1 hlength).1

/-! ### The number of ones -/

theorem bit_in_word {j k : Nat} (hj : j < s.words.size) (hk : k < 64) :
    s.bit (64 * j + k) = s.words[j].toNat.testBit k := by
  rw [bit, show (64 * j + k) / 64 = j by omega, show (64 * j + k) % 64 = k by omega, Array.getD,
    dif_pos hj]
  rfl

/-- The ones of the first words are those of the bits in them. -/
theorem countP_bit_words {count : Nat} (h : count ≤ s.words.size) :
    (List.range (64 * count)).countP s.bit = ((s.words.toList.take count).map onesIn).sum := by
  induction count with
  | zero => rfl
  | succ count ih =>
    rw [Nat.mul_succ, List.range_add, List.countP_append, ih (by omega), List.countP_map,
      List.take_add_one, List.getElem?_eq_getElem (by simpa using Nat.lt_of_succ_le h),
      Option.toList_some,
      List.map_append, List.sum_append, List.map_singleton, List.sum_singleton, onesIn]
    congr 1
    refine List.countP_congr fun k hk => ?_
    rw [Function.comp_apply, bit_in_word h (List.mem_range.1 hk), Array.getElem_toList]

/-- The ones of a tidy store are its bits that are on. -/
theorem ones_eq_countP (hs : s.Tidy) : s.ones = (List.range s.length).countP s.bit := by
  have hwords : s.ones = (List.range (64 * s.words.size)).countP s.bit := by
    rw [countP_bit_words (Nat.le_refl _), ← Array.length_toList, List.take_length, ones,
      ← Array.foldl_toList, List.sum_eq_foldl, List.foldl_map]
  have hsize := hs.size
  obtain ⟨rest, hrest⟩ : ∃ rest, 64 * s.words.size = s.length + rest :=
    ⟨64 * s.words.size - s.length, by omega⟩
  -- the bits of the last word behind the end are off
  have hbehind : ((List.range rest).map (s.length + ·)).countP s.bit = 0 := by
    rw [List.countP_eq_zero]
    intro i hi
    obtain ⟨k, -, rfl⟩ := List.mem_map.1 hi
    rw [hs.clear _ (Nat.le_add_right _ _)]
    exact Bool.false_ne_true
  rw [hwords, hrest, List.range_add, List.countP_append, hbehind, Nat.add_zero]

theorem ones_eq_zero_iff (hs : s.Tidy) : s.ones = 0 ↔ ∀ i, s.bit i = false := by
  rw [ones_eq_countP hs, List.countP_eq_zero]
  simp only [List.mem_range, Bool.not_eq_true]
  constructor
  · intro h i
    rcases Nat.lt_or_ge i s.length with hi | hi
    · exact h i hi
    · exact hs.clear i hi
  · exact fun h i _ => h i

end ApproxSet.Bits.Store
