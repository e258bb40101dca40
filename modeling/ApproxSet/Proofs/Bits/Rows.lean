import ApproxSet.Proofs.Bits.Store

/-!
# A store as a list of bits

The bits of a store up to its length are a plain list, its row. Every operation that changes a store
has a counterpart on rows, and so has every reason why an operation fails: the checks are made in
the order of `Update.breach`, and an operation that passes them does to the row what
`Update.image` does.
-/

namespace ApproxSet.Bits

open Outcome

/-! ### Rows -/

/-- The row with the bits from `offset` on replaced by those of a field. -/
def overwrite (row : List Bool) (offset : Nat) (field : List Bool) : List Bool :=
  row.take offset ++ field ++ row.drop (offset + field.length)

/-- The `width` bits of a row from `offset` on. -/
def slice (row : List Bool) (offset width : Nat) : List Bool :=
  (row.drop offset).take width

theorem getElem?_overwrite {row field : List Bool} {offset : Nat}
    (h : offset + field.length ≤ row.length) (i : Nat) :
    (overwrite row offset field)[i]? =
      if offset ≤ i ∧ i < offset + field.length then field[i - offset]? else row[i]? := by
  have htake : (row.take offset).length = offset := by
    rw [List.length_take]
    omega
  rw [overwrite, List.append_assoc, List.getElem?_append, htake]
  by_cases hlow : i < offset
  · rw [if_pos hlow, if_neg (by omega), List.getElem?_take_of_lt hlow]
  · rw [if_neg hlow, List.getElem?_append]
    by_cases hin : i - offset < field.length
    · rw [if_pos hin, if_pos (by omega)]
    · rw [if_neg hin, if_neg (by omega), List.getElem?_drop]
      congr 1
      omega

theorem getElem?_slice {row : List Bool} {offset width i : Nat} (h : i < width) :
    (slice row offset width)[i]? = row[offset + i]? := by
  rw [slice, List.getElem?_take_of_lt h, List.getElem?_drop]

namespace Store

/-- The bits of a store up to its length. -/
def row (s : Store) : List Bool :=
  (List.range s.length).map s.bit

variable {s t : Store} {offset width i : Nat} {value : UInt64}

@[simp]
theorem length_row (s : Store) : s.row.length = s.length := by
  simp [row]

theorem getElem?_row (h : i < s.length) : s.row[i]? = some (s.bit i) := by
  simp [row, h]

/-- The value of a field is made of the bits of the row. -/
theorem slice_row (hwidth : width ≤ 64) (hfit : offset + width ≤ s.length) :
    slice s.row offset width = lowBits width (s.field offset width) := by
  apply List.ext_getElem?
  intro i
  by_cases hi : i < width
  · rw [getElem?_slice hi, getElem?_row (by omega), getElem?_lowBits _ hi, testBit_field hwidth,
      decide_eq_true hi, Bool.true_and]
  · rw [List.getElem?_eq_none, List.getElem?_eq_none]
    · rw [length_lowBits]
      omega
    · rw [slice, List.length_take]
      omega

theorem slice_row_eq_zeros_iff (hwidth : width ≤ 64) (hfit : offset + width ≤ s.length) :
    slice s.row offset width = List.replicate width false ↔ s.field offset width = 0 := by
  rw [slice_row hwidth hfit, ← lowBits_zero,
    lowBits_inj (fits_field hwidth) (fits_zero width)]

/-- A field that was changed is changed in the row, and nothing else is. -/
theorem Overwrites.row_eq (h : Overwrites s t offset width value)
    (hfit : offset + width ≤ s.length) :
    t.row = overwrite s.row offset (lowBits width value) := by
  have hfit' : offset + (lowBits width value).length ≤ s.row.length := by simpa using hfit
  apply List.ext_getElem?
  intro i
  rw [getElem?_overwrite hfit', length_lowBits]
  by_cases hi : i < s.length
  · rw [getElem?_row (by rw [h.length]; exact hi), h.bit]
    by_cases hin : offset ≤ i ∧ i < offset + width
    · rw [if_pos hin, if_pos hin, getElem?_lowBits _ (by omega)]
    · rw [if_neg hin, if_neg hin, getElem?_row hi]
  · rw [if_neg (by omega), List.getElem?_eq_none, List.getElem?_eq_none]
    · simpa using hi
    · rw [length_row, h.length]
      omega

/-- A read answers the value that the bits of the row make, the lowest first. -/
theorem read_iff (hs : s.Tidy) (hsmall : s.length < 2 ^ 64) :
    s.read offset width = .ok value ↔ 0 < width ∧ width ≤ 64 ∧ offset + width ≤ s.row.length ∧
      value.toNat < 2 ^ width ∧ lowBits width value = slice s.row offset width := by
  rw [read_eq_ok_iff hs, requireField_eq_ok_iff, length_row, ← fits_iff_lt]
  constructor
  · rintro ⟨⟨hpos, hwidth, hfit, -⟩, rfl⟩
    exact ⟨hpos, hwidth, hfit, fits_field hwidth, (slice_row hwidth hfit).symm⟩
  · rintro ⟨hpos, hwidth, hfit, hfits, hslice⟩
    rw [slice_row hwidth hfit, lowBits_inj hfits (fits_field hwidth)] at hslice
    exact ⟨⟨hpos, hwidth, hfit, by omega⟩, hslice.symm⟩

theorem getBit_iff (hs : s.Tidy) {bit : Bool} : s.getBit i = .ok bit ↔ s.row[i]? = some bit := by
  have hsize := hs.size
  rw [getBit, require_bind_eq_ok_iff]
  by_cases hi : i < s.length
  · rw [word_eq_ok (by omega), ok_bind, pure_eq_ok, and_shiftUp_one_bne_zero _ (by omega),
      getElem?_row hi, Except.ok.injEq, Option.some.injEq]
    exact ⟨And.right, fun h => ⟨hi, h⟩⟩
  · rw [List.getElem?_eq_none (by simpa using hi)]
    simp [hi]

theorem ones_eq_count (hs : s.Tidy) : s.ones = s.row.count true := by
  rw [ones_eq_countP hs, row, List.count_eq_countP, List.countP_map]
  refine List.countP_congr fun i _ => ?_
  simp

theorem row_of_zeros {length : Nat} (h : zeros length = .ok s) :
    s.row = List.replicate length false := by
  obtain ⟨-, rfl, hbit⟩ := zeros_spec h
  rw [row, List.map_congr_left fun i _ => hbit i, List.map_const', List.length_range]

theorem row_of_ofWords {words : List UInt64} (h : ofWords words = .ok s) :
    s.row = words.flatMap (lowBits 64) := by
  obtain ⟨-, hlength, hbit⟩ := ofWords_spec h
  rw [row, List.map_congr_left fun i _ => hbit i, hlength]
  clear h hlength hbit
  induction words with
  | nil => rfl
  | cons word words ih =>
    have hfirst : (List.range 64).map (fun i =>
        ((word :: words).getD (i / 64) 0).toNat.testBit (i % 64)) = lowBits 64 word := by
      refine List.map_congr_left fun i hi => ?_
      rw [Nat.div_eq_of_lt (List.mem_range.1 hi), Nat.mod_eq_of_lt (List.mem_range.1 hi)]
      rfl
    rw [List.flatMap_cons, ← ih, List.length_cons, Nat.mul_succ, Nat.add_comm, List.range_add,
      List.map_append, hfirst, List.map_map]
    refine congrArg _ (List.map_congr_left fun i _ => ?_)
    rw [Function.comp_apply, show (64 + i) / 64 = i / 64 + 1 by omega, Nat.add_mod_left]
    rfl

end Store

/-! ### Updates -/

/-- An operation that changes a store. -/
inductive Update where
  | write (offset : Nat) (value : UInt64) (width : Nat)
  | clear (offset width : Nat)
  | replace (offset : Nat) (value : UInt64) (width : Nat)
  | setBit (index : Nat)
  | grow (length : Nat)
deriving DecidableEq

/-- Why there is no field of `width` bits at `offset` in a row of the given length, if there is
none. -/
def fieldBreach (length offset width : Nat) : Option Breach :=
  if 0 < width ∧ width ≤ 64 then
    if offset + width < 2 ^ 64 then
      if offset + width ≤ length then none
      else some (.fieldRange offset (offset + width) length)
    else some .overflow
  else some (.fieldWidth width)

namespace Update

/-- The store after the operation. -/
def perform (s : Store) : Update → Outcome Store
  | .write offset value width => s.write offset value width
  | .clear offset width => s.clear offset width
  | .replace offset value width => s.replace offset value width
  | .setBit index => s.setBit index
  | .grow length => s.grow length

/-- The first check that fails on a row, if one does. -/
def breach (row : List Bool) : Update → Option Breach
  | .write offset value width =>
    (fieldBreach row.length offset width).or
      (if 2 ^ width ≤ value.toNat then some (.valueTooWide width)
      else if slice row offset width = List.replicate width false then none
      else some (.notZeroed offset))
  | .clear offset width => fieldBreach row.length offset width
  | .replace offset _ width => fieldBreach row.length offset width
  | .setBit index => if index < row.length then none else some .unmet
  | .grow length => if length ≤ row.length ∨ length + 63 < 2 ^ 64 then none else some .overflow

/-- The row after the operation. -/
def image (row : List Bool) : Update → List Bool
  | .write offset value width => overwrite row offset (lowBits width value)
  | .clear offset width => overwrite row offset (List.replicate width false)
  | .replace offset value width => overwrite row offset (lowBits width value)
  | .setBit index => overwrite row index [true]
  | .grow length => row ++ List.replicate (length - row.length) false

end Update

namespace Store

variable {s t : Store} {offset width index : Nat} {value : UInt64}

theorem requireField_cases (s : Store) (offset width : Nat) :
    (fieldBreach s.length offset width = none ∧ s.requireField offset width = .ok ()) ∨
      ∃ b, fieldBreach s.length offset width = some b ∧
        s.requireField offset width = violate b := by
  unfold fieldBreach requireField
  by_cases hwidth : 0 < width ∧ width ≤ 64
  · rw [if_pos hwidth, require_bind _ hwidth]
    by_cases hlt : offset + width < 2 ^ 64
    · rw [if_pos hlt, Checked.add_eq_ok hlt, ok_bind]
      by_cases hfit : offset + width ≤ s.length
      · rw [if_pos hfit]
        exact .inl ⟨rfl, require_eq_ok_iff.2 hfit⟩
      · rw [if_neg hfit, require, if_neg hfit]
        exact .inr ⟨_, rfl, rfl⟩
    · rw [if_neg hlt, Checked.add, Checked.fit, if_neg hlt]
      exact .inr ⟨_, rfl, rfl⟩
  · rw [if_neg hwidth, require, if_neg hwidth]
    exact .inr ⟨_, rfl, rfl⟩

/-- What an operation does to a store: it fails at the first check that it does not pass, and if
there is none it does to the row what it is meant to. -/
def Obeys (s : Store) (u : Update) : Prop :=
  (u.breach s.row = none ∧ ∃ t, u.perform s = .ok t ∧ t.Tidy ∧ t.length < 2 ^ 64 ∧
      t.row = u.image s.row) ∨
    ∃ b, u.breach s.row = some b ∧ u.perform s = violate b

theorem obeys_write (hs : s.Tidy) (hsmall : s.length < 2 ^ 64) (offset : Nat) (value : UInt64)
    (width : Nat) : s.Obeys (.write offset value width) := by
  rw [Obeys, Update.breach, length_row]
  show (_ ∧ ∃ t, s.write offset value width = .ok t ∧ _) ∨
    ∃ b, _ ∧ s.write offset value width = violate b
  rcases s.requireField_cases offset width with ⟨hnone, hfield⟩ | ⟨b, hsome, hfield⟩
  case inr =>
    rw [hsome]
    exact .inr ⟨b, rfl, by rw [write, hfield]; rfl⟩
  obtain ⟨-, hwidth, hfit, -⟩ := requireField_eq_ok_iff.1 hfield
  have hslice := slice_row_eq_zeros_iff hwidth hfit
  rw [hnone, Option.none_or]
  by_cases hwide : 2 ^ width ≤ value.toNat
  case pos =>
    have hfits : ¬value &&& ~~~mask width = 0 := by
      rw [← fits_iff_and_mask hwidth, fits_iff_lt]
      omega
    rw [if_pos hwide]
    exact .inr ⟨_, rfl, by rw [write, hfield, ok_bind, require, if_neg hfits]; rfl⟩
  have hfits : Fits width value := fits_iff_lt.2 (Nat.lt_of_not_le hwide)
  rw [if_neg hwide]
  by_cases hzero : slice s.row offset width = List.replicate width false
  · obtain ⟨t, ht, hover, htidy⟩ :=
      write_eq_ok hs hfield hfits ((field_eq_zero_iff hwidth).1 (hslice.1 hzero))
    rw [if_pos hzero]
    exact .inl ⟨rfl, t, ht, htidy, hover.length ▸ hsmall, hover.row_eq hfit⟩
  · rw [if_neg hzero]
    refine .inr ⟨_, rfl, ?_⟩
    rw [write, hfield, ok_bind, require_bind _ ((fits_iff_and_mask hwidth).1 hfits),
      read_eq_ok hs hfield, ok_bind, require, if_neg (mt hslice.2 hzero)]
    rfl

theorem obeys_clear (hs : s.Tidy) (hsmall : s.length < 2 ^ 64) (offset width : Nat) :
    s.Obeys (.clear offset width) := by
  rw [Obeys, Update.breach, length_row]
  rcases s.requireField_cases offset width with ⟨hnone, hfield⟩ | ⟨b, hsome, hfield⟩
  · obtain ⟨-, -, hfit, -⟩ := requireField_eq_ok_iff.1 hfield
    obtain ⟨t, ht, hover, htidy⟩ := clear_eq_ok hs hfield
    refine .inl ⟨hnone, t, ht, htidy, hover.length ▸ hsmall, ?_⟩
    rw [hover.row_eq hfit, lowBits_zero, Update.image]
  · exact .inr ⟨b, hsome, by rw [Update.perform, clear, hfield]; rfl⟩

theorem obeys_replace (hs : s.Tidy) (hsmall : s.length < 2 ^ 64) (offset : Nat) (value : UInt64)
    (width : Nat) : s.Obeys (.replace offset value width) := by
  rw [Obeys, Update.breach, length_row]
  rcases s.requireField_cases offset width with ⟨hnone, hfield⟩ | ⟨b, hsome, hfield⟩
  · obtain ⟨-, hwidth, hfit, -⟩ := requireField_eq_ok_iff.1 hfield
    obtain ⟨t, ht, hover, htidy⟩ := replace_eq_ok value hs hfield
    refine .inl ⟨hnone, t, ht, htidy, hover.length ▸ hsmall, ?_⟩
    rw [hover.row_eq hfit, lowBits_and_mask hwidth, Update.image]
  · exact .inr ⟨b, hsome, by rw [Update.perform, replace, clear, hfield]; rfl⟩

theorem obeys_setBit (hs : s.Tidy) (hsmall : s.length < 2 ^ 64) (index : Nat) :
    s.Obeys (.setBit index) := by
  rw [Obeys, Update.breach, length_row]
  by_cases hindex : index < s.length
  · obtain ⟨t, ht, hover, htidy⟩ := setBit_eq_ok hs hindex
    rw [if_pos hindex]
    refine .inl ⟨rfl, t, ht, htidy, hover.length ▸ hsmall, ?_⟩
    rw [hover.row_eq hindex]
    rfl
  · rw [if_neg hindex]
    exact .inr ⟨_, rfl, by rw [Update.perform, setBit, require, if_neg hindex]; rfl⟩

theorem obeys_grow (hs : s.Tidy) (hsmall : s.length < 2 ^ 64) (length : Nat) :
    s.Obeys (.grow length) := by
  rw [Obeys, Update.breach, length_row]
  by_cases hlong : length ≤ s.length
  · rw [if_pos (.inl hlong)]
    refine .inl ⟨rfl, s, by rw [Update.perform, grow, if_pos hlong], hs, hsmall, ?_⟩
    rw [Update.image, length_row, Nat.sub_eq_zero_of_le hlong, List.replicate_zero,
      List.append_nil]
  · by_cases hlt : length + 63 < 2 ^ 64
    · obtain ⟨t, ht, htidy, htlength, hbit⟩ := grow_eq_ok hs hlt
      rw [if_pos (.inr hlt)]
      refine .inl ⟨rfl, t, ht, htidy, by omega, ?_⟩
      -- behind the old bits there are zeros only
      apply List.ext_getElem?
      intro i
      rw [Update.image, List.getElem?_append, length_row]
      by_cases hi : i < s.length
      · rw [if_pos hi, getElem?_row hi, getElem?_row (by omega), hbit]
      · rw [if_neg hi]
        by_cases hi' : i < length
        · rw [getElem?_row (by omega), hbit, hs.clear i (by omega),
            List.getElem?_replicate_of_lt (by omega)]
        · rw [List.getElem?_eq_none (by rw [length_row]; omega),
            List.getElem?_eq_none (by rw [List.length_replicate]; omega)]
    · have hor : ¬(length ≤ s.length ∨ length + 63 < 2 ^ 64) := not_or.2 ⟨hlong, hlt⟩
      rw [if_neg hor]
      refine .inr ⟨_, rfl, ?_⟩
      rw [Update.perform, grow, if_neg hlong, wordsFor, Checked.add, Checked.fit, if_neg hlt]
      rfl

theorem obeys (hs : s.Tidy) (hsmall : s.length < 2 ^ 64) (u : Update) : s.Obeys u := by
  cases u with
  | write offset value width => exact obeys_write hs hsmall offset value width
  | clear offset width => exact obeys_clear hs hsmall offset width
  | replace offset value width => exact obeys_replace hs hsmall offset value width
  | setBit index => exact obeys_setBit hs hsmall index
  | grow length => exact obeys_grow hs hsmall length

end Store

end ApproxSet.Bits
