import ApproxSet.Proofs.XorSet.Decoding

/-!
# The serialized form of a filter is read as the filter

Writing a filter gives one list of bits, which depends on the salt, the geometry and the values of
the slots only. They are the canonical bits of the header and of the slots, so reading finds the
slots in them, and packs the slots into the store that they were taken from.

Whatever writing succeeds on can be read again. It succeeds on every filter of a salt that can be
written as long as the bits are not too many for a stream.
-/

namespace ApproxSet.XorSet.Serial

open Bits Coding Outcome

/-- The four numbers that are written in front of a filter. -/
def headerOf (filter : Packed) (values : List UInt64) : Header where
  slots := filter.slotCount
  width := filter.width
  salt := filter.salt
  nonzero := (values.filter (· ≠ 0)).length

/-- The bits of a filter whose slots have the given values. -/
def image (filter : Packed) (values : List UInt64) : List Bool :=
  frontBits (headerOf filter values) values ++ octetBits (markOctets filter.third values)

variable {filter : Packed} {f : Nat → UInt64} {values : List UInt64} {bytes : List UInt8}

theorem succ_toNat_of_lt {salt : UInt64} (h : salt < 0xffffffffffffffff) :
    salt.toNat + 1 < 2 ^ 64 := by
  have hlt := UInt64.lt_iff_toNat_lt.1 h
  have hmost : (0xffffffffffffffff : UInt64).toNat = 2 ^ 64 - 1 := rfl
  omega

theorem third_eq (filter : Packed) : filter.slotCount / 3 = filter.third :=
  Nat.mul_div_cancel_left filter.third (by decide)

/-! ### The filter behind a header -/

/-- A store of the slots has room for more bits than there are slots. -/
theorem slotCount_lt (h : filter.Holds f) : filter.slotCount + 63 < 2 ^ 64 := by
  have hroom := h.room
  have hslots : 3 * filter.third ≤ 3 * filter.third * filter.width :=
    Nat.le_mul_of_pos_right _ h.pos
  have hcount : filter.slotCount = 3 * filter.third := rfl
  omega

theorem announces_headerOf (h : filter.Holds f) (hsalt : filter.salt < 0xffffffffffffffff)
    (hvalues : filter.values = .ok values) : (headerOf filter values).Announces values := by
  rw [h.values_eq_ok, Except.ok.injEq] at hvalues
  have hlength : values.length = filter.slotCount := by
    rw [← hvalues, List.length_map, List.length_range]
    rfl
  have hpos := h.third
  have hsmall := slotCount_lt h
  have hslots : filter.slotCount = 3 * filter.third := rfl
  refine ⟨⟨⟨?_, ?_⟩, ?_, ⟨h.pos, h.width⟩, succ_toNat_of_lt hsalt, ?_⟩, hlength, rfl,
    fun value hvalue => ?_⟩
  · show 0 < filter.slotCount
    omega
  · show filter.slotCount % 3 = 0
    omega
  · show filter.slotCount + 1 < 2 ^ 64
    omega
  · show (values.filter (· ≠ 0)).length ≤ filter.slotCount
    exact hlength ▸ List.length_filter_le _ _
  · rw [← hvalues] at hvalue
    obtain ⟨i, hi, rfl⟩ := List.mem_map.1 hvalue
    exact h.shows.fields.fits (List.mem_range.1 hi)

/-- The filter is got back from its header and its values. -/
theorem tabulate_headerOf (h : filter.Holds f) (hvalues : filter.values = .ok values) :
    tabulate (headerOf filter values) values = .ok filter := by
  rw [h.values_eq_ok, Except.ok.injEq] at hvalues
  show (do
    let packed ← pack (filter.slotCount / 3) filter.width values
    return ⟨filter.salt, filter.slotCount / 3, filter.width, packed⟩ : Outcome Packed) = _
  rw [third_eq, ← hvalues, pack_eq_ok h.shows h.room, ok_bind, pure_eq_ok]

/-! ### Writing -/

theorem writes_octets (octets : List UInt8) :
    Stream.Writes (octets.foldlM fun s octet => s.append octet.toUInt64 8) (octetBits octets) :=
  .foldlM fun octet _ => Stream.writes_append (by omega) octet.toUInt64

theorem writes_values {width : Nat} (hwidth : width ≤ 64) (values : List UInt64) :
    Stream.Writes (values.foldlM fun s value => s.append value width)
      (values.flatMap (lowBits width)) :=
  .foldlM fun value _ => Stream.writes_append hwidth value

theorem image_eq (filter : Packed) (values : List UInt64) :
    image filter values = Delta.code (filter.slotCount + 1) ++ (Delta.code filter.width ++
      (Delta.code (filter.salt.toNat + 1) ++ (Delta.code ((values.filter (· ≠ 0)).length + 1) ++
        ((values.filter (· ≠ 0)).flatMap (lowBits filter.width) ++
          octetBits (markOctets filter.third values))))) := by
  simp only [image, frontBits, Header.bits, headerOf, List.append_assoc]

/-- Writing a filter is writing its bits behind no bits. -/
theorem write_eq (h : filter.Holds f) (hsalt : filter.salt < 0xffffffffffffffff)
    (hvalues : filter.values = .ok values) :
    ∃ writer, write filter = writer Stream.empty ∧ Stream.Writes writer (image filter values) := by
  obtain ⟨hproper, hcount, -, -⟩ := announces_headerOf h hsalt hvalues
  have hcount : values.length = filter.slotCount := hcount
  have hslots := slotCount_lt h
  have hnonzero : (values.filter (· ≠ 0)).length ≤ filter.slotCount := hproper.nonzero
  have hwidth := h.width
  have hsaltlt := succ_toNat_of_lt hsalt
  have hsaltword : filter.salt + 1 = UInt64.ofNat (filter.salt.toNat + 1) := by
    rw [UInt64.ofNat_add, UInt64.ofNat_toNat]
    rfl
  have hchain := (Delta.writes_write_ofNat (Nat.add_one_pos filter.slotCount) (by omega)).andThen
    ((Delta.writes_write_ofNat h.pos (by omega)).andThen
      ((Delta.writes_write_ofNat (Nat.add_one_pos filter.salt.toNat) hsaltlt).andThen
        ((Delta.writes_write_ofNat (Nat.add_one_pos (values.filter (· ≠ 0)).length)
            (by omega)).andThen
          ((writes_values (show filter.width ≤ 64 by omega) (values.filter (· ≠ 0))).andThen
            (writes_octets (markOctets filter.third values))))))
  refine ⟨_, ?_, image_eq filter values ▸ hchain⟩
  rw [write, require_bind _ hsalt, hvalues, ok_bind, Checked.add_eq_ok (by omega), ok_bind,
    hsaltword, Checked.add_eq_ok (by omega), encodeMarks_eq_ok h.third (by omega)]
  rfl

/-- What is written has the bits of the filter. -/
theorem octetBits_of_toBytes (h : filter.Holds f) (hvalues : filter.values = .ok values)
    (hbytes : toBytes filter = .ok bytes) :
    filter.salt < 0xffffffffffffffff ∧ 8 * bytes.length + 64 ≤ 2 ^ 64 ∧
      ∃ padding < 8, octetBits bytes = image filter values ++ List.replicate padding false := by
  obtain ⟨t, ht, hbytes⟩ := bind_eq_ok_iff.1 hbytes
  rw [pure_eq_ok] at hbytes
  cases hbytes
  obtain ⟨hsalt, -⟩ := require_bind_eq_ok_iff.1 ht
  obtain ⟨writer, hwrite, hwrites⟩ := write_eq h hsalt hvalues
  have hextends := hwrites.appends _ t Stream.sound_empty.toFormed (hwrite.symm.trans ht)
  exact ⟨hsalt, hextends.octetBits_toBytes⟩

/-- Writing succeeds if there is room for the bits. -/
theorem toBytes_eq_ok (h : filter.Holds f) (hsalt : filter.salt < 0xffffffffffffffff)
    (hvalues : filter.values = .ok values)
    (hroom : (image filter values).length ≤ Stream.mostBits) :
    ∃ bytes, toBytes filter = .ok bytes := by
  obtain ⟨writer, hwrite, hwrites⟩ := write_eq h hsalt hvalues
  obtain ⟨t, ht, -⟩ := hwrites.succeeds Stream.empty Stream.sound_empty
    (Nat.le_trans (Nat.le_of_eq (Nat.zero_add _)) hroom)
  exact ⟨t.toBytes, by rw [toBytes, hwrite, ht]; rfl⟩

/-- There is room for the bits of a filter of moderate size. -/
theorem length_image_le (h : filter.Holds f) (hsalt : filter.salt < 0xffffffffffffffff)
    (hvalues : filter.values = .ok values) (hthird : filter.third ≤ 2 ^ 32) :
    (image filter values).length ≤ Stream.mostBits := by
  obtain ⟨hproper, hcount, -, -⟩ := announces_headerOf h hsalt hvalues
  have hcount : values.length = filter.slotCount := hcount
  have hslots : filter.slotCount = 3 * filter.third := rfl
  have hbits : Stream.mostBits = 2 ^ 62 := rfl
  have hnonzero : (values.filter (· ≠ 0)).length ≤ filter.slotCount := hproper.nonzero
  have hmarks := length_markOctets filter.third values
  have hshifts := shifts_markSpan_le filter.third values
  have hwidth := h.width
  have hslotbits := Delta.length_code_le (show filter.slotCount + 1 < 2 ^ 64 by omega)
  have hwidthbits := Delta.length_code_le (show filter.width < 2 ^ 64 by omega)
  have hsaltbits := Delta.length_code_le (succ_toNat_of_lt hsalt)
  have hcountbits :=
    Delta.length_code_le (show (values.filter (· ≠ 0)).length + 1 < 2 ^ 64 by omega)
  have hvaluebits : (values.filter (· ≠ 0)).length * filter.width ≤ filter.slotCount * 32 :=
    Nat.mul_le_mul hnonzero hwidth
  simp only [image_eq, List.length_append, length_flatMap_lowBits, length_octetBits]
  omega

/-! ### The round trip -/

/-- Whatever was written is read as the filter. -/
theorem ofBytes_of_written (h : filter.Holds f) (hbytes : toBytes filter = .ok bytes) :
    ofBytes bytes = .ok filter := by
  have hvalues := h.values_eq_ok
  obtain ⟨hsalt, hsmall, padding, hpadding, hoctets⟩ := octetBits_of_toBytes h hvalues hbytes
  have hreads := reads_readContents (announces_headerOf h hsalt hvalues)
  have hthird : (headerOf filter ((List.range (3 * filter.third)).map f)).slots / 3 =
      filter.third := third_eq filter
  rw [hthird] at hreads
  rw [ofBytes_of_reads hsmall hreads hoctets, List.length_replicate, if_pos hpadding,
    tabulate_headerOf h hvalues]

/-- A filter of moderate size is got back from its serialized form. -/
theorem ofBytes_of_toBytes (h : filter.Holds f) (hsalt : filter.salt < 0xffffffffffffffff)
    (hthird : filter.third ≤ 2 ^ 32) :
    ∃ bytes, toBytes filter = .ok bytes ∧ ofBytes bytes = .ok filter := by
  have hvalues := h.values_eq_ok
  obtain ⟨bytes, hbytes⟩ :=
    toBytes_eq_ok h hsalt hvalues (length_image_le h hsalt hvalues hthird)
  exact ⟨bytes, hbytes, ofBytes_of_written h hbytes⟩

/-- Filters that were built or read are got back from their serialized form, unless they have the
one salt that has none. -/
theorem reading_undoes_writing {filter : Packed}
    (horigin : (∃ s keys, (buildPacked s keys).outcome = .ok filter) ∨
      ∃ bytes, ofBytes bytes = .ok filter)
    (hsalt : filter.salt < 0xffffffffffffffff) (hthird : filter.third ≤ 2 ^ 32) :
    ∃ bytes, toBytes filter = .ok bytes ∧ ofBytes bytes = .ok filter := by
  obtain ⟨f, hholds⟩ : ∃ f, filter.Holds f := by
    rcases horigin with ⟨s, keys, hbuilt⟩ | ⟨bytes, hread⟩
    · exact holds_of_buildPacked hbuilt
    · exact holds_of_ofBytes hread
  exact ofBytes_of_toBytes hholds hsalt hthird

/-- Three keys in six slots of five bits, half of which stay zero. -/
theorem three_keys_are_read_back :
    (buildPacked { width := 5 } [1, 2, 3]).outcome = .ok ⟨2, 2, 5, ⟨⟨#[775454720], 30⟩, 5⟩⟩ ∧
      ∃ bytes, toBytes ⟨2, 2, 5, ⟨⟨#[775454720], 30⟩, 5⟩⟩ = .ok bytes ∧
        ofBytes bytes = .ok ⟨2, 2, 5, ⟨⟨#[775454720], 30⟩, 5⟩⟩ := by
  have hbuilt : (buildPacked { width := 5 } [1, 2, 3]).outcome =
      .ok ⟨2, 2, 5, ⟨⟨#[775454720], 30⟩, 5⟩⟩ := by decide +kernel
  exact ⟨hbuilt, reading_undoes_writing (.inl ⟨_, _, hbuilt⟩) (by decide) (by decide)⟩

end ApproxSet.XorSet.Serial
