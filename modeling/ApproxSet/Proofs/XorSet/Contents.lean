import ApproxSet.Proofs.Coding.Delta
import ApproxSet.Proofs.XorSet.Marks

/-!
# What a serialized filter is made of

In front of the trailing bits stand the codes of the header, the values of the slots that are not
zero, and the octets of a range code. The reader of these parts takes the canonical bits of a header
and of slots, and it takes other bits for them only in the octets of the range code, of which it
takes just as many.

So bits that are read as slots show how many slots there are: a slot takes up at least one bit,
either as one of the values or in the octets of the range code.
-/

namespace ApproxSet.XorSet.Serial

open Bits Coding Outcome

/-- The codes of the four numbers. -/
def Header.bits (header : Header) : List Bool :=
  Delta.code (header.slots + 1) ++ (Delta.code header.width ++
    (Delta.code (header.salt.toNat + 1) ++ Delta.code (header.nonzero + 1)))

/-- The four numbers are those of some filter. -/
structure Header.Proper (header : Header) : Prop where
  slots : 0 < header.slots ∧ header.slots % 3 = 0
  slots_lt : header.slots + 1 < 2 ^ 64
  width : 0 < header.width ∧ header.width ≤ 32
  salt_lt : header.salt.toNat + 1 < 2 ^ 64
  nonzero : header.nonzero ≤ header.slots

/-- The codes of the header and the values that are not zero. -/
def frontBits (header : Header) (slots : List UInt64) : List Bool :=
  header.bits ++ (slots.filter (· ≠ 0)).flatMap (lowBits header.width)

/-- The header is the one of these slots. -/
structure Header.Announces (header : Header) (slots : List UInt64) : Prop where
  proper : header.Proper
  count : slots.length = header.slots
  nonzero : (slots.filter (· ≠ 0)).length = header.nonzero
  fits : ∀ value ∈ slots, Fits header.width value

/-- Bits that the slots are read from: all is canonical but the octets of the range code. -/
structure Spells (bits : List Bool) (header : Header) (slots : List UInt64) : Prop where
  announces : header.Announces slots
  layout : ∃ octets, bits = frontBits header slots ++ octetBits octets ∧
    octets.length = (markOctets (header.slots / 3) slots).length

variable {header : Header} {slots : List UInt64} {bits : List Bool}

/-! ### The header -/

theorem reads_readCount {number : Nat} (h : number + 1 < 2 ^ 64) :
    Reads readCount (Delta.code (number + 1)) number := by
  refine (Delta.reads_read (Nat.add_one_pos number) h).bind_pure (Reads.lift ?_)
  rw [UInt64.toNat_ofNat_of_lt' h]
  exact Checked.sub_eq_ok (Nat.le_add_left 1 number)

theorem scans_readCount :
    Scans readCount fun bits number =>
      number + 1 < 2 ^ 64 ∧ bits = Delta.code (number + 1) := by
  refine Delta.scans_read.bind ?_
  rintro as value ⟨hpos, rfl⟩
  have hlt := value.toNat_lt
  have hsucc : value.toNat - 1 + 1 = value.toNat := Nat.sub_add_cancel hpos
  refine Scans.of_reads (Reads.lift (Checked.sub_eq_ok hpos)) ⟨by omega, ?_⟩
  rw [List.append_nil, hsucc]

theorem reads_readHeader (h : header.Proper) : Reads readHeader header.bits header := by
  have hwidth := h.width
  have hwidthword : (UInt64.ofNat header.width).toNat = header.width :=
    UInt64.toNat_ofNat_of_lt' (show header.width < 2 ^ 64 by omega)
  have hslots := h.slots_lt
  have hnonzero := h.nonzero
  refine (reads_readCount hslots).bind ?_
  refine Reads.bind_nil (Reads.expect h.slots) ?_
  refine (Delta.reads_read hwidth.1 (by omega)).bind ?_
  rw [hwidthword]
  refine Reads.bind_nil (Reads.expect hwidth.2) ?_
  refine (reads_readCount h.salt_lt).bind ?_
  refine (reads_readCount (show header.nonzero + 1 < 2 ^ 64 by omega)).bind_pure ?_
  refine Reads.bind_nil (Reads.expect hnonzero) ?_
  rw [UInt64.ofNat_toNat]
  exact Reads.pure _

/-- Only proper headers are accepted, and none has a second form. -/
theorem scans_readHeader :
    Scans readHeader fun bits header => header.Proper ∧ bits = header.bits := by
  refine scans_readCount.bind ?_
  rintro _ slots ⟨hslots, rfl⟩
  refine Scans.expect_bind fun hthirds => ?_
  refine Delta.scans_read.bind ?_
  rintro _ width ⟨hpos, rfl⟩
  refine Scans.expect_bind fun hwidth => ?_
  refine scans_readCount.bind ?_
  rintro _ salt ⟨hsalt, rfl⟩
  refine scans_readCount.bind ?_
  rintro _ nonzero ⟨-, rfl⟩
  refine Scans.expect_bind fun hfewer => Scans.pure ?_
  have hsaltword : (UInt64.ofNat salt).toNat = salt :=
    UInt64.toNat_ofNat_of_lt' (show salt < 2 ^ 64 by omega)
  refine ⟨⟨hthirds, hslots, ⟨hpos, hwidth⟩, by rw [hsaltword]; exact hsalt, hfewer⟩, ?_⟩
  rw [Header.bits, hsaltword, List.append_nil]

/-! ### The values -/

theorem length_flatMap_lowBits (width : Nat) (values : List UInt64) :
    (values.flatMap (lowBits width)).length = values.length * width := by
  induction values with
  | nil => exact (Nat.zero_mul width).symm
  | cons value values ih =>
    rw [List.flatMap_cons, List.length_append, length_lowBits, ih, List.length_cons, Nat.succ_mul,
      Nat.add_comm]

theorem reads_readValues {width : Nat} (hwidth : width < 64) {values : List UInt64}
    (hvalues : ∀ value ∈ values, Fits width value ∧ value ≠ 0) :
    Reads (readValues width values.length) (values.flatMap (lowBits width)) values := by
  induction values with
  | nil => exact Reads.pure _
  | cons value values ih =>
    obtain ⟨hfits, hzero⟩ := hvalues value (by simp)
    have hrest := ih fun other hother => hvalues other (by simp [hother])
    rw [List.flatMap_cons]
    refine (Reads.bits hwidth hfits).bind ?_
    refine Reads.bind_nil (Reads.expect hzero) ?_
    exact hrest.bind_pure (Reads.pure _)

theorem scans_readValues {width : Nat} (hwidth : width < 64) (count : Nat) :
    Scans (readValues width count) fun bits values =>
      values.length = count ∧ bits = values.flatMap (lowBits width) ∧
        ∀ value ∈ values, Fits width value ∧ value ≠ 0 := by
  induction count with
  | zero => exact Scans.pure ⟨rfl, rfl, by simp⟩
  | succ count ih =>
    refine (Scans.bits hwidth).bind ?_
    rintro _ value ⟨rfl, hfits⟩
    refine Scans.expect_bind fun hzero => ?_
    refine ih.bind ?_
    rintro _ values ⟨hlength, rfl, hvalues⟩
    refine Scans.pure ⟨congrArg (· + 1) hlength, ?_, ?_⟩
    · rw [List.append_nil, List.flatMap_cons]
    · intro other hother
      rcases List.mem_cons.1 hother with rfl | hmem
      · exact ⟨hfits, hzero⟩
      · exact hvalues other hmem

/-! ### Everything in front of the trailing bits -/

/-- Reads the header and the values that are not zero. -/
def readFront : Reading (Header × List UInt64) := do
  let header ← readHeader
  let values ← readValues header.width header.nonzero
  return (header, values)

/-- Reads the header and all slots. -/
def readContents : Reading (Header × List UInt64) := do
  let (header, values) ← readFront
  let decoder ← Range.Decoder.start
  let (slots, rest) ← readSlots header.nonzero (header.slots / 3) header.slots 0 decoder values
  Reading.expect (rest = []) (.marksFewer header.nonzero)
  return (header, slots)

theorem Header.Proper.third_pos (h : header.Proper) : 0 < header.slots / 3 := by
  have hslots := h.slots
  omega

theorem reads_readFront (h : header.Announces slots) :
    Reads readFront (frontBits header slots) (header, slots.filter (· ≠ 0)) := by
  have hwidth := h.proper.width
  have hvalues : ∀ value ∈ slots.filter (· ≠ 0), Fits header.width value ∧ value ≠ 0 := by
    intro value hvalue
    obtain ⟨hmem, hzero⟩ := List.mem_filter.1 hvalue
    exact ⟨h.fits value hmem, of_decide_eq_true hzero⟩
  have hread := reads_readValues (show header.width < 64 by omega) hvalues
  rw [h.nonzero] at hread
  exact (reads_readHeader h.proper).bind (hread.bind_pure (Reads.pure _))

theorem scans_readFront :
    Scans readFront fun bits answer => answer.1.Proper ∧ answer.2.length = answer.1.nonzero ∧
      bits = answer.1.bits ++ answer.2.flatMap (lowBits answer.1.width) ∧
        ∀ value ∈ answer.2, Fits answer.1.width value ∧ value ≠ 0 := by
  refine scans_readHeader.bind ?_
  rintro _ header ⟨hproper, rfl⟩
  have hwidth := hproper.width
  refine (scans_readValues (show header.width < 64 by omega) header.nonzero).bind ?_
  rintro _ values ⟨hlength, rfl, hvalues⟩
  exact Scans.pure ⟨hproper, hlength, by rw [List.append_nil], hvalues⟩

/-- The canonical bits are read as the slots. -/
theorem reads_readContents (h : header.Announces slots) :
    Reads readContents (frontBits header slots ++ octetBits (markOctets (header.slots / 3) slots))
      (header, slots) := by
  obtain ⟨decoder, first, behind, hmarks, hstart, hslots⟩ :=
    reads_marks header.nonzero h.proper.third_pos slots
  rw [h.count] at hslots
  rw [hmarks]
  refine (reads_readFront h).bind (hstart.bind (hslots.bind_pure ?_))
  exact Reads.bind_nil (Reads.expect rfl) (Reads.pure _)

/-- Whatever is accepted spells the slots that are answered. -/
theorem scans_readContents :
    Scans readContents fun bits answer => Spells bits answer.1 answer.2 := by
  refine scans_readFront.bind ?_
  rintro _ ⟨header, values⟩ ⟨hproper, hlength, rfl, hvalues⟩
  refine Range.Decoder.scans_start.bind ?_
  rintro _ decoder ⟨code, hcode, rfl, rfl⟩
  refine (scans_readSlots header.nonzero hproper.third_pos (Range.Decoder.within_range _ code)
    Range.Span.usable_start fun value hvalue => (hvalues value hvalue).2).bind ?_
  rintro _ ⟨slots, rest⟩ ⟨hslots, hfilter, octets, rfl, hshifts⟩
  refine Scans.expect_bind fun hused => Scans.pure ?_
  have hused : rest = [] := hused
  subst hused
  have hfilter : values = slots.filter (· ≠ 0) := hfilter.trans (List.append_nil _)
  subst hfilter
  refine ⟨⟨hproper, hslots, hlength, fun value hvalue => ?_⟩,
    ⟨Octets.bigEndian 5 code ++ octets, ?_, ?_⟩⟩
  · by_cases hzero : value = 0
    · rw [hzero]
      exact fits_zero _
    · exact (hvalues value (List.mem_filter.2 ⟨hvalue, decide_eq_true hzero⟩)).1
  · simp only [frontBits, octetBits_append, List.append_assoc, List.append_nil]
  · have hstart : Range.Span.start.shifts = 0 := rfl
    rw [length_markOctets, List.length_append, Octets.length_bigEndian, markSpan, hshifts, hstart,
      Nat.zero_add]

/-- Every slot takes up a bit. -/
theorem Spells.slots_le (h : Spells bits header slots) : header.slots ≤ bits.length := by
  obtain ⟨octets, rfl, hoctets⟩ := h.layout
  have hslots := length_le_nonzero_add (header.slots / 3) slots
  have hvalues : (slots.filter (· ≠ 0)).length ≤ (slots.filter (· ≠ 0)).length * header.width :=
    Nat.le_mul_of_pos_right _ h.announces.proper.width.1
  rw [h.announces.count] at hslots
  simp only [frontBits, List.length_append, length_flatMap_lowBits, length_octetBits]
  omega

end ApproxSet.XorSet.Serial
