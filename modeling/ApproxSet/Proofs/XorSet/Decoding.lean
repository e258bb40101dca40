import ApproxSet.Proofs.XorSet.Contents
import ApproxSet.Proofs.XorSet.Packing

/-!
# What is made of the octets of a filter

Reading a filter is reading the parts in front of the trailing bits, counting the trailing bits, and
packing the slots. As the parts are read from left to right, there are only three cases: the parts
are found in front of a tail, they would be found if the octets went on, or something is wrong with
them. The slots are packed only after they were paid for with bits, so there is room for them.
-/

namespace ApproxSet.XorSet.Serial

open Bits Coding Outcome

/-- The filter that has the slots. -/
def tabulate (header : Header) (slots : List UInt64) : Outcome Packed := do
  let packed ← pack (header.slots / 3) header.width slots
  return ⟨header.salt, header.slots / 3, header.width, packed⟩

/-- Reads what is behind the slots. -/
def close (header : Header) (slots : List UInt64) : Reading Packed := do
  let stream ← get
  let trailing ← Checked.sub stream.length stream.cursor
  Reading.expect (trailing < 8) (.trailingBits trailing)
  liftM (tabulate header slots)

variable {header : Header} {slots : List UInt64} {bits tail missing : List Bool}
  {bytes : List UInt8} {filter : Packed}

/-! ### Packing what was read -/

theorem map_getD_range {count : Nat} (h : slots.length = count) :
    (List.range count).map (slots.getD · 0) = slots := by
  subst h
  apply List.ext_getElem?
  intro i
  by_cases hi : i < slots.length
  · simp [hi]
  · simp [Nat.le_of_not_lt hi]

theorem Header.Proper.three_thirds (h : header.Proper) : 3 * (header.slots / 3) = header.slots :=
  Nat.mul_div_cancel' (Nat.dvd_of_mod_eq_zero h.slots.2)

theorem Header.Announces.fits_getD (h : header.Announces slots) (i : Nat) :
    Fits header.width (slots.getD i 0) := by
  rw [List.getD_eq_getElem?_getD]
  cases hslot : slots[i]? with
  | none => exact fits_zero _
  | some value => exact h.fits value (List.mem_of_getElem? hslot)

/-- Slots whose bits a word can count are packed, and the filter shows them. -/
theorem tabulate_eq_ok (h : header.Announces slots)
    (hroom : header.slots * header.width + 63 < 2 ^ 64) :
    ∃ filter, tabulate header slots = .ok filter ∧ filter.Holds (slots.getD · 0) := by
  have hwidth := h.proper.width
  have hthirds := h.proper.three_thirds
  have hroom : 3 * (header.slots / 3) * header.width + 63 < 2 ^ 64 := by rw [hthirds]; exact hroom
  obtain ⟨packed, hpacked, hshows⟩ :=
    pack_spec hwidth.1 (by omega) hroom fun i _ => h.fits_getD i
  rw [hthirds, map_getD_range h.count] at hpacked
  refine ⟨⟨header.salt, header.slots / 3, header.width, packed⟩, ?_,
    h.proper.third_pos, hwidth.2, hroom, hshows⟩
  rw [tabulate, hpacked, ok_bind, pure_eq_ok]

/-- The slots of a filter that was packed are those that were announced. -/
theorem tabulate_spec (h : header.Announces slots) (hfilter : tabulate header slots = .ok filter) :
    filter.Holds (slots.getD · 0) ∧ filter.values = .ok slots ∧ filter.slotCount = header.slots ∧
      filter.width = header.width ∧ filter.salt = header.salt := by
  have hthirds := h.proper.three_thirds
  obtain ⟨packed, hpacked, hrest⟩ := bind_eq_ok_iff.1 hfilter
  have hroom := pack_lt hpacked
  rw [hthirds] at hroom
  obtain ⟨filter', hfilter', hholds⟩ := tabulate_eq_ok h hroom
  obtain rfl : filter = filter' := Except.ok.inj (hfilter.symm.trans hfilter')
  rw [pure_eq_ok] at hrest
  cases hrest
  refine ⟨hholds, ?_, hthirds, rfl, rfl⟩
  rw [hholds.values_eq_ok]
  show Except.ok ((List.range (3 * (header.slots / 3))).map _) = _
  rw [hthirds, map_getD_range h.count]

/-! ### The reader in two parts -/

theorem read_eq : read = readContents >>= fun contents => close contents.1 contents.2 := by
  simp only [read, readContents, readFront, close, tabulate, bind_assoc, pure_bind, liftM_bind,
    liftM_pure]

theorem runOn_close {s : Stream} (hs : s.Formed) :
    ((close header slots).runOn s).1 = if s.rest.length < 8 then tabulate header slots
      else refuse (.corrupt (.trailingBits s.rest.length)) := by
  have hclose : (close header slots).runOn s =
      (Reading.expect (s.rest.length < 8) (.trailingBits s.rest.length) >>= fun _ =>
        liftM (tabulate header slots)).runOn s := by
    rw [close, Reading.runOn_bind_of_eq_ok (Reading.runOn_get s), Checked.sub_eq_ok hs.cursor,
      ← s.length_rest]
    rfl
  rw [hclose, Reading.runOn_bind, Reading.runOn_expect]
  by_cases hshort : s.rest.length < 8
  · rw [demand_eq_ok_iff.2 hshort, if_pos hshort]
    exact congrArg Prod.fst (Reading.runOn_lift _ s)
  · rw [demand, if_neg hshort, if_neg hshort]
    rfl

/-- Octets that are not too many for a stream are read from one that has just their bits. -/
theorem ofBytes_eq (hsmall : 8 * bytes.length + 64 ≤ 2 ^ 64) :
    ∃ s : Stream, s.Formed ∧ s.length = 8 * bytes.length ∧ s.rest = octetBits bytes ∧
      ofBytes bytes = (read.runOn s).1 := by
  obtain ⟨s, hstream⟩ := Stream.ofBytes_eq_ok_iff.2 hsmall
  obtain ⟨hs, hlength, -, hrest⟩ := Stream.ofBytes_spec hstream
  exact ⟨s, hs, hlength, hrest, by rw [ofBytes, hstream, ok_bind]⟩

/-! ### Three cases -/

/-- The parts stand in front of a tail. -/
theorem ofBytes_of_reads (hsmall : 8 * bytes.length + 64 ≤ 2 ^ 64)
    (h : Reads readContents bits (header, slots)) (hbytes : octetBits bytes = bits ++ tail) :
    ofBytes bytes = if tail.length < 8 then tabulate header slots
      else refuse (.corrupt (.trailingBits tail.length)) := by
  obtain ⟨s, hs, -, hrest, hread⟩ := ofBytes_eq hsmall
  obtain ⟨t, ht, htail, hrun⟩ := h.continues hs (hrest.trans hbytes)
  rw [hread, read_eq, hrun, runOn_close ht, htail]

/-- The parts are cut short. -/
theorem ofBytes_of_short (hsmall : 8 * bytes.length + 64 ≤ 2 ^ 64)
    (h : Reads readContents bits (header, slots)) (hmissing : missing ≠ [])
    (hbytes : octetBits bytes ++ missing = bits) :
    ∃ bit ≤ 8 * bytes.length, ofBytes bytes = refuse (.truncated bit) := by
  obtain ⟨s, hs, hlength, hrest, hread⟩ := ofBytes_eq hsmall
  obtain ⟨bit, hbit, t, ht⟩ := h.stops s missing hs hmissing (by rw [hrest, hbytes])
  refine ⟨bit, hlength ▸ hbit, ?_⟩
  rw [hread, read_eq, Reading.runOn_bind, ht]
  rfl

/-- The parts are found, or the octets are refused. -/
theorem ofBytes_cases (hsmall : 8 * bytes.length + 64 ≤ 2 ^ 64) :
    (∃ header slots bits tail, octetBits bytes = bits ++ tail ∧
        Reads readContents bits (header, slots) ∧ Spells bits header slots) ∨
      ∃ failure, ofBytes bytes = .error failure ∧ Unreadable (8 * bytes.length) failure := by
  obtain ⟨s, hs, hlength, hrest, hread⟩ := ofBytes_eq hsmall
  rcases scans_readContents s hs with
    ⟨bits, tail, ⟨header, slots⟩, hbits, hreads, hspells⟩ | ⟨failure, t, ht, hfailure⟩
  · exact .inl ⟨header, slots, bits, tail, hrest.symm.trans hbits, hreads, hspells⟩
  · refine .inr ⟨failure, ?_, hlength ▸ hfailure⟩
    rw [hread, read_eq, Reading.runOn_bind, ht]

/-- What accepted octets consist of. -/
structure Accepts (bytes : List UInt8) (filter : Packed) (header : Header) (slots : List UInt64)
    (bits tail : List Bool) : Prop where
  layout : octetBits bytes = bits ++ tail
  tail : tail.length < 8
  reads : Reads readContents bits (header, slots)
  spells : Spells bits header slots
  packs : tabulate header slots = .ok filter

theorem length_le_of_ofBytes (h : ofBytes bytes = .ok filter) : 8 * bytes.length + 64 ≤ 2 ^ 64 := by
  obtain ⟨s, hstream, -⟩ := bind_eq_ok_iff.1 h
  exact Stream.ofBytes_eq_ok_iff.1 ⟨s, hstream⟩

theorem accepts_of_ofBytes (h : ofBytes bytes = .ok filter) :
    ∃ header slots bits tail, Accepts bytes filter header slots bits tail := by
  have hsmall := length_le_of_ofBytes h
  rcases ofBytes_cases hsmall with
    ⟨header, slots, bits, tail, hbits, hreads, hspells⟩ | ⟨failure, hrefused, -⟩
  · have hfilter := ofBytes_of_reads hsmall hreads hbits
    rw [h] at hfilter
    split at hfilter
    case isTrue htail =>
      exact ⟨header, slots, bits, tail, hbits, htail, hreads, hspells, hfilter.symm⟩
    case isFalse hlong => exact absurd hfilter.symm refuse_ne_ok
  · rw [h] at hrefused
    cases hrefused

/-- A filter that was read has a proper geometry, whatever the octets are. -/
theorem holds_of_ofBytes (h : ofBytes bytes = .ok filter) : ∃ f, filter.Holds f := by
  obtain ⟨header, slots, bits, tail, haccepts⟩ := accepts_of_ofBytes h
  exact ⟨_, (tabulate_spec haccepts.spells.announces haccepts.packs).1⟩

/-! ### Arbitrary octets -/

/-- The slot count that octets begin with. -/
def declaredSlots (bytes : List UInt8) : Outcome Nat := do
  let stream ← Stream.ofBytes bytes
  (readCount.runOn stream).1

theorem slots_le_of_layout (h : Spells bits header slots)
    (hbytes : octetBits bytes = bits ++ tail) : header.slots ≤ 8 * bytes.length := by
  have hslots := h.slots_le
  rw [← length_octetBits, hbytes, List.length_append]
  omega

theorem declaredSlots_of_code {count : Nat} (hsmall : 8 * bytes.length + 64 ≤ 2 ^ 64)
    (hcount : count + 1 < 2 ^ 64) (hbytes : octetBits bytes = Delta.code (count + 1) ++ tail) :
    declaredSlots bytes = .ok count := by
  obtain ⟨s, hstream⟩ := Stream.ofBytes_eq_ok_iff.2 hsmall
  obtain ⟨hs, -, -, hrest⟩ := Stream.ofBytes_spec hstream
  rw [declaredSlots, hstream, ok_bind,
    (reads_readCount hcount).takes s tail hs (hrest.trans hbytes)]

/-- The count of the slots that are found is the one that was announced. -/
theorem declaredSlots_of_spells (hsmall : 8 * bytes.length + 64 ≤ 2 ^ 64)
    (h : Spells bits header slots) (hbytes : octetBits bytes = bits ++ tail) :
    declaredSlots bytes = .ok header.slots := by
  obtain ⟨octets, hbits, -⟩ := h.layout
  obtain ⟨rest, hrest⟩ : ∃ rest, octetBits bytes = Delta.code (header.slots + 1) ++ rest := by
    simp only [hbytes, hbits, frontBits, Header.bits, List.append_assoc]
    exact ⟨_, rfl⟩
  exact declaredSlots_of_code hsmall h.announces.proper.slots_lt hrest

theorem declaredSlots_spec {count : Nat} (h : declaredSlots bytes = .ok count) :
    8 * bytes.length + 64 ≤ 2 ^ 64 ∧ count + 1 < 2 ^ 64 := by
  obtain ⟨s, hstream, hread⟩ := bind_eq_ok_iff.1 h
  obtain ⟨hs, -⟩ := Stream.ofBytes_spec hstream
  refine ⟨Stream.ofBytes_eq_ok_iff.1 ⟨s, hstream⟩, ?_⟩
  rcases scans_readCount s hs with ⟨bits, tail, number, hrest, hreads, hlt, -⟩ | ⟨failure, t, ht, -⟩
  · rw [hreads.takes s tail hs hrest] at hread
    cases hread
    exact hlt
  · rw [ht] at hread
    cases hread

theorem exists_declaredSlots {count : Nat} (hcount : count + 1 < 2 ^ 64) :
    ∃ bytes, declaredSlots bytes = .ok count := by
  have hwrites := Delta.writes_write_ofNat (Nat.add_one_pos count) hcount
  have hlength := Delta.length_code_le hcount
  have hmost : Stream.mostBits = 2 ^ 62 := rfl
  have hempty : Stream.empty.length = 0 := rfl
  obtain ⟨t, ht, -⟩ := hwrites.succeeds Stream.empty Stream.sound_empty (by omega)
  have hextends := hwrites.appends _ t Stream.sound_empty.toFormed ht
  obtain ⟨hsmall, padding, -, hbytes⟩ := hextends.octetBits_toBytes
  exact ⟨t.toBytes, declaredSlots_of_code hsmall hcount hbytes⟩

/-- The header has the largest salt and the largest slot count that has thirds, and the range code
lies outside of its interval. -/
def vastOctets : List UInt8 :=
  [64, 224, 255, 255, 255, 255, 255, 255, 255, 203, 0, 16, 248, 255, 255, 255, 255, 255, 255, 255,
    7, 248, 255, 255, 255, 7]

/-- Reading octets never breaks a promise. There is a filter, or the octets are refused: they end
too early, or they are damaged. -/
theorem every_input_is_decoded_or_refused {bytes : List UInt8} (hshort : bytes.length < 2 ^ 50) :
    (∃ filter, ofBytes bytes = .ok filter) ∨
      (∃ bit ≤ 8 * bytes.length, ofBytes bytes = refuse (.truncated bit)) ∨
      ∃ damage, ofBytes bytes = refuse (.corrupt damage) := by
  have hsmall : 8 * bytes.length + 64 ≤ 2 ^ 64 := by omega
  rcases ofBytes_cases hsmall with
    ⟨header, slots, bits, tail, hbytes, hreads, hspells⟩ | ⟨failure, hrefused, hunreadable⟩
  · rw [ofBytes_of_reads hsmall hreads hbytes]
    split
    · -- the slots were paid for with bits, so the packed array is small
      have hslots := slots_le_of_layout hspells hbytes
      have hroom : header.slots * header.width ≤ header.slots * 32 :=
        Nat.mul_le_mul_left _ hspells.announces.proper.width.2
      obtain ⟨filter, hfilter, -⟩ := tabulate_eq_ok hspells.announces (by omega)
      exact .inl ⟨filter, hfilter⟩
    · exact .inr (.inr ⟨_, rfl⟩)
  · cases hunreadable with
    | truncated hbit => exact .inr (.inl ⟨_, hbit, hrefused⟩)
    | corrupt damage => exact .inr (.inr ⟨damage, hrefused⟩)

theorem vastOctets_are_decoded_or_refused :
    vastOctets.length < 2 ^ 50 ∧
      ((∃ filter, ofBytes vastOctets = .ok filter) ∨
        (∃ bit ≤ 8 * vastOctets.length, ofBytes vastOctets = refuse (.truncated bit)) ∨
        ∃ damage, ofBytes vastOctets = refuse (.corrupt damage)) :=
  ⟨by decide, every_input_is_decoded_or_refused (by decide)⟩

/-- A filter has no more slots than its octets have bits. Octets that announce more are refused,
although every number of slots that has a successor in a word can be announced. -/
theorem slots_are_bounded_by_bits :
    (∀ bytes filter, ofBytes bytes = .ok filter → filter.slotCount ≤ 8 * bytes.length) ∧
      (∀ bytes count, declaredSlots bytes = .ok count → 8 * bytes.length < count →
        ∃ reason, ofBytes bytes = refuse reason) ∧
      ∀ count, (∃ bytes, declaredSlots bytes = .ok count) ↔ count ≤ 2 ^ 64 - 2 := by
  refine ⟨fun bytes filter h => ?_, fun bytes count h hmore => ?_, fun count => ⟨?_, ?_⟩⟩
  · obtain ⟨header, slots, bits, tail, haccepts⟩ := accepts_of_ofBytes h
    obtain ⟨-, -, hcount, -⟩ := tabulate_spec haccepts.spells.announces haccepts.packs
    rw [hcount]
    exact slots_le_of_layout haccepts.spells haccepts.layout
  · obtain ⟨hsmall, -⟩ := declaredSlots_spec h
    rcases ofBytes_cases hsmall with
      ⟨header, slots, bits, tail, hbytes, -, hspells⟩ | ⟨failure, hrefused, hunreadable⟩
    · have hslots := slots_le_of_layout hspells hbytes
      have hcount := declaredSlots_of_spells hsmall hspells hbytes
      rw [h] at hcount
      cases hcount
      omega
    · cases hunreadable with
      | truncated hbit => exact ⟨_, hrefused⟩
      | corrupt damage => exact ⟨_, hrefused⟩
  · rintro ⟨bytes, h⟩
    have hlt := (declaredSlots_spec h).2
    omega
  · intro hcount
    exact exists_declaredSlots (by omega)

/-- Six slots in eighty bits are read, and the most that have thirds are refused. -/
theorem six_slots_are_read_and_vast_ones_refused :
    (ofBytes [222, 170, 137, 227, 2, 4, 176, 80, 227, 1] =
        .ok ⟨2, 2, 5, ⟨⟨#[775454720], 30⟩, 5⟩⟩ ∧
      (⟨2, 2, 5, ⟨⟨#[775454720], 30⟩, 5⟩⟩ : Packed).slotCount ≤ 8 * 10) ∧
    (declaredSlots vastOctets = .ok (2 ^ 64 - 4) ∧ 8 * vastOctets.length < 2 ^ 64 - 4 ∧
      ∃ reason, ofBytes vastOctets = refuse reason) ∧
    ∃ bytes, declaredSlots bytes = .ok (2 ^ 64 - 2) := by
  have hread : ofBytes [222, 170, 137, 227, 2, 4, 176, 80, 227, 1] =
      .ok ⟨2, 2, 5, ⟨⟨#[775454720], 30⟩, 5⟩⟩ := by decide +kernel
  have hvast : declaredSlots vastOctets = .ok (2 ^ 64 - 4) := by decide +kernel
  obtain ⟨hbounded, hrefused, hdeclared⟩ := slots_are_bounded_by_bits
  exact ⟨⟨hread, hbounded _ _ hread⟩, ⟨hvast, by decide, hrefused _ _ hvast (by decide)⟩,
    (hdeclared _).2 (Nat.le_refl _)⟩

end ApproxSet.XorSet.Serial
