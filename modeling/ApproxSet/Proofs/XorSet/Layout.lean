import ApproxSet.Proofs.XorSet.Serial

/-!
# Accepted octets and the octets that are written

Octets that are read as a filter need not be those that are written for it: the octets of the range
code may be others, and so may the bits behind it. Everything else is determined by the filter, down
to the number of octets.

Where a filter ends is seen from its octets alone. They are not accepted if the last one is missing,
nor if another one follows.
-/

namespace ApproxSet.XorSet.Serial

open Bits Coding Outcome

variable {header : Header} {slots : List UInt64} {bits tail : List Bool} {bytes : List UInt8}
  {filter : Packed}

/-! ### The layout -/

/-- The bits that the header and the values are read from. -/
def frontOf (bytes : List UInt8) : Outcome (List Bool) := do
  let stream ← Stream.ofBytes bytes
  let (outcome, behind) := readFront.runOn stream
  let _ ← outcome
  return (octetBits bytes).take behind.cursor

theorem frontOf_eq_ok (hsmall : 8 * bytes.length + 64 ≤ 2 ^ 64) (h : header.Announces slots)
    (hbytes : octetBits bytes = frontBits header slots ++ tail) :
    frontOf bytes = .ok (frontBits header slots) := by
  obtain ⟨s, hstream⟩ := Stream.ofBytes_eq_ok_iff.2 hsmall
  obtain ⟨hs, -, hcursor, hrest⟩ := Stream.ofBytes_spec hstream
  have hbehind : (s.advance (frontBits header slots).length).cursor =
      (frontBits header slots).length := by
    rw [Stream.advance, hcursor, Nat.zero_add]
  rw [frontOf, hstream, ok_bind, (reads_readFront h).takes s tail hs (hrest.trans hbytes)]
  show Except.ok ((octetBits bytes).take _) = _
  rw [hbehind, hbytes, List.take_left]

/-- What is written for a filter that was read has the header that was read, and the same bits for
the values. -/
theorem image_of_tabulate (h : header.Announces slots)
    (hfilter : tabulate header slots = .ok filter) :
    image filter slots =
      frontBits header slots ++ octetBits (markOctets (header.slots / 3) slots) := by
  obtain ⟨-, -, hcount, hwidth, hsalt⟩ := tabulate_spec h hfilter
  have hheader : headerOf filter slots = header := by
    rw [headerOf, hcount, hwidth, hsalt, h.nonzero]
  rw [image, hheader, ← hcount, third_eq]

/-- There are as many of them as were read. -/
theorem length_image_of_tabulate (h : Spells bits header slots)
    (hfilter : tabulate header slots = .ok filter) :
    (image filter slots).length = bits.length := by
  obtain ⟨code, rfl, hcode⟩ := h.layout
  rw [image_of_tabulate h.announces hfilter, List.length_append, List.length_append,
    length_octetBits, length_octetBits, hcode]

/-- The largest salt is not read. -/
theorem salt_lt_of_tabulate (h : header.Announces slots)
    (hfilter : tabulate header slots = .ok filter) : filter.salt < 0xffffffffffffffff := by
  obtain ⟨-, -, -, -, hsalt⟩ := tabulate_spec h hfilter
  have hlt := h.proper.salt_lt
  have hlargest : (0xffffffffffffffff : UInt64).toNat = 2 ^ 64 - 1 := rfl
  rw [UInt64.lt_iff_toNat_lt, hsalt]
  omega

/-- Writing a filter that was read gives as many octets as it was read from. They agree with these
in the bits of the header and of the values, and differ from them at most in the octets of the range
code, which are equally many, and in the bits behind it, which are less than an octet. -/
theorem rewriting_keeps_the_layout {bytes : List UInt8} {filter : Packed}
    (hshort : bytes.length < 2 ^ 50) (h : ofBytes bytes = .ok filter) :
    ∃ again front code code' padding,
      toBytes filter = .ok again ∧ again.length = bytes.length ∧
      frontOf bytes = .ok front ∧ frontOf again = .ok front ∧
      octetBits bytes = front ++ (octetBits code ++ padding) ∧
      octetBits again = front ++ (octetBits code' ++ List.replicate padding.length false) ∧
      (∃ values, filter.values = .ok values ∧ encodeMarks values filter.third = .ok code') ∧
      code.length = code'.length ∧ padding.length < 8 := by
  obtain ⟨header, slots, bits, tail, hlayout, htail, -, hspells, hpacks⟩ := accepts_of_ofBytes h
  obtain ⟨hholds, hvalues, hcount, -, -⟩ := tabulate_spec hspells.announces hpacks
  have himage := image_of_tabulate hspells.announces hpacks
  have hlength := length_image_of_tabulate hspells hpacks
  have hthird : header.slots / 3 = filter.third := by rw [← hcount, third_eq]
  have hslots : slots.length < 2 ^ 64 := by
    have hlt := slotCount_lt hholds
    rw [hspells.announces.count, ← hcount]
    omega
  obtain ⟨code, hbits, hcode⟩ := hspells.layout
  -- the octets that were read have room for what is written
  have hbytes : 8 * bytes.length = bits.length + tail.length := by
    rw [← length_octetBits, hlayout, List.length_append]
  have hmost : Stream.mostBits = 2 ^ 62 := rfl
  obtain ⟨again, hagain⟩ := toBytes_eq_ok hholds
    (salt_lt_of_tabulate hspells.announces hpacks) hvalues (by omega)
  obtain ⟨-, hsmall, padding, hpadding, hoctets⟩ := octetBits_of_toBytes hholds hvalues hagain
  have hagainbytes : 8 * again.length = bits.length + padding := by
    rw [← length_octetBits, hoctets, List.length_append, hlength, List.length_replicate]
  obtain rfl : padding = tail.length := by omega
  rw [hbits, List.append_assoc] at hlayout
  rw [himage, List.append_assoc] at hoctets
  rw [hthird] at hoctets hcode
  exact ⟨again, frontBits header slots, code, markOctets filter.third slots, tail, hagain, by omega,
    frontOf_eq_ok (by omega) hspells.announces hlayout,
    frontOf_eq_ok hsmall hspells.announces hoctets, hlayout, hoctets,
    ⟨slots, hvalues, encodeMarks_eq_ok hholds.third hslots⟩, hcode, htail⟩

/-- Six slots whose range code and last bits are not those that are written. -/
theorem six_slots_keep_their_layout :
    [222, 170, 137, 227, 2, 4, 176, 80, 251, 255].length < 2 ^ 50 ∧
      ofBytes [222, 170, 137, 227, 2, 4, 176, 80, 251, 255] =
        .ok ⟨2, 2, 5, ⟨⟨#[775454720], 30⟩, 5⟩⟩ ∧
      ∃ again front code code' padding,
        toBytes ⟨2, 2, 5, ⟨⟨#[775454720], 30⟩, 5⟩⟩ = .ok again ∧ again.length = 10 ∧
        frontOf [222, 170, 137, 227, 2, 4, 176, 80, 251, 255] = .ok front ∧
        frontOf again = .ok front ∧
        octetBits [222, 170, 137, 227, 2, 4, 176, 80, 251, 255] =
          front ++ (octetBits code ++ padding) ∧
        octetBits again = front ++ (octetBits code' ++ List.replicate padding.length false) ∧
        (∃ values, (⟨2, 2, 5, ⟨⟨#[775454720], 30⟩, 5⟩⟩ : Packed).values = .ok values ∧
          encodeMarks values 2 = .ok code') ∧
        code.length = code'.length ∧ padding.length < 8 := by
  have hread : ofBytes [222, 170, 137, 227, 2, 4, 176, 80, 251, 255] =
      .ok ⟨2, 2, 5, ⟨⟨#[775454720], 30⟩, 5⟩⟩ := by decide +kernel
  exact ⟨by decide, hread, rewriting_keeps_the_layout (by decide) hread⟩

/-! ### The end -/

/-- The octets are refused as cut short if some are missing, and as damaged if some are added. -/
structure Delimited (bytes : List UInt8) : Prop where
  cut : ∀ short, short <+: bytes → short.length < bytes.length →
    ∃ bit ≤ 8 * short.length, ofBytes short = refuse (.truncated bit)
  added : ∀ more, more ≠ [] → (bytes ++ more).length < 2 ^ 50 →
    ∃ count, ofBytes (bytes ++ more) = refuse (.corrupt (.trailingBits count))

/-- All octets are read: the tail is less than an octet, so it does not hold the bits of one. -/
theorem delimited_of_ofBytes (h : ofBytes bytes = .ok filter) : Delimited bytes := by
  obtain ⟨header, slots, bits, tail, hlayout, htail, hreads, -, -⟩ := accepts_of_ofBytes h
  have hsmall := length_le_of_ofBytes h
  constructor
  · rintro short ⟨more, rfl⟩ hshort
    rw [List.length_append] at hshort hsmall
    have hlength := congrArg List.length hlayout
    rw [length_octetBits, List.length_append, List.length_append] at hlength
    -- the bits that are read end within the octets that are missing
    rw [octetBits_append, List.append_eq_append_iff] at hlayout
    rcases hlayout with ⟨missing, hbits, -⟩ | ⟨rest, hbits, -⟩
    · refine ofBytes_of_short (by omega) hreads (fun hnil => ?_) hbits.symm
      rw [hnil, List.append_nil] at hbits
      rw [hbits, length_octetBits] at hlength
      omega
    · have hbitslength := congrArg List.length hbits
      rw [length_octetBits, List.length_append] at hbitslength
      omega
  · intro more hmore hlong
    have hlayout' : octetBits (bytes ++ more) = bits ++ (tail ++ octetBits more) := by
      rw [octetBits_append, hlayout, List.append_assoc]
    have hpos := List.length_pos_iff.2 hmore
    have htail' : ¬(tail ++ octetBits more).length < 8 := by
      rw [List.length_append, length_octetBits]
      omega
    rw [ofBytes_of_reads (by omega) hreads hlayout', if_neg htail']
    exact ⟨_, rfl⟩

/-- No accepted octets begin other accepted octets, and which error is reported tells which of the
two happened. The octets that are written for a filter are accepted. -/
theorem accepted_octets_are_delimited :
    (∀ bytes filter, ofBytes bytes = .ok filter → Delimited bytes) ∧
      ∀ bytes filter, ((∃ s keys, (buildPacked s keys).outcome = .ok filter) ∨
          ∃ bytes, ofBytes bytes = .ok filter) →
        toBytes filter = .ok bytes → ofBytes bytes = .ok filter ∧ Delimited bytes := by
  refine ⟨fun bytes filter h => delimited_of_ofBytes h, fun bytes filter horigin hbytes => ?_⟩
  have hread : ofBytes bytes = .ok filter := by
    rcases horigin with ⟨s, keys, hbuilt⟩ | ⟨source, hsource⟩
    · obtain ⟨f, hholds⟩ := holds_of_buildPacked hbuilt
      exact ofBytes_of_written hholds hbytes
    · obtain ⟨f, hholds⟩ := holds_of_ofBytes hsource
      exact ofBytes_of_written hholds hbytes
  exact ⟨hread, delimited_of_ofBytes hread⟩

/-- The ten octets of a filter of three keys, one octet less and one more. -/
theorem three_keys_are_delimited :
    (buildPacked { width := 5 } [1, 2, 3]).outcome = .ok ⟨2, 2, 5, ⟨⟨#[775454720], 30⟩, 5⟩⟩ ∧
      toBytes ⟨2, 2, 5, ⟨⟨#[775454720], 30⟩, 5⟩⟩ =
        .ok [222, 170, 137, 227, 2, 4, 176, 80, 227, 1] ∧
      ofBytes [222, 170, 137, 227, 2, 4, 176, 80, 227, 1] =
        .ok ⟨2, 2, 5, ⟨⟨#[775454720], 30⟩, 5⟩⟩ ∧
      (∃ bit ≤ 8 * 9,
        ofBytes [222, 170, 137, 227, 2, 4, 176, 80, 227] = refuse (.truncated bit)) ∧
      ∃ count, ofBytes [222, 170, 137, 227, 2, 4, 176, 80, 227, 1, 0] =
        refuse (.corrupt (.trailingBits count)) := by
  have hbuilt : (buildPacked { width := 5 } [1, 2, 3]).outcome =
      .ok ⟨2, 2, 5, ⟨⟨#[775454720], 30⟩, 5⟩⟩ := by decide +kernel
  have hwritten : toBytes ⟨2, 2, 5, ⟨⟨#[775454720], 30⟩, 5⟩⟩ =
      .ok [222, 170, 137, 227, 2, 4, 176, 80, 227, 1] := by decide +kernel
  obtain ⟨hread, -⟩ := accepted_octets_are_delimited.2 _ _ (.inl ⟨_, _, hbuilt⟩) hwritten
  obtain ⟨hcut, hadded⟩ := accepted_octets_are_delimited.1 _ _ hread
  have hshort := hcut [222, 170, 137, 227, 2, 4, 176, 80, 227] ⟨[1], rfl⟩ (by decide)
  exact ⟨hbuilt, hwritten, hread, hshort, hadded [0] (by decide) (by decide)⟩

end ApproxSet.XorSet.Serial
