import ApproxSet.Bits.Stream
import ApproxSet.Proofs.Bits.Store
import ApproxSet.Proofs.Octets

/-!
# A stream as a list of bits

A stream is described by the list of its bits and by the position of its cursor. Every writer
appends a list of bits that does not depend on the stream, and writers in a row append their lists
in a row.

The store behind a stream may be up to twice as long as the stream. Appending depends on what the
store has there: its bits behind the end of the stream are all off.

What a stream is made of is kept by every writer that succeeds, however long the stream gets
(`Stream.Formed`). That writers do succeed is said of streams whose store can still be doubled
(`Stream.Sound`).
-/

namespace ApproxSet.Bits

open Outcome

/-- The bits of octets, the lowest of each first. -/
def octetBits (octets : List UInt8) : List Bool :=
  octets.flatMap fun octet => lowBits 8 octet.toUInt64

theorem octetBits_append (first second : List UInt8) :
    octetBits (first ++ second) = octetBits first ++ octetBits second :=
  List.flatMap_append

theorem length_octetBits (octets : List UInt8) : (octetBits octets).length = 8 * octets.length := by
  induction octets with
  | nil => rfl
  | cons octet octets ih =>
    show (lowBits 8 octet.toUInt64 ++ octetBits octets).length = _
    rw [List.length_append, length_lowBits, ih, List.length_cons]
    omega

theorem getElem?_octetBits {octets : List UInt8} {i : Nat} (h : i < 8 * octets.length) :
    (octetBits octets)[i]? = some (Octets.bitAt octets i) := by
  induction octets generalizing i with
  | nil => exact absurd h (Nat.not_lt_zero i)
  | cons octet octets ih =>
    rw [List.length_cons] at h
    show (lowBits 8 octet.toUInt64 ++ octetBits octets)[i]? = _
    rw [List.getElem?_append, length_lowBits, Octets.bitAt_cons]
    by_cases hi : i < 8
    · rw [if_pos hi, if_pos hi, getElem?_lowBits _ hi, UInt8.toNat_toUInt64]
    · rw [if_neg hi, if_neg hi, ih (by omega)]

/-- Octets are determined by their bits. -/
theorem octetBits_inj {first second : List UInt8} :
    octetBits first = octetBits second ↔ first = second := by
  refine ⟨fun h => ?_, fun h => h ▸ rfl⟩
  induction first generalizing second with
  | nil =>
    have hlength := congrArg List.length h
    rw [length_octetBits, length_octetBits, List.length_nil] at hlength
    exact (List.eq_nil_of_length_eq_zero (by omega)).symm
  | cons octet rest ih =>
    cases second with
    | nil =>
      have hlength := congrArg List.length h
      rw [length_octetBits, length_octetBits, List.length_cons, List.length_nil] at hlength
      omega
    | cons octet' rest' =>
      have hsplit : lowBits 8 octet.toUInt64 ++ octetBits rest =
          lowBits 8 octet'.toUInt64 ++ octetBits rest' := h
      obtain ⟨hoctet, hrest⟩ :=
        List.append_inj hsplit ((length_lowBits _ _).trans (length_lowBits _ _).symm)
      have hword := (lowBits_inj (fits_toUInt64 octet) (fits_toUInt64 octet')).1 hoctet
      rw [UInt8.toUInt64_inj.1 hword, ih hrest]

namespace Stream

/-- The most bits that a stream is taken to have. Its store may have twice as many. -/
def mostBits : Nat := 2 ^ 62

/-- All bits, in the order in which they were appended. -/
def bits (s : Stream) : List Bool :=
  (List.range s.length).map s.store.bit

/-- The bits from the cursor on. -/
def rest (s : Stream) : List Bool :=
  s.bits.drop s.cursor

/-- The stream behind its next `count` bits. -/
def advance (s : Stream) (count : Nat) : Stream :=
  { s with cursor := s.cursor + count }

/-- What every stream keeps. -/
structure Formed (s : Stream) : Prop where
  tidy : s.store.Tidy
  room : s.length ≤ s.store.length
  clear : ∀ i, s.length ≤ i → s.store.bit i = false
  cursor : s.cursor ≤ s.length
  small : s.store.length + 64 ≤ 2 ^ 64

/-- What a stream keeps while it is short enough for its store to be doubled. -/
structure Sound (s : Stream) : Prop extends Formed s where
  slack : s.store.length ≤ 2 * s.length + 63

/-- The stream `t` is `s` with some more bits at its end. -/
structure Extends (s : Stream) (bits : List Bool) (t : Stream) : Prop where
  formed : t.Formed
  cursor : t.cursor = s.cursor
  bits : t.bits = s.bits ++ bits

/-- The writer appends these bits to every stream on which it succeeds, and it succeeds on every
stream that has room for them. -/
structure Writes (writer : Stream → Outcome Stream) (bits : List Bool) : Prop where
  appends : ∀ s t : Stream, s.Formed → writer s = .ok t → s.Extends bits t
  succeeds : ∀ s : Stream, s.Sound → s.length + bits.length ≤ mostBits →
    ∃ t, writer s = .ok t ∧ t.Sound

variable {s t u : Stream} {as bs : List Bool} {i : Nat}

@[simp]
theorem length_bits (s : Stream) : s.bits.length = s.length := by
  simp [bits]

theorem getElem?_bits (h : i < s.length) : s.bits[i]? = some (s.store.bit i) := by
  simp [bits, h]

theorem getElem?_rest (h : s.cursor + i < s.length) :
    s.rest[i]? = some (s.store.bit (s.cursor + i)) := by
  rw [rest, List.getElem?_drop, getElem?_bits h]

theorem length_rest (s : Stream) : s.rest.length = s.length - s.cursor := by
  rw [rest, List.length_drop, length_bits]

theorem rest_advance (h : s.rest = as ++ bs) : (s.advance as.length).rest = bs := by
  have hdrop : (s.advance as.length).rest = s.rest.drop as.length := by
    rw [rest, rest, List.drop_drop]
    rfl
  rw [hdrop, h, List.drop_left]

theorem Formed.advance (hs : s.Formed) (h : s.rest = as ++ bs) :
    (s.advance as.length).Formed := by
  refine ⟨hs.tidy, hs.room, hs.clear, ?_, hs.small⟩
  have hlength := s.length_rest
  rw [h, List.length_append] at hlength
  have hcursor := hs.cursor
  show s.cursor + as.length ≤ s.length
  omega

theorem sound_empty : empty.Sound where
  tidy := ⟨rfl, fun _ _ => Nat.zero_testBit _⟩
  room := Nat.le_refl 0
  clear _ _ := Nat.zero_testBit _
  cursor := Nat.le_refl 0
  small := by decide
  slack := Nat.zero_le _

/-! ### Writers -/

theorem Extends.length (h : s.Extends as t) : t.length = s.length + as.length := by
  rw [← t.length_bits, h.bits, List.length_append, length_bits]

theorem Extends.refl (hs : s.Formed) : s.Extends [] s :=
  ⟨hs, rfl, (List.append_nil _).symm⟩

theorem Extends.trans (hst : s.Extends as t) (htu : t.Extends bs u) : s.Extends (as ++ bs) u :=
  ⟨htu.formed, htu.cursor.trans hst.cursor, by rw [htu.bits, hst.bits, List.append_assoc]⟩

theorem Writes.andThen {first second : Stream → Outcome Stream} (hfirst : Writes first as)
    (hsecond : Writes second bs) : Writes (fun s => first s >>= second) (as ++ bs) := by
  constructor
  · intro s u hs h
    obtain ⟨t, ht, hu⟩ := bind_eq_ok_iff.1 h
    have hst := hfirst.appends s t hs ht
    exact hst.trans (hsecond.appends t u hst.formed hu)
  · intro s hs hroom
    rw [List.length_append] at hroom
    obtain ⟨t, ht, htsound⟩ := hfirst.succeeds s hs (by omega)
    have hst := hfirst.appends s t hs.toFormed ht
    obtain ⟨u, hu, husound⟩ := hsecond.succeeds t htsound (by rw [hst.length]; omega)
    refine ⟨u, ?_, husound⟩
    show (first s >>= second) = _
    rw [ht, ok_bind, hu]

/-- The writer that writes nothing. -/
theorem Writes.nothing : Writes .ok [] := by
  constructor
  · intro s t hs h
    cases h
    exact .refl hs
  · exact fun s hs _ => ⟨s, rfl, hs⟩

theorem Writes.foldlM {α : Type} {step : Stream → α → Outcome Stream} {image : α → List Bool} :
    ∀ {xs : List α}, (∀ a ∈ xs, Writes (step · a) (image a)) →
      Writes (xs.foldlM step) (xs.flatMap image) := by
  intro xs
  induction xs with
  | nil => exact fun _ => .nothing
  | cons a xs ih =>
    intro h
    rw [List.flatMap_cons]
    exact (h a (by simp)).andThen (ih fun b hb => h b (by simp [hb]))

/-- Growing the store changes nothing but its length. -/
theorem storeUpTo_spec (hs : s.Formed) {stop : Nat} {store : Store}
    (h : s.storeUpTo stop = .ok store) :
    store.Tidy ∧ stop ≤ store.length ∧ store.length + 64 ≤ 2 ^ 64 ∧
      ∀ i, store.bit i = s.store.bit i := by
  have hsmall := hs.small
  unfold storeUpTo at h
  split at h
  case isTrue hshort =>
    obtain ⟨double, hdouble, h⟩ := bind_eq_ok_iff.1 h
    obtain ⟨-, rfl⟩ := Checked.mul_eq_ok_iff.1 hdouble
    have hfits : max stop (s.store.length * 2) + 63 < 2 ^ 64 := by
      rcases Store.grow_lt h with hle | hlt
      · omega
      · exact hlt
    obtain ⟨store', hstore', htidy, hlength, hbit⟩ := Store.grow_eq_ok hs.tidy hfits
    rw [h, Except.ok.injEq] at hstore'
    subst hstore'
    exact ⟨htidy, by omega, by omega, hbit⟩
  case isFalse hlong =>
    cases h
    exact ⟨hs.tidy, by omega, by omega, fun _ => rfl⟩

/-- The store is grown to where the stream is going to end, but never much beyond that. -/
theorem storeUpTo_eq_ok (hs : s.Sound) {stop : Nat} (hlength : s.length ≤ stop)
    (hstop : stop ≤ mostBits) :
    ∃ store, s.storeUpTo stop = .ok store ∧ store.length ≤ 2 * stop + 63 := by
  have hslack := hs.slack
  have hmost : mostBits = 2 ^ 62 := rfl
  unfold storeUpTo
  split
  case isTrue hshort =>
    rw [Checked.mul_eq_ok (by omega), ok_bind]
    have hfits : max stop (s.store.length * 2) + 63 < 2 ^ 64 := by omega
    obtain ⟨store, hstore, -, hlen, -⟩ := Store.grow_eq_ok hs.tidy hfits
    exact ⟨store, hstore, by omega⟩
  case isFalse hlong => exact ⟨s.store, rfl, by omega⟩

/-- What an append leaves behind. -/
theorem append_spec {width : Nat} {value : UInt64} (hs : s.Formed)
    (h : s.append value width = .ok t) : s.Extends (lowBits width value) t := by
  obtain ⟨hwidth, h⟩ := require_bind_eq_ok_iff.1 h
  by_cases hzero : width = 0
  · subst hzero
    cases h
    exact .refl hs
  · rw [if_neg hzero] at h
    obtain ⟨stop, hstop, h⟩ := bind_eq_ok_iff.1 h
    obtain ⟨-, rfl⟩ := Checked.add_eq_ok_iff.1 hstop
    obtain ⟨store, hstore, h⟩ := bind_eq_ok_iff.1 h
    obtain ⟨written, hwritten, h⟩ := bind_eq_ok_iff.1 h
    cases h
    obtain ⟨htidy, hlong, hsmall, hbit⟩ := storeUpTo_spec hs hstore
    obtain ⟨hover, hwtidy⟩ := Store.write_overwrites htidy hwritten
    refine ⟨⟨hwtidy, hover.length ▸ hlong, fun i hi => ?_, ?_, hover.length ▸ hsmall⟩, rfl, ?_⟩
    · have hi : s.length + width ≤ i := hi
      show written.bit i = false
      rw [hover.bit, if_neg (by omega), hbit, hs.clear i (by omega)]
    · exact Nat.le_trans hs.cursor (Nat.le_add_right _ _)
    · -- both sides have the bits of `s` and then those of the value
      apply List.ext_getElem?
      intro i
      by_cases hi : i < s.length + width
      · rw [getElem?_bits (s := ⟨written, s.length + width, s.cursor⟩) hi, List.getElem?_append,
          length_bits]
        show some (written.bit i) = _
        rw [hover.bit]
        by_cases hlow : i < s.length
        · rw [if_neg (by omega), if_pos hlow, getElem?_bits hlow, hbit]
        · rw [if_pos (by omega), if_neg hlow, getElem?_lowBits _ (by omega), testBit_and,
            testBit_mask hwidth, decide_eq_true (by omega), Bool.and_true]
      · rw [List.getElem?_eq_none (by rw [length_bits]; exact Nat.le_of_not_lt hi),
          List.getElem?_eq_none (by simp only [List.length_append, length_bits, length_lowBits]
                                    omega)]

theorem append_eq_ok {width : Nat} (hwidth : width ≤ 64) (value : UInt64) (hs : s.Sound)
    (hroom : s.length + width ≤ mostBits) : ∃ t, s.append value width = .ok t ∧ t.Sound := by
  have hmost : mostBits = 2 ^ 62 := rfl
  have happend : ∃ t, s.append value width = .ok t ∧ t.length = s.length + width ∧
      t.store.length ≤ 2 * (s.length + width) + 63 := by
    unfold append
    rw [require_bind _ hwidth]
    by_cases hzero : width = 0
    · subst hzero
      exact ⟨s, rfl, rfl, hs.slack⟩
    · rw [if_neg hzero, Checked.add_eq_ok (by omega), ok_bind]
      obtain ⟨store, hstore, hslack⟩ := storeUpTo_eq_ok hs (Nat.le_add_right _ _) hroom
      obtain ⟨htidy, hlong, -, hbit⟩ := storeUpTo_spec hs.toFormed hstore
      have hfield : store.requireField s.length width = .ok () :=
        Store.requireField_eq_ok_iff.2 ⟨by omega, hwidth, hlong, by omega⟩
      have hempty : ∀ i < width, store.bit (s.length + i) = false := by
        intro i _
        rw [hbit, hs.clear _ (by omega)]
      obtain ⟨written, hwritten, hover, -⟩ :=
        Store.write_eq_ok htidy hfield (fits_and_mask hwidth value) hempty
      rw [hstore, ok_bind, hwritten, ok_bind]
      exact ⟨_, rfl, rfl, hover.length ▸ hslack⟩
  obtain ⟨t, ht, hlength, hslack⟩ := happend
  exact ⟨t, ht, (append_spec hs.toFormed ht).formed, hlength ▸ hslack⟩

/-- Appending a value appends its lowest bits. -/
theorem writes_append {width : Nat} (hwidth : width ≤ 64) (value : UInt64) :
    Writes (·.append value width) (lowBits width value) := by
  constructor
  · exact fun s t hs h => append_spec hs h
  · intro s hs hroom
    rw [length_lowBits] at hroom
    exact append_eq_ok hwidth value hs hroom

theorem writes_appendBit (bit : Bool) : Writes (·.appendBit bit) [bit] := by
  rw [← lowBits_one_ite bit]
  exact writes_append (by omega) _

/-! ### Octets -/

theorem length_toBytes (hs : s.Formed) : s.toBytes.length = (s.length + 7) / 8 := by
  have hroom := hs.room
  have hsize := hs.tidy.size
  rw [toBytes, List.length_take, Octets.length_ofWords, Array.length_toList]
  omega

theorem bitAt_toBytes (hs : s.Formed) (i : Nat) : Octets.bitAt s.toBytes i = s.store.bit i := by
  have hbit : Octets.bitAt (Octets.ofWords s.store.words.toList) i = s.store.bit i := by
    rw [Octets.bitAt_ofWords, Store.bit, List.getD_eq_getElem?_getD, Array.getElem?_toList,
      Array.getD_eq_getD_getElem?]
  rw [toBytes, Octets.bitAt_take, hbit]
  by_cases hi : i < 8 * ((s.length + 7) / 8)
  · rw [decide_eq_true hi, Bool.true_and]
  · rw [hs.clear i (by omega), Bool.and_false]

/-- The octets of a stream have its bits and less than an octet of zeros. -/
theorem octetBits_toBytes (hs : s.Formed) :
    ∃ padding < 8, octetBits s.toBytes = s.bits ++ List.replicate padding false := by
  have hbytes := length_toBytes hs
  refine ⟨8 * s.toBytes.length - s.length, by omega, ?_⟩
  apply List.ext_getElem?
  intro i
  by_cases hi : i < 8 * s.toBytes.length
  · rw [getElem?_octetBits hi, bitAt_toBytes hs, List.getElem?_append, length_bits]
    by_cases hlow : i < s.length
    · rw [if_pos hlow, getElem?_bits hlow]
    · rw [if_neg hlow, List.getElem?_replicate_of_lt (by omega), hs.clear i (by omega)]
  · rw [List.getElem?_eq_none (by rw [length_octetBits]; omega), List.getElem?_eq_none
      (by simp only [List.length_append, length_bits, List.length_replicate]; omega)]

/-- The octets of a stream are few enough to be read again. -/
theorem length_toBytes_le (hs : s.Formed) : 8 * s.toBytes.length + 64 ≤ 2 ^ 64 := by
  have hbytes := length_toBytes hs
  have hroom := hs.room
  have hsmall := hs.small
  omega

/-- The octets of what was written from the start. -/
theorem Extends.octetBits_toBytes (h : empty.Extends bs t) :
    8 * t.toBytes.length + 64 ≤ 2 ^ 64 ∧
      ∃ padding < 8, octetBits t.toBytes = bs ++ List.replicate padding false := by
  have hbits : t.bits = bs := h.bits
  exact ⟨length_toBytes_le h.formed, hbits ▸ Stream.octetBits_toBytes h.formed⟩

/-- The stream of some octets has just their bits, all of which are still to be read. -/
theorem ofBytes_spec {bytes : List UInt8} (h : ofBytes bytes = .ok s) :
    s.Formed ∧ s.length = 8 * bytes.length ∧ s.cursor = 0 ∧ s.rest = octetBits bytes := by
  have hwords := Octets.length_toWords bytes
  obtain ⟨length, hlength, h⟩ := bind_eq_ok_iff.1 h
  obtain ⟨-, rfl⟩ := Checked.mul_eq_ok_iff.1 hlength
  obtain ⟨store, hstore, h⟩ := bind_eq_ok_iff.1 h
  cases h
  have hsmall := Store.ofWords_lt hstore
  obtain ⟨htidy, hlong, hbit⟩ := Store.ofWords_spec hstore
  have hbitAt : ∀ i, store.bit i = Octets.bitAt bytes i :=
    fun i => (hbit i).trans (Octets.testBit_toWords bytes i)
  refine ⟨⟨htidy, ?_, fun i hi => ?_, Nat.zero_le _, ?_⟩, Nat.mul_comm _ _, rfl, ?_⟩
  · show bytes.length * 8 ≤ store.length
    omega
  · have hi : bytes.length * 8 ≤ i := hi
    exact (hbitAt i).trans (Octets.bitAt_of_ge (by omega))
  · show store.length + 64 ≤ 2 ^ 64
    omega
  · apply List.ext_getElem?
    intro i
    by_cases hi : i < 8 * bytes.length
    · rw [getElem?_octetBits hi, ← hbitAt]
      exact getElem?_bits (s := ⟨store, bytes.length * 8, 0⟩) (by show i < bytes.length * 8; omega)
    · rw [List.getElem?_eq_none (by rw [length_rest]; show bytes.length * 8 - 0 ≤ i; omega),
        List.getElem?_eq_none (by rw [length_octetBits]; omega)]

theorem bits_of_ofBytes {bytes : List UInt8} (h : ofBytes bytes = .ok s) :
    s.bits = octetBits bytes := by
  obtain ⟨-, -, hcursor, hrest⟩ := ofBytes_spec h
  rw [← hrest, rest, hcursor, List.drop_zero]

theorem sound_of_ofBytes {bytes : List UInt8} (h : ofBytes bytes = .ok s) : s.Sound := by
  obtain ⟨hs, hlength, -⟩ := ofBytes_spec h
  obtain ⟨_, -, h⟩ := bind_eq_ok_iff.1 h
  obtain ⟨store, hstore, h⟩ := bind_eq_ok_iff.1 h
  cases h
  have hwords := Octets.length_toWords bytes
  have hstorelength : store.length = _ := (Store.ofWords_spec hstore).2.1
  exact ⟨hs, by dsimp only at *; omega⟩

theorem ofBytes_eq_ok_iff {bytes : List UInt8} :
    (∃ s, ofBytes bytes = .ok s) ↔ 8 * bytes.length + 64 ≤ 2 ^ 64 := by
  constructor
  · rintro ⟨s, hs⟩
    obtain ⟨hformed, hlength, -⟩ := ofBytes_spec hs
    have hroom := hformed.room
    have hsmall := hformed.small
    omega
  · intro h
    have hwords := Octets.length_toWords bytes
    unfold ofBytes Store.ofWords
    rw [Checked.mul_eq_ok (by omega), ok_bind, Checked.mul_eq_ok (by omega)]
    exact ⟨_, rfl⟩

/-- A stream that was read from octets is written as the same octets. -/
theorem toBytes_of_ofBytes {bytes : List UInt8} (h : ofBytes bytes = .ok s) :
    s.toBytes = bytes := by
  obtain ⟨padding, hpadding, hoctets⟩ := octetBits_toBytes (sound_of_ofBytes h).toFormed
  rw [bits_of_ofBytes h] at hoctets
  have hlength := congrArg List.length hoctets
  rw [List.length_append, length_octetBits, length_octetBits, List.length_replicate] at hlength
  have hzero : padding = 0 := by omega
  rw [hzero, List.replicate_zero, List.append_nil] at hoctets
  exact octetBits_inj.1 hoctets

/-- A stream that is written and read again has its bits and less than an octet of zeros. -/
theorem ofBytes_toBytes (hs : s.Formed) :
    ∃ t, ofBytes s.toBytes = .ok t ∧ t.cursor = 0 ∧
      ∃ padding < 8, t.bits = s.bits ++ List.replicate padding false := by
  obtain ⟨t, ht⟩ := ofBytes_eq_ok_iff.2 (length_toBytes_le hs)
  exact ⟨t, ht, (ofBytes_spec ht).2.2.1, bits_of_ofBytes ht ▸ octetBits_toBytes hs⟩

end Stream

end ApproxSet.Bits
