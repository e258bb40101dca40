import ApproxSet.Proofs.Bits.Queue
import ApproxSet.Proofs.Coding.Delta

/-!
# One code for each number

Writing and reading delta codes undo each other on every stream that can be made. What is written
is read back as the same number, whatever stands behind it. Conversely, bits that are read as a
number are those that are written for it, so no number has two codes, and a code that is the
beginning of another one would be read as both numbers.

Where reading fails, the bits are at fault: there are too many zeros in front, or the digits behind
them make a width that no word has. Otherwise the stream has ended, and nothing of it is left.
-/

namespace ApproxSet.Coding

open Bits Outcome

/-! ### Streams that can be made -/

/-- The streams that come from octets by requests of any kind and by writing and reading codes,
whether or not the requests are met and the codes are read. -/
inductive Made : Stream → Prop where
  | ofBytes {bytes : List UInt8} {s : Stream} (h : Stream.ofBytes bytes = .ok s) : Made s
  | ask {s : Stream} (h : Made s) (r : Request) : Made (r.ask.runOn s).2
  | write {s t : Stream} {value : UInt64} (h : Made s) (hwrite : Delta.write s value = .ok t) :
    Made t
  | read {s : Stream} (h : Made s) : Made (Delta.read.runOn s).2

/-- What a stream keeps whatever is done to it. -/
structure Kept (s : Stream) : Prop where
  formed : s.Formed
  sound : s.length ≤ Stream.mostBits → s.Sound

variable {s t : Stream}

theorem Kept.of_sound (hs : s.Sound) : Kept s :=
  ⟨hs.toFormed, fun _ => hs⟩

theorem Kept.moveTo (hs : Kept s) {position : Nat} (h : position ≤ s.length) :
    Kept { s with cursor := position } :=
  ⟨⟨hs.formed.tidy, hs.formed.room, hs.formed.clear, h, hs.formed.small⟩,
    fun hlength => (hs.sound hlength).moveTo h⟩

theorem Kept.write {writer : Stream → Outcome Stream} {bits : List Bool}
    (hwrites : Stream.Writes writer bits) (hs : Kept s) (h : writer s = .ok t) : Kept t := by
  have hextends := hwrites.appends s t hs.formed h
  refine ⟨hextends.formed, fun hlength => ?_⟩
  rw [hextends.length] at hlength
  obtain ⟨t', ht', hsound⟩ := hwrites.succeeds s (hs.sound (by omega)) hlength
  rw [h] at ht'
  cases ht'
  exact hsound

theorem Kept.change {change : Stream → Outcome Stream}
    (h : ∀ t, change s = .ok t → Kept t) (hs : Kept s) :
    Kept ((Request.change change).runOn s).2 := by
  rw [Stream.runOn_change]
  cases hchange : change s with
  | ok t => exact h t hchange
  | error failure => exact hs

/-- Reading moves the cursor within the stream, or leaves it where it is. -/
theorem Kept.bits (hs : Kept s) (width : Nat) : Kept ((Reading.bits width).runOn s).2 := by
  rw [Reading.runOn_bits]
  cases hnext : s.next width with
  | error failure => exact hs
  | ok found =>
    obtain ⟨-, h⟩ := require_bind_eq_ok_iff.1 hnext
    split at h
    · cases h
      exact hs
    · obtain ⟨stop, -, h⟩ := bind_eq_ok_iff.1 h
      obtain ⟨hstop, h⟩ := demand_bind_eq_ok_iff.1 h
      obtain ⟨value, -, h⟩ := bind_eq_ok_iff.1 h
      cases h
      exact hs.moveTo hstop

theorem runOn_map_snd {α β : Type} (reader : Reading α) (f : α → β) (s : Stream) :
    ((return f (← reader) : Reading β).runOn s).2 = (reader.runOn s).2 := by
  rw [Reading.runOn_bind]
  rcases reader.runOn s with ⟨_ | _, _⟩ <;> rfl

theorem Kept.ask (hs : Kept s) (r : Request) : Kept (r.ask.runOn s).2 := by
  cases r with
  | append value width =>
    refine hs.change fun t ht => ?_
    have hwidth := (require_bind_eq_ok_iff.1 ht).1
    exact hs.write (Stream.writes_append hwidth value) ht
  | appendBit bit => exact hs.change fun t ht => hs.write (Stream.writes_appendBit bit) ht
  | read width =>
    rw [Request.ask, runOn_map_snd]
    exact hs.bits width
  | readBit =>
    rw [Request.ask, runOn_map_snd, Reading.bit, runOn_map_snd]
    exact hs.bits 1
  | seek position =>
    refine hs.change fun t ht => ?_
    obtain ⟨hposition, h⟩ := require_bind_eq_ok_iff.1 ht
    cases h
    exact hs.moveTo hposition

namespace Delta

/-! ### Damage -/

/-- The bits that are taken for damaged when a code is read from a position: seven zeros, or the
digits of a width that no word has, behind as many zeros and their leading one. -/
inductive Flawed (start : Nat) : List Bool → Damage → Prop where
  | length : Flawed start (List.replicate 7 false) (.deltaLength start)
  | width {bits : List Bool} (hlength : bits.length ≤ 6) (hwide : 64 < ofDigits 1 bits) :
    Flawed start (List.replicate bits.length false ++ [true] ++ bits)
      (.deltaWidth start (ofDigits 1 bits))

theorem reports_readZeros (start allowed : Nat) :
    Reports (readZeros start allowed) fun bits damage =>
      bits = List.replicate (allowed + 1) false ∧ damage = .deltaLength start := by
  induction allowed with
  | zero =>
    refine Reports.bit.bind Scans.bit ?_
    rintro as bit rfl
    refine Reports.expect_bind (fun hbit => ?_) fun _ => .pure 0
    rw [Bool.eq_false_iff.2 hbit]
    exact ⟨rfl, rfl⟩
  | succ allowed ih =>
    refine Reports.bit.bind Scans.bit ?_
    rintro as bit rfl
    cases bit with
    | true => exact .pure 0
    | false =>
      have hlast : Reports (do return (← readZeros start allowed) + 1) fun bits damage =>
          bits = List.replicate (allowed + 1) false ∧ damage = .deltaLength start :=
        ih.bind (scans_readZeros start allowed) fun _ zeros _ => .pure (zeros + 1)
      refine hlast.mono ?_
      rintro bits damage ⟨rfl, rfl⟩
      exact ⟨rfl, rfl⟩

theorem reports_readDigits {flawed : List Bool → Damage → Prop} (count leading : Nat) :
    Reports (readDigits count leading) flawed := by
  induction count generalizing leading flawed with
  | zero => exact .pure leading
  | succ count ih => exact Reports.bit.bind Scans.bit fun _ _ _ => ih _

/-- Where no code is read, the bits from the cursor on are damaged or there are too few of them. -/
theorem read_eq_error {failure : Failure} (hs : s.Formed)
    (h : read.runOn s = (.error failure, t)) :
    (∃ bits tail damage, s.rest = bits ++ tail ∧ Flawed s.cursor bits damage ∧
        failure = .refused (.corrupt damage) ∧ t = s.advance bits.length) ∨
      failure = .refused (.truncated s.length) ∧ t = { s with cursor := s.length } := by
  have hreports : ∀ start : Nat, Reports (do
      let zeros ← readZeros start 6
      let width ← readDigits zeros 1
      Reading.expect (width ≤ 64) (.deltaWidth start width)
      let value ← readDigits (width - 1) 1
      return UInt64.ofNat value) (Flawed start) := by
    intro start
    have hzeros : Reports (readZeros start 6) (Flawed start) := by
      refine (reports_readZeros start 6).mono ?_
      rintro bits damage ⟨rfl, rfl⟩
      exact .length
    refine hzeros.bind (scans_readZeros start 6) ?_
    rintro zeroBits zeros ⟨hzeros, rfl⟩
    refine (reports_readDigits zeros 1).bind (scans_readDigits zeros 1) ?_
    rintro widthBits width ⟨rfl, rfl⟩
    refine Reports.expect_bind (fun hwide => ?_) fun _ => ?_
    · rw [List.append_nil]
      exact .width hzeros (Nat.lt_of_not_le hwide)
    · exact (reports_readDigits _ 1).bind (scans_readDigits _ 1) fun _ _ _ => .pure _
  exact hreports s.cursor s t failure hs ((Reading.runOn_bind _ _ s).symm.trans h)

/-- One zero more than allowed is damage, whatever follows it. -/
theorem readZeros_eq_corrupt {allowed : Nat} {tail : List Bool} (start : Nat) (hs : s.Formed)
    (hrest : s.rest = List.replicate (allowed + 1) false ++ tail) :
    (readZeros start allowed).runOn s =
      (refuse (.corrupt (.deltaLength start)), s.advance (allowed + 1)) := by
  induction allowed generalizing s with
  | zero =>
    rw [readZeros, Reading.runOn_bind_of_eq_ok ((Reads.bit false).takes s tail hs hrest)]
    rfl
  | succ allowed ih =>
    have hfirst : s.rest = [false] ++ (List.replicate (allowed + 1) false ++ tail) := hrest
    rw [readZeros, Reading.runOn_bind_of_eq_ok ((Reads.bit false).takes s _ hs hfirst)]
    show (do return (← readZeros start allowed) + 1 : Reading Nat).runOn
      (s.advance [false].length) = _
    rw [Reading.runOn_bind, ih (hs.advance hfirst) (Stream.rest_advance hfirst)]
    simp only [refuse, Stream.advance, List.length_singleton, Nat.add_assoc, Nat.add_comm 1]

/-- Damaged bits are reported, whatever follows them. -/
theorem Flawed.read_eq_corrupt {bits tail : List Bool} {damage : Damage}
    (h : Flawed s.cursor bits damage) (hs : s.Formed) (hrest : s.rest = bits ++ tail) :
    read.runOn s = (refuse (.corrupt damage), s.advance bits.length) := by
  cases h with
  | length =>
    rw [read, Reading.runOn_bind]
    show (readZeros s.cursor 6 >>= _).runOn s = _
    rw [Reading.runOn_bind, readZeros_eq_corrupt s.cursor hs hrest, List.length_replicate]
    rfl
  | @width bits hlength hwide =>
    rw [List.append_assoc] at hrest
    have hzeros := (reads_readZeros s.cursor hlength).takes s _ hs hrest
    have hdigits := (reads_readDigits 1 bits).takes _ tail (hs.advance hrest)
      (Stream.rest_advance hrest)
    rw [read, Reading.runOn_bind]
    show (readZeros s.cursor 6 >>= _).runOn s = _
    rw [Reading.runOn_bind_of_eq_ok hzeros, Reading.runOn_bind_of_eq_ok hdigits,
      Reading.runOn_bind, Reading.runOn_expect, demand, if_neg (Nat.not_le.2 hwide)]
    simp only [refuse, Stream.advance, List.length_append, Nat.add_assoc]

/-! ### Codes -/

/-- What is read as a number is the code of this number. -/
theorem read_eq_ok {value : UInt64} (hs : s.Formed) (h : read.runOn s = (.ok value, t)) :
    0 < value ∧ s.rest = code value.toNat ++ t.rest ∧ t = s.advance (code value.toNat).length := by
  rcases scans_read s hs with ⟨bits, tail, given, hrest, hreads, hpos, rfl⟩ | ⟨failure, u, hu, -⟩
  · rw [hreads.takes s tail hs hrest] at h
    cases h
    refine ⟨UInt64.lt_iff_toNat_lt.2 hpos, ?_, rfl⟩
    rw [Stream.rest_advance hrest]
    exact hrest
  · rw [hu] at h
    cases h

/-- What was written at the end of a stream is read there. -/
theorem read_of_write {value : UInt64} (hs : s.Formed) (h : write s value = .ok t) :
    t.bits = s.bits ++ code value.toNat ∧ t.cursor = s.cursor ∧
      ∃ u, t.seek s.length = .ok u ∧
        read.runOn u = (.ok value, u.advance (code value.toNat).length) := by
  have hpos : 0 < value := (require_bind_eq_ok_iff.1 h).1
  have hextends := (writes_write hpos).appends s t hs h
  have hlength := hextends.length
  refine ⟨hextends.bits, hextends.cursor, _, require_bind _ (show s.length ≤ t.length by omega), ?_⟩
  refine (reads_read_toNat hpos).takes _ [] ?_ ?_
  · exact ⟨hextends.formed.tidy, hextends.formed.room, hextends.formed.clear,
      show s.length ≤ t.length by omega, hextends.formed.small⟩
  · show t.bits.drop s.length = _
    rw [hextends.bits, ← s.length_bits, List.drop_left, List.append_nil]

/-- There is a stream that holds a code and nothing else. -/
theorem exists_rest_eq_code {value : UInt64} (h : 0 < value) :
    ∃ s : Stream, s.Formed ∧ s.rest = code value.toNat := by
  have hwrites := writes_write h
  have hroom := length_code_le value.toNat_lt
  have hmost : Stream.mostBits = 2 ^ 62 := rfl
  have hempty : Stream.empty.length = 0 := rfl
  obtain ⟨s, hs, hsound⟩ := hwrites.succeeds Stream.empty Stream.sound_empty (by omega)
  have hextends := hwrites.appends Stream.empty s Stream.sound_empty.toFormed hs
  refine ⟨s, hsound.toFormed, ?_⟩
  rw [Stream.rest, hextends.cursor, hextends.bits]
  rfl

/-- No code is the beginning of another one. -/
theorem code_prefix_iff {value other : UInt64} (h : 0 < value) (hother : 0 < other) :
    code value.toNat <+: code other.toNat ↔ value = other := by
  refine ⟨fun hprefix => ?_, fun heq => heq ▸ List.prefix_refl _⟩
  obtain ⟨tail, htail⟩ := hprefix
  obtain ⟨s, hs, hrest⟩ := exists_rest_eq_code hother
  -- the stream that holds the longer code would be read as either number
  have hvalue := (reads_read_toNat h).takes s tail hs (hrest.trans htail.symm)
  have hread := (reads_read_toNat hother).takes s [] hs (hrest.trans (List.append_nil _).symm)
  rw [hread] at hvalue
  cases hvalue
  rfl

end Delta

/-! ### All streams -/

theorem Made.kept (h : Made s) : Kept s := by
  induction h with
  | ofBytes h => exact .of_sound (Stream.sound_of_ofBytes h)
  | ask _ r ih => exact ih.ask r
  | @write s t value _ hwrite ih =>
    exact ih.write (Delta.writes_write (require_bind_eq_ok_iff.1 hwrite).1) hwrite
  | @read s _ ih =>
    rcases hrun : Delta.read.runOn s with ⟨failure | value, t⟩
    · rcases Delta.read_eq_error ih.formed hrun with
        ⟨bits, tail, damage, hrest, -, -, rfl⟩ | ⟨-, rfl⟩
      · exact ih.moveTo (ih.formed.advance hrest).cursor
      · exact ih.moveTo (Nat.le_refl _)
    · obtain ⟨-, hrest, rfl⟩ := Delta.read_eq_ok ih.formed hrun
      exact ih.moveTo (ih.formed.advance hrest).cursor

/-- For every stream that can be made. Any positive number is written there if its code has room,
and what is written is read back where it stands, up to its end. What is read anywhere is a positive
number, and the bits that it was read from are those that are written for it. If nothing is read,
then either damage is reported, which are seven zeros or a width of more than sixty-four that open
the bits from the cursor on, and these are always reported; or the stream is cut short, and the
cursor is left at its end. No code is the beginning of another. -/
theorem delta_codes_are_canonical (hs : Made s) :
    (∀ value, 0 < value →
      (s.length + (Delta.code value.toNat).length ≤ Stream.mostBits →
        ∃ t, Delta.write s value = .ok t) ∧
      ∀ t, Delta.write s value = .ok t →
        t.bits = s.bits ++ Delta.code value.toNat ∧ t.cursor = s.cursor ∧
        ∃ u, t.seek s.length = .ok u ∧
          Delta.read.runOn u = (.ok value, u.advance (Delta.code value.toNat).length)) ∧
    (∀ value t, Delta.read.runOn s = (.ok value, t) →
      0 < value ∧ s.rest = Delta.code value.toNat ++ t.rest ∧
        t = s.advance (Delta.code value.toNat).length) ∧
    (∀ damage t, Delta.read.runOn s = (refuse (.corrupt damage), t) ↔
      ∃ bits tail, s.rest = bits ++ tail ∧ Delta.Flawed s.cursor bits damage ∧
        t = s.advance bits.length) ∧
    (∀ failure t, Delta.read.runOn s = (.error failure, t) →
      (∃ damage, failure = .refused (.corrupt damage)) ∨
        failure = .refused (.truncated s.length) ∧ t = { s with cursor := s.length }) ∧
    ∀ value other : UInt64, 0 < value → 0 < other →
      (Delta.code value.toNat <+: Delta.code other.toNat ↔ value = other) := by
  have hkept := hs.kept
  refine ⟨fun value hpos => ⟨fun hroom => ?_, fun t ht => Delta.read_of_write hkept.formed ht⟩,
    fun value t ht => Delta.read_eq_ok hkept.formed ht, fun damage t => ⟨fun h => ?_, ?_⟩,
    fun failure t h => ?_, fun value other hpos hother => Delta.code_prefix_iff hpos hother⟩
  · obtain ⟨t, ht, -⟩ :=
      (Delta.writes_write hpos).succeeds s (hkept.sound (by omega)) hroom
    exact ⟨t, ht⟩
  · rcases Delta.read_eq_error hkept.formed h with
      ⟨bits, tail, damage', hrest, hflawed, hfailure, ht⟩ | ⟨hfailure, -⟩
    · cases hfailure
      exact ⟨bits, tail, hrest, hflawed, ht⟩
    · cases hfailure
  · rintro ⟨bits, tail, hrest, hflawed, rfl⟩
    exact hflawed.read_eq_corrupt hkept.formed hrest
  · rcases Delta.read_eq_error hkept.formed h with ⟨-, -, damage, -, -, hfailure, -⟩ | hend
    · exact .inl ⟨damage, hfailure⟩
    · exact .inr hend

/-- Two octets that open with zeros hold no code, but a code that is written behind them is read. -/
theorem thousand_behind_zeros :
    ∃ s t u, Stream.ofBytes [0, 1] = .ok s ∧ Made s ∧ Delta.write s 1000 = .ok t ∧
      t.seek 16 = .ok u ∧ Delta.read.runOn u = (.ok 1000, u.advance 16) ∧
      Delta.read.runOn s = (refuse (.corrupt (.deltaLength 0)), s.advance 7) := by
  have hbytes : 8 * [(0 : UInt8), 1].length + 64 ≤ 2 ^ 64 := by decide
  obtain ⟨s, hs⟩ := Stream.ofBytes_eq_ok_iff.2 hbytes
  obtain ⟨-, hlength, hcursor, hrest⟩ := Stream.ofBytes_spec hs
  have hlength : s.length = 16 := hlength
  obtain ⟨hwrite, -, hdamage, -⟩ := delta_codes_are_canonical (.ofBytes hs)
  have hcode : (Delta.code (1000 : UInt64).toNat).length = 16 := by decide +kernel
  obtain ⟨hroom, hwritten⟩ := hwrite 1000 (by decide)
  obtain ⟨t, ht⟩ := hroom (by rw [hlength, hcode]; decide)
  obtain ⟨-, -, u, hseek, hread⟩ := hwritten t ht
  rw [hlength] at hseek
  rw [hcode] at hread
  have hzeros := (hdamage (.deltaLength s.cursor) (s.advance 7)).2
    ⟨_, octetBits [0, 1] |>.drop 7, hrest.trans (by decide +kernel), .length, rfl⟩
  rw [hcursor] at hzeros
  exact ⟨s, t, u, hs, .ofBytes hs, ht, hseek, hread, hzeros⟩

end ApproxSet.Coding
