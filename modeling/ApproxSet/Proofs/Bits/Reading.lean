import ApproxSet.Proofs.Bits.Rows
import ApproxSet.Proofs.Bits.Stream

/-!
# Readers of lists of bits

A reader reads a list of bits as a value if it does so on every stream that goes on with these bits,
whatever follows them, and uses up just these bits. On a stream that ends within the list it reports
that the input is cut short, and nothing else. Readers in a row read their lists in a row, so what
is read back is composed in the same way as what was written.
-/

namespace ApproxSet.Bits

open Outcome

/-- The reader takes the bits and answers the value. -/
structure Reads {α : Type} (reader : Reading α) (bits : List Bool) (value : α) : Prop where
  /-- It does so on every stream that goes on with the bits. -/
  takes : ∀ (s : Stream) (tail : List Bool), s.Formed → s.rest = bits ++ tail →
    reader.runOn s = (.ok value, s.advance bits.length)
  /-- On a stream that ends within the bits it asks for more. -/
  stops : ∀ (s : Stream) (missing : List Bool), s.Formed → missing ≠ [] →
    s.rest ++ missing = bits → ∃ bit ≤ s.length, ∃ t, reader.runOn s = (refuse (.truncated bit), t)

namespace Stream

variable {s : Stream} {width : Nat}

theorem bits_eq_take (hs : s.Formed) : s.bits = s.store.row.take s.length := by
  rw [Store.row, ← List.map_take, List.take_range, Nat.min_eq_left hs.room, bits]

/-- The next bits are those of the field at the cursor. -/
theorem take_rest (hs : s.Formed) (hwidth : width ≤ 64) (hfit : s.cursor + width ≤ s.length) :
    s.rest.take width = lowBits width (s.store.field s.cursor width) := by
  have hroom := hs.room
  rw [rest, bits_eq_take hs, List.drop_take, List.take_take, Nat.min_eq_left (by omega),
    ← Store.slice_row hwidth (by omega), slice]

theorem next_eq_ok (hs : s.Formed) (hwidth : width ≤ 64) (hfit : s.cursor + width ≤ s.length) :
    s.next width = .ok (s.store.field s.cursor width, s.advance width) := by
  have hroom := hs.room
  have hsmall := hs.small
  rw [next, require_bind _ hwidth]
  by_cases hzero : width = 0
  · subst hzero
    rw [if_pos rfl, (Store.field_eq_zero_iff hwidth).2 fun i hi => absurd hi (Nat.not_lt_zero i)]
    rfl
  · have hfield : s.store.requireField s.cursor width = .ok () :=
      Store.requireField_eq_ok_iff.2 ⟨by omega, hwidth, by omega, by omega⟩
    rw [if_neg hzero, Checked.add_eq_ok (by omega), ok_bind, demand_bind _ hfit,
      Store.read_eq_ok hs.tidy hfield]
    rfl

/-- The stream ends before the last bit that is asked for. -/
theorem next_eq_truncated (hs : s.Formed) (hwidth : width ≤ 64) (hlt : s.cursor + width < 2 ^ 64)
    (hshort : s.length < s.cursor + width) : s.next width = refuse (.truncated s.cursor) := by
  have hcursor := hs.cursor
  rw [next, require_bind _ hwidth, if_neg (by omega), Checked.add_eq_ok hlt, ok_bind, demand,
    if_neg (Nat.not_le.2 hshort)]
  rfl

end Stream

namespace Reading

variable {α β : Type} {s t : Stream}

theorem runOn_get (s : Stream) : (get : Reading Stream).runOn s = (.ok s, s) := rfl

theorem runOn_lift (outcome : Outcome α) (s : Stream) :
    (liftM outcome : Reading α).runOn s = (outcome, s) := by
  cases outcome <;> rfl

theorem runOn_expect {condition : Prop} [Decidable condition] (damage : Damage) (s : Stream) :
    (expect condition damage).runOn s = (demand condition (.corrupt damage), s) :=
  runOn_lift _ s

theorem runOn_bits (width : Nat) (s : Stream) :
    (bits width).runOn s = match s.next width with
      | .ok (value, rest) => (.ok value, rest)
      | .error failure => (.error failure, s) := by
  rw [bits, runOn_bind, runOn_get]
  dsimp only
  rw [runOn_bind, runOn_lift]
  cases s.next width <;> rfl

theorem runOn_bind_of_eq_ok {reader : Reading α} {next : α → Reading β} {value : α}
    (h : reader.runOn s = (.ok value, t)) : (reader >>= next).runOn s = (next value).runOn t := by
  rw [runOn_bind, h]

/-- A field that reaches beyond the end of the stream. -/
theorem runOn_bits_short {width : Nat} (hwidth : width < 64) (hs : s.Formed)
    (hshort : s.length < s.cursor + width) :
    (bits width).runOn s = (refuse (.truncated s.cursor), s) := by
  have hcursor := hs.cursor
  have hroom := hs.room
  have hsmall := hs.small
  rw [runOn_bits, Stream.next_eq_truncated hs (Nat.le_of_lt hwidth) (by omega) hshort]
  rfl

end Reading

namespace Reads

open Reading

variable {α β : Type} {reader : Reading α} {next : α → Reading β} {value : α} {result : β}
  {as bs : List Bool}

/-- A reader that leaves every stream as it is. -/
theorem of_nil (h : ∀ s : Stream, reader.runOn s = (.ok value, s)) : Reads reader [] value := by
  constructor
  · exact fun s _ _ _ => h s
  · intro s missing _ hmissing hrest
    exact absurd (List.append_eq_nil_iff.1 hrest).2 hmissing

theorem pure (value : α) : Reads (Pure.pure value) [] value :=
  of_nil fun _ => rfl

theorem lift {outcome : Outcome α} (h : outcome = .ok value) :
    Reads (liftM outcome) [] value :=
  of_nil fun s => by rw [runOn_lift, h]

theorem expect {condition : Prop} [Decidable condition] {damage : Damage} (h : condition) :
    Reads (Reading.expect condition damage) [] () :=
  lift (demand_eq_ok_iff.2 h)

theorem bind (hreader : Reads reader as value) (hnext : Reads (next value) bs result) :
    Reads (reader >>= next) (as ++ bs) result := by
  constructor
  · intro s tail hs hrest
    rw [List.append_assoc] at hrest
    rw [runOn_bind, hreader.takes s (bs ++ tail) hs hrest]
    show (next value).runOn (s.advance as.length) = _
    rw [hnext.takes _ tail (hs.advance hrest) (Stream.rest_advance hrest), List.length_append]
    simp only [Stream.advance, Nat.add_assoc]
  · intro s missing hs hmissing hrest
    -- either the first reader already lacks bits, or it gets its bits and the second one lacks some
    have hsplit : (∃ lack, lack ≠ [] ∧ s.rest ++ lack = as) ∨
        ∃ left, s.rest = as ++ left ∧ left ++ missing = bs := by
      rcases List.append_eq_append_iff.1 hrest with ⟨lack, has, hlack⟩ | ⟨left, hleft, hbs⟩
      · by_cases hnil : lack = []
        · subst hnil
          exact .inr ⟨[], by rw [has, List.append_nil, List.append_nil], hlack⟩
        · exact .inl ⟨lack, hnil, has.symm⟩
      · exact .inr ⟨left, hleft, hbs.symm⟩
    rcases hsplit with ⟨lack, hnil, has⟩ | ⟨left, hleft, hbs⟩
    · obtain ⟨bit, hbit, t, ht⟩ := hreader.stops s lack hs hnil has
      exact ⟨bit, hbit, t, by rw [runOn_bind, ht]; rfl⟩
    · obtain ⟨bit, hbit, t, ht⟩ := hnext.stops _ missing (hs.advance hleft) hmissing
        (by rw [Stream.rest_advance hleft, hbs])
      exact ⟨bit, hbit, t, by rw [runOn_bind_of_eq_ok (hreader.takes s left hs hleft), ht]⟩

/-- A first reader that takes no bits. -/
theorem bind_nil (hreader : Reads reader [] value) (hnext : Reads (next value) bs result) :
    Reads (reader >>= next) bs result :=
  hreader.bind hnext

/-- A last reader that takes no bits. -/
theorem bind_pure (hreader : Reads reader as value) (hnext : Reads (next value) [] result) :
    Reads (reader >>= next) as result := by
  rw [← List.append_nil as]
  exact hreader.bind hnext

/-- What is left to do behind a first reader, on a stream that goes on with its bits. -/
theorem continues {s : Stream} (h : Reads reader as value) (hs : s.Formed)
    (hrest : s.rest = as ++ bs) :
    ∃ t : Stream, t.Formed ∧ t.rest = bs ∧
      ∀ next : α → Reading β, (reader >>= next).runOn s = (next value).runOn t := by
  refine ⟨s.advance as.length, hs.advance hrest, Stream.rest_advance hrest, fun next => ?_⟩
  exact runOn_bind_of_eq_ok (h.takes s bs hs hrest)

/-- The position is only good for messages: a reader that does well at every position does well. -/
theorem position_bind {next : Nat → Reading β} (h : ∀ position, Reads (next position) bs result) :
    Reads (Reading.position >>= next) bs result := by
  constructor
  · intro s tail hs hrest
    rw [runOn_bind]
    exact (h s.cursor).takes s tail hs hrest
  · intro s missing hs hmissing hrest
    rw [runOn_bind]
    exact (h s.cursor).stops s missing hs hmissing hrest

theorem bits {width : Nat} {value : UInt64} (hwidth : width < 64) (hfits : Fits width value) :
    Reads (Reading.bits width) (lowBits width value) value := by
  constructor
  · intro s tail hs hrest
    have hlength := s.length_rest
    rw [hrest, List.length_append, length_lowBits] at hlength
    have hcursor := hs.cursor
    have hfit : s.cursor + width ≤ s.length := by omega
    have hbits : lowBits width (s.store.field s.cursor width) = lowBits width value := by
      rw [← Stream.take_rest hs (Nat.le_of_lt hwidth) hfit, hrest,
        List.take_left' (length_lowBits width value)]
    have hvalue := (lowBits_inj (Store.fits_field (Nat.le_of_lt hwidth)) hfits).1 hbits
    rw [runOn_bits, Stream.next_eq_ok hs (Nat.le_of_lt hwidth) hfit, hvalue, length_lowBits]
  · intro s missing hs hmissing hrest
    have hlength := congrArg List.length hrest
    rw [List.length_append, length_lowBits, s.length_rest] at hlength
    have hpos := List.length_pos_iff.2 hmissing
    exact ⟨s.cursor, hs.cursor, s, runOn_bits_short hwidth hs (by have := hs.cursor; omega)⟩

theorem bit (bit : Bool) : Reads Reading.bit [bit] bit := by
  have hfits : Fits 1 (if bit then 1 else 0) := by
    rw [fits_iff_lt]
    cases bit <;> decide
  have hread := Reads.bits (by omega) hfits
  rw [lowBits_one_ite] at hread
  refine hread.bind_pure ?_
  cases bit <;> exact Reads.pure _

end Reads

end ApproxSet.Bits
