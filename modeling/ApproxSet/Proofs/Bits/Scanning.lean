import ApproxSet.Proofs.Bits.Reading

/-!
# Readers that go from left to right

A reader scans if on every stream it either takes some bits, which it reads as its answer whatever
follows them, or reports that the input is cut short or damaged. So it never breaks a promise, and
what it does depends on the bits that it takes and on nothing behind them.

A condition on the bits and the answer goes along. For readers in a row it speaks of the bits of all
of them, so what an input looks like is found out in the order in which it is read.

Where a reader fails, a second condition says which bits it takes for damaged. Without damage it has
come to the end of the stream.
-/

namespace ApproxSet.Bits

open Outcome

/-- What may be reported of an input of `length` bits. -/
inductive Unreadable (length : Nat) : Failure → Prop where
  | truncated {bit : Nat} (h : bit ≤ length) : Unreadable length (.refused (.truncated bit))
  | corrupt (damage : Damage) : Unreadable length (.refused (.corrupt damage))

/-- On every stream the reader takes bits that meet the condition together with its answer, or it
reports what is wrong with the stream. -/
def Scans {α : Type} (reader : Reading α) (post : List Bool → α → Prop) : Prop :=
  ∀ s : Stream, s.Formed →
    (∃ bits tail value, s.rest = bits ++ tail ∧ Reads reader bits value ∧ post bits value) ∨
      ∃ failure t, reader.runOn s = (.error failure, t) ∧ Unreadable s.length failure

namespace Scans

open Reading

variable {α β : Type} {reader : Reading α} {next : α → Reading β} {value : α}
  {mid : List Bool → α → Prop} {post : List Bool → β → Prop}

theorem mono {weaker : List Bool → α → Prop} (h : Scans reader mid)
    (hle : ∀ bits value, mid bits value → weaker bits value) : Scans reader weaker := by
  intro s hs
  rcases h s hs with ⟨bits, tail, value, hrest, hreads, hmid⟩ | hfail
  · exact .inl ⟨bits, tail, value, hrest, hreads, hle bits value hmid⟩
  · exact .inr hfail

/-- A reader that takes no bits. -/
theorem of_reads (h : Reads reader [] value) (hmid : mid [] value) : Scans reader mid :=
  fun s _ => .inl ⟨[], s.rest, value, rfl, h, hmid⟩

theorem pure (hmid : mid [] value) : Scans (Pure.pure value) mid :=
  of_reads (Reads.pure value) hmid

/-- The second reader goes on behind the bits of the first one. -/
theorem bind (h : Scans reader mid)
    (hnext : ∀ as value, mid as value →
      Scans (next value) fun bs result => post (as ++ bs) result) :
    Scans (reader >>= next) post := by
  intro s hs
  rcases h s hs with ⟨as, tail, value, hrest, hreads, hmid⟩ | ⟨failure, t, ht, hfail⟩
  · have hrun : (reader >>= next).runOn s = (next value).runOn (s.advance as.length) :=
      runOn_bind_of_eq_ok (hreads.takes s tail hs hrest)
    rcases hnext as value hmid _ (hs.advance hrest) with
      ⟨bs, tail', result, hrest', hreads', hpost⟩ | ⟨failure, t, ht, hfail⟩
    · rw [Stream.rest_advance hrest] at hrest'
      subst hrest'
      refine .inl ⟨as ++ bs, tail', result, ?_, hreads.bind hreads', hpost⟩
      rw [hrest, List.append_assoc]
    · exact .inr ⟨failure, t, hrun.trans ht, hfail⟩
  · exact .inr ⟨failure, t, by rw [runOn_bind, ht], hfail⟩

/-- A first reader that takes no bits. -/
theorem bind_nil (h : Reads reader [] value) (hnext : Scans (next value) post) :
    Scans (reader >>= next) post := by
  have hfirst : Scans reader fun as given => as = [] ∧ given = value := of_reads h ⟨rfl, rfl⟩
  refine hfirst.bind ?_
  rintro as given ⟨rfl, rfl⟩
  exact hnext

/-- Behind a check its condition holds. -/
theorem expect_bind {condition : Prop} [Decidable condition] {damage : Damage}
    {next : Unit → Reading β} (h : condition → Scans (next ()) post) :
    Scans (Reading.expect condition damage >>= next) post := by
  by_cases hholds : condition
  · exact bind_nil (Reads.expect hholds) (h hholds)
  · intro s hs
    refine .inr ⟨_, s, ?_, .corrupt damage⟩
    rw [runOn_bind, runOn_expect, demand, if_neg hholds]
    rfl

/-- A reader that reports damage. -/
theorem corrupt (damage : Damage) : Scans (throw (.refused (.corrupt damage))) mid :=
  fun s _ => .inr ⟨_, s, rfl, .corrupt damage⟩

/-- The position is only good for messages, provided that the bits determine the answer. -/
theorem position_bind {next : Nat → Reading β} (h : ∀ position, Scans (next position) post)
    (hreads : ∀ bits result, post bits result → Reads (Reading.position >>= next) bits result) :
    Scans (Reading.position >>= next) post := by
  intro s hs
  rcases h s.cursor s hs with ⟨bits, tail, result, hrest, -, hpost⟩ | ⟨failure, t, ht, hfail⟩
  · exact .inl ⟨bits, tail, result, hrest, hreads bits result hpost, hpost⟩
  · exact .inr ⟨failure, t, (runOn_bind _ _ s).trans ht, hfail⟩

/-- A field that lies within the stream is read, whatever it holds. -/
theorem bits {width : Nat} (hwidth : width < 64) :
    Scans (Reading.bits width) fun bits value => bits = lowBits width value ∧ Fits width value := by
  intro s hs
  by_cases hshort : s.length < s.cursor + width
  · exact .inr ⟨_, s, runOn_bits_short hwidth hs hshort, .truncated hs.cursor⟩
  · have hfits : Fits width (s.store.field s.cursor width) :=
      Store.fits_field (Nat.le_of_lt hwidth)
    have hfield : s.rest.take width = lowBits width (s.store.field s.cursor width) := by
      apply List.ext_getElem?
      intro i
      rw [List.getElem?_take]
      by_cases hi : i < width
      · rw [if_pos hi, Stream.getElem?_rest (by omega), getElem?_lowBits _ hi,
          Store.testBit_field (by omega), decide_eq_true hi, Bool.true_and]
      · rw [if_neg hi, List.getElem?_eq_none (by rw [length_lowBits]; omega)]
    refine .inl ⟨_, s.rest.drop width, _, ?_, Reads.bits hwidth hfits, rfl, hfits⟩
    rw [← hfield, List.take_append_drop]

theorem bit : Scans Reading.bit fun bits bit => bits = [bit] := by
  refine (Scans.bits (show 1 < 64 by omega)).bind ?_
  rintro as value ⟨rfl, hfits⟩
  have hvalue : value.toNat < 2 := fits_iff_lt.1 hfits
  refine Scans.pure ?_
  obtain rfl | rfl : value = 0 ∨ value = 1 := by
    rcases (by omega : value.toNat = 0 ∨ value.toNat = 1) with h | h
    · exact .inl (UInt64.toNat_inj.1 h)
    · exact .inr (UInt64.toNat_inj.1 h)
  · rfl
  · rfl

end Scans

/-! ### What is reported -/

/-- If the reader fails, then the bits that it has taken are damaged in a way that the condition
tells, or there is nothing left to take. -/
def Reports {α : Type} (reader : Reading α) (flawed : List Bool → Damage → Prop) : Prop :=
  ∀ (s t : Stream) (failure : Failure), s.Formed → reader.runOn s = (.error failure, t) →
    (∃ bits tail damage, s.rest = bits ++ tail ∧ flawed bits damage ∧
        failure = .refused (.corrupt damage) ∧ t = s.advance bits.length) ∨
      failure = .refused (.truncated s.length) ∧ t = { s with cursor := s.length }

namespace Reports

open Reading

variable {α β : Type} {reader : Reading α} {next : α → Reading β} {mid : List Bool → α → Prop}
  {flawed weaker : List Bool → Damage → Prop}

theorem mono (h : Reports reader flawed)
    (hle : ∀ bits damage, flawed bits damage → weaker bits damage) : Reports reader weaker := by
  intro s t failure hs hrun
  rcases h s t failure hs hrun with ⟨bits, tail, damage, hrest, hflawed, hreport⟩ | hend
  · exact .inl ⟨bits, tail, damage, hrest, hle bits damage hflawed, hreport⟩
  · exact .inr hend

theorem pure (value : α) : Reports (Pure.pure value) flawed := by
  intro s t failure _ h
  cases h

/-- The bits of the first reader come before those that the second one takes for damaged. -/
theorem bind (hfirst : Reports reader flawed) (hscans : Scans reader mid)
    (hnext : ∀ as value, mid as value →
      Reports (next value) fun bs damage => flawed (as ++ bs) damage) :
    Reports (reader >>= next) flawed := by
  intro s t failure hs h
  rcases hscans s hs with ⟨as, tail, value, hrest, hreads, hmid⟩ | ⟨failure', t', ht', -⟩
  · rw [runOn_bind_of_eq_ok (hreads.takes s tail hs hrest)] at h
    rcases hnext as value hmid _ t failure (hs.advance hrest) h with
      ⟨bs, tail', damage, hrest', hflawed, hfailure, ht⟩ | hend
    · rw [Stream.rest_advance hrest] at hrest'
      subst hrest'
      refine .inl ⟨as ++ bs, tail', damage, ?_, hflawed, hfailure, ?_⟩
      · rw [hrest, List.append_assoc]
      · rw [ht, List.length_append]
        simp only [Stream.advance, Nat.add_assoc]
    · exact .inr hend
  · rw [runOn_bind, ht'] at h
    cases h
    exact hfirst s t failure hs ht'

theorem expect_bind {condition : Prop} [Decidable condition] {damage : Damage}
    {next : Unit → Reading β} (hflawed : ¬condition → flawed [] damage)
    (hnext : condition → Reports (next ()) flawed) :
    Reports (Reading.expect condition damage >>= next) flawed := by
  intro s t failure hs h
  rw [runOn_bind, runOn_expect, demand] at h
  by_cases hholds : condition
  · rw [if_pos hholds] at h
    exact hnext hholds s t failure hs h
  · rw [if_neg hholds] at h
    cases h
    exact .inl ⟨[], s.rest, damage, rfl, hflawed hholds, rfl, rfl⟩

/-- A single bit is only lacking at the very end. -/
theorem bit : Reports Reading.bit flawed := by
  intro s t failure hs h
  have hcursor := hs.cursor
  by_cases hshort : s.length < s.cursor + 1
  · have hend : s.cursor = s.length := by omega
    rw [Reading.bit, runOn_bind, runOn_bits_short (by omega) hs hshort] at h
    cases h
    exact .inr ⟨by rw [hend], congrArg (Stream.mk s.store s.length) hend⟩
  · rw [Reading.bit, runOn_bind, runOn_bits,
      Stream.next_eq_ok hs (show 1 ≤ 64 by omega) (by omega)] at h
    cases h

end Reports

end ApproxSet.Bits
