import ApproxSet.Proofs.Coding.Decoder
import ApproxSet.Proofs.Coding.Encoder
import ApproxSet.XorSet.Serial

/-!
# The flags of the slots

The slots of a filter are marked by flags, whose probabilities depend on the third that a slot lies
in. The reader takes the flags apart one by one and gives a value to each slot that is marked. With
the values that are not zero in their order, it gets back all slots from the range code of their
flags.

Whatever code it reads instead, it uses up as many octets as the range code of the flags has that it
answers. A slot that is zero is paid for by a bit of these octets.
-/

namespace ApproxSet.XorSet.Serial

open Bits Coding Octets Outcome

/-- How often the slot with the given index is zero, for thirds that are not empty. -/
def rateAt (third index : Nat) : Nat :=
  match index / third with
  | 0 => zeroRates.1
  | 1 => zeroRates.2.1
  | _ => zeroRates.2.2

/-- The flags of slots in a row, each with its probability. -/
def marks (third index : Nat) (values : List UInt64) : List (Bool × Nat) :=
  (values.zipIdx index).map fun value => (value.1 != 0, rateAt third value.2)

/-- The interval that the flags of all slots lead to. -/
def markSpan (third : Nat) (values : List UInt64) : Range.Span :=
  Range.Span.start.run (marks third 0 values)

/-- The octets of the range code of all flags. -/
def markOctets (third : Nat) (values : List UInt64) : List UInt8 :=
  bigEndian (5 + (markSpan third values).shifts) (markSpan third values).base

variable {third index : Nat} {values : List UInt64}

theorem nonzero_cons_zero (values : List UInt64) :
    (0 :: values).filter (· ≠ 0) = values.filter (· ≠ 0) :=
  List.filter_cons_of_neg (by decide)

theorem nonzero_cons {value : UInt64} (h : value ≠ 0) (values : List UInt64) :
    (value :: values).filter (· ≠ 0) = value :: values.filter (· ≠ 0) :=
  List.filter_cons_of_pos (decide_eq_true h)

theorem zeroRate_eq_ok (hthird : 0 < third) (index : Nat) :
    zeroRate index third = .ok (rateAt third index) := by
  rw [zeroRate, Checked.div_eq_ok hthird, ok_bind, rateAt]
  rcases index / third with _ | _ | behind <;> rfl

theorem balanced_rateAt (third index : Nat) : Range.Span.Balanced (rateAt third index) := by
  unfold rateAt
  split <;> exact ⟨by decide, by decide⟩

theorem marks_cons (third index : Nat) (value : UInt64) (values : List UInt64) :
    marks third index (value :: values) =
      (value != 0, rateAt third index) :: marks third (index + 1) values := rfl

@[simp]
theorem length_marks (third index : Nat) (values : List UInt64) :
    (marks third index values).length = values.length := by
  rw [marks, List.length_map, List.length_zipIdx]

theorem balanced_marks (third index : Nat) (values : List UInt64) :
    ∀ flag ∈ marks third index values, Range.Span.Balanced flag.2 := by
  intro flag hflag
  obtain ⟨value, -, hvalue⟩ := List.mem_map.1 hflag
  rw [← hvalue]
  exact balanced_rateAt third value.2

theorem proper_marks (third index : Nat) (values : List UInt64) :
    ∀ flag ∈ marks third index values, Range.Span.Proper flag.2 :=
  fun flag hflag => (balanced_marks third index values flag hflag).proper

theorem usable_markSpan (third : Nat) (values : List UInt64) : (markSpan third values).Usable :=
  Range.Span.run_usable Range.Span.usable_start (proper_marks third 0 values)

theorem shifts_markSpan_le (third : Nat) (values : List UInt64) :
    2 * (markSpan third values).shifts ≤ values.length := by
  have hshifts := Range.Span.shifts_le (balanced_marks third 0 values)
  rw [length_marks] at hshifts
  exact hshifts

theorem length_markOctets (third : Nat) (values : List UInt64) :
    (markOctets third values).length = 5 + (markSpan third values).shifts :=
  length_bigEndian _ _

theorem countP_marks_add (third index : Nat) (values : List UInt64) :
    (marks third index values).countP (fun flag => !flag.1) + (values.filter (· ≠ 0)).length =
      values.length := by
  induction values generalizing index with
  | nil => rfl
  | cons value values ih =>
    have hrest := ih (index + 1)
    rw [marks_cons]
    by_cases hzero : value = 0
    · subst hzero
      rw [nonzero_cons_zero, List.countP_cons_of_pos rfl, List.length_cons]
      omega
    · have hset : (value != 0) = true := bne_iff_ne.2 hzero
      rw [nonzero_cons hzero, hset, List.countP_cons_of_neg Bool.false_ne_true, List.length_cons,
        List.length_cons]
      omega

/-- There are no more slots than nonzero values and bits in the code of the flags. -/
theorem length_le_nonzero_add (third : Nat) (values : List UInt64) :
    values.length ≤ (values.filter (· ≠ 0)).length + 8 * (markOctets third values).length := by
  have hcleared := Range.Span.cleared_lt (balanced_marks third 0 values)
  have hcount := countP_marks_add third 0 values
  have hspan : (Range.Span.start.run (marks third 0 values)).shifts =
      (markSpan third values).shifts := rfl
  rw [length_markOctets]
  omega

/-- The range code of the flags of all slots. -/
theorem encodeMarks_eq_ok (hthird : 0 < third) (hsmall : values.length < 2 ^ 64) :
    encodeMarks values third = .ok (markOctets third values) := by
  have hflags : (values.zipIdx.mapM fun value => do
      return (value.1 != 0, ← zeroRate value.2 third)) = Except.ok (marks third 0 values) := by
    refine mapM_eq_ok_map fun value _ => ?_
    rw [zeroRate_eq_ok hthird, ok_bind]
    rfl
  have hshifts : 2 * (Range.Span.start.run (marks third 0 values)).shifts ≤ values.length :=
    shifts_markSpan_le third values
  have hcode := Range.encodeAll_eq_ok (proper_marks third 0 values) (by omega)
  rw [Nat.add_comm _ 5] at hcode
  rw [encodeMarks, hflags, ok_bind, hcode]
  rfl

/-! ### Reading the slots -/

/-- The slots are read back from a code in the interval that their flags lead to. -/
theorem reads_readSlots {s : Range.Span} {code : Nat} (announced : Nat) (hthird : 0 < third)
    (hs : s.Usable) (h : (s.run (marks third index values)).Holds code) :
    ∃ count, (s.run (marks third index values)).shifts = s.shifts + count ∧
      s.Holds (code / 256 ^ count) ∧ ∀ more,
        Reads (readSlots announced third values.length index
          (Range.Decoder.within s (code / 256 ^ count)) (values.filter (· ≠ 0) ++ more))
          (octetBits (bigEndian count code)) (values, more) := by
  induction values generalizing s index with
  | nil =>
    refine ⟨0, rfl, ?_, fun more => Reads.pure _⟩
    rw [Nat.pow_zero, Nat.div_one]
    exact h
  | cons value values ih =>
    have hp := (balanced_rateAt third index).proper
    rw [marks_cons] at h ⊢
    obtain ⟨behind, hbehind, hholds, hrest⟩ := ih (Range.Span.step_usable hs hp) h
    obtain ⟨ahead, hahead, hhere, hflag⟩ := Range.Decoder.reads_decode (value != 0) hs hp hholds
    have hdiv : code / 256 ^ (ahead + behind) = code / 256 ^ behind / 256 ^ ahead := by
      rw [Nat.add_comm, Nat.pow_add, Nat.div_div_eq_div_mul]
    refine ⟨ahead + behind, ?_, ?_, fun more => ?_⟩
    · rw [← Nat.add_assoc, ← hahead, ← hbehind]
      rfl
    · rw [hdiv]
      exact hhere
    · rw [hdiv, bigEndian_add, octetBits_append]
      refine Reads.bind_nil (Reads.lift (zeroRate_eq_ok hthird index)) ?_
      refine hflag.bind ?_
      by_cases hzero : value = 0
      · subst hzero
        exact (hrest more).bind_pure (Reads.pure _)
      · have hset : (value != 0) = true := bne_iff_ne.2 hzero
        rw [hset] at hrest
        rw [hset, nonzero_cons hzero]
        exact (hrest more).bind_pure (Reads.pure _)

/-- The range code of the flags is read as the slots that they belong to. -/
theorem reads_marks (announced : Nat) (hthird : 0 < third) (values : List UInt64) :
    ∃ decoder first behind, octetBits (markOctets third values) = first ++ behind ∧
      Reads Range.Decoder.start first decoder ∧
      Reads (readSlots announced third values.length 0 decoder (values.filter (· ≠ 0))) behind
        (values, []) := by
  have hholds : (markSpan third values).Holds (markSpan third values).base :=
    Range.Span.holds_base (usable_markSpan third values)
  obtain ⟨count, hcount, hstart, hread⟩ :=
    reads_readSlots announced hthird Range.Span.usable_start hholds
  have hshifts : (markSpan third values).shifts = count := hcount.trans (Nat.zero_add count)
  have hsplit : octetBits (markOctets third values) =
      octetBits (bigEndian 5 ((markSpan third values).base / 256 ^ count)) ++
        octetBits (bigEndian count (markSpan third values).base) := by
    rw [markOctets, hshifts, bigEndian_add, octetBits_append]
  have hlt : (markSpan third values).base / 256 ^ count < 0 + (2 ^ 32 - 1) := hstart.2
  have hslots := hread []
  rw [List.append_nil] at hslots
  exact ⟨_, _, _, hsplit, Range.Decoder.reads_start (by omega), hslots⟩

/-- Whatever the code of the flags is, the reader uses up as many octets as the flags of the slots
are worth that it answers, and it gives the values to the slots in their order. -/
theorem scans_readSlots (announced : Nat) (hthird : 0 < third) {left : Nat} {s : Range.Span}
    {d : Range.Decoder} (hd : d.range = s.range) (hs : s.Usable) (hvalues : ∀ v ∈ values, v ≠ 0) :
    Scans (readSlots announced third left index d values) fun bits answer =>
      answer.1.length = left ∧ values = answer.1.filter (· ≠ 0) ++ answer.2 ∧
        Range.Decoder.Covers s (s.run (marks third index answer.1)) bits := by
  induction left generalizing index s d values with
  | zero => exact Scans.pure ⟨rfl, rfl, .refl s⟩
  | succ left ih =>
    have hp := (balanced_rateAt third index).proper
    refine Scans.bind_nil (Reads.lift (zeroRate_eq_ok hthird index)) ?_
    refine (Range.Decoder.scans_decode hd hs hp).bind ?_
    rintro as ⟨marked, d'⟩ ⟨hcovers, hd'⟩
    have hnext : (s.step marked (rateAt third index)).Usable := Range.Span.step_usable hs hp
    cases marked with
    | false =>
      refine (ih hd' hnext hvalues).bind ?_
      rintro bs ⟨slots, rest⟩ ⟨hlength, hslots, hbehind⟩
      refine Scans.pure ⟨congrArg (· + 1) hlength, ?_, ?_⟩
      · rw [nonzero_cons_zero]
        exact hslots
      · rw [List.append_nil]
        exact hcovers.trans hbehind
    | true =>
      cases values with
      | nil => exact Scans.corrupt _
      | cons value values =>
        have hzero : value ≠ 0 := hvalues value (by simp)
        refine (ih hd' hnext fun v hv => hvalues v (by simp [hv])).bind ?_
        rintro bs ⟨slots, rest⟩ ⟨hlength, hslots, hbehind⟩
        refine Scans.pure ⟨congrArg (· + 1) hlength, ?_, ?_⟩
        · rw [nonzero_cons hzero, List.cons_append, ← hslots]
        · rw [List.append_nil, marks_cons, bne_iff_ne.2 hzero]
          exact hcovers.trans hbehind

end ApproxSet.XorSet.Serial
