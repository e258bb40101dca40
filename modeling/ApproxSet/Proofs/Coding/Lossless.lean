import ApproxSet.Proofs.Coding.Decoder
import ApproxSet.Proofs.Coding.Encoder

/-!
# Flags come back from their code

A code that is read flag by flag, with the probabilities it was made with, gives back its flags. The
low end of the last interval belongs to the intervals of all flags before, so at each flag the
decoder is placed where it has to choose the flag that was encoded.

No flag needs more than three octets, which bounds the octets held back by the encoder. The number
in front of the five first octets of a code is below `2 ^ 32`, so the first octet is a zero that no
carry ever reaches.
-/

namespace ApproxSet.Coding.Range

open Bits Octets Outcome

/-- Reads one flag for each of the probabilities. -/
def Decoder.readFlags : (probabilities : List Nat) → Decoder → Reading (List Bool)
  | [], _ => return []
  | probability :: probabilities, d => do
    let (flag, d) ← d.decode probability
    return flag :: (← readFlags probabilities d)

/-- Reads a code of one flag for each of the probabilities. -/
def decodeAll (probabilities : List Nat) : Reading (List Bool) := do
  Decoder.readFlags probabilities (← Decoder.start)

variable {s : Span} {flags : List (Bool × Nat)} {code : Nat}

/-! ### Octets for each flag -/

namespace Span

theorem stretch_shifts_le (steps : Nat) (s : Span) :
    (s.stretch steps).shifts ≤ s.shifts + steps := by
  induction steps generalizing s with
  | zero => exact Nat.le_refl _
  | succ steps ih =>
    unfold stretch
    split
    · exact Nat.le_add_right _ _
    · have hrest : (s.widen.stretch steps).shifts ≤ s.shifts + 1 + steps := ih s.widen
      omega

theorem step_shifts_le (s : Span) (flag : Bool) (probability : Nat) :
    (s.step flag probability).shifts ≤ s.shifts + 3 := by
  have hstretch := stretch_shifts_le 3 (s.narrow flag probability)
  rwa [narrow_shifts] at hstretch

theorem run_shifts_le (s : Span) (flags : List (Bool × Nat)) :
    (s.run flags).shifts ≤ s.shifts + 3 * flags.length := by
  induction flags generalizing s with
  | nil => exact Nat.le_refl _
  | cons flag flags ih =>
    have hrest : (s.run (flag :: flags)).shifts ≤
        (s.step flag.1 flag.2).shifts + 3 * flags.length := ih _
    have hstep := step_shifts_le s flag.1 flag.2
    rw [List.length_cons]
    omega

end Span

/-! ### Reading the flags -/

/-- Flags are read from every code of the interval that they lead to. -/
theorem Decoder.reads_readFlags (hs : s.Usable) (hflags : ∀ flag ∈ flags, Span.Proper flag.2)
    (h : (s.run flags).Holds code) :
    ∃ count, (s.run flags).shifts = s.shifts + count ∧ s.Holds (code / 256 ^ count) ∧
      Reads (readFlags (flags.map Prod.snd) (within s (code / 256 ^ count)))
        (octetBits (bigEndian count code)) (flags.map Prod.fst) := by
  induction flags generalizing s with
  | nil =>
    refine ⟨0, rfl, ?_, Reads.pure _⟩
    rw [Nat.pow_zero, Nat.div_one]
    exact h
  | cons flag flags ih =>
    have hp := hflags flag (by simp)
    -- The octets behind those of the first flag belong to the other flags, and without them the
    -- code is one of the interval of the first flag.
    obtain ⟨behind, hbehind, hholds, hrest⟩ := ih (Span.step_usable hs hp)
      (fun other hother => hflags other (by simp [hother])) h
    obtain ⟨ahead, hahead, hhere, hflag⟩ := reads_decode flag.1 hs hp hholds
    have hdiv : code / 256 ^ (ahead + behind) = code / 256 ^ behind / 256 ^ ahead := by
      rw [Nat.add_comm, Nat.pow_add, Nat.div_div_eq_div_mul]
    refine ⟨ahead + behind, ?_, ?_, ?_⟩
    · rw [← Nat.add_assoc, ← hahead, ← hbehind]
      rfl
    · rw [hdiv]
      exact hhere
    · rw [hdiv, bigEndian_add, octetBits_append]
      exact hflag.bind (hrest.bind_pure (Reads.pure _))

/-- The code of flags, from its first octet on. -/
theorem reads_decodeAll (hflags : ∀ flag ∈ flags, Span.Proper flag.2) :
    (Span.start.run flags).base / 256 ^ (Span.start.run flags).shifts < 2 ^ 32 ∧
      Reads (decodeAll (flags.map Prod.snd))
        (octetBits (bigEndian ((Span.start.run flags).shifts + 5) (Span.start.run flags).base))
        (flags.map Prod.fst) := by
  have hbase := Span.holds_base (Span.run_usable Span.usable_start hflags)
  obtain ⟨count, hcount, hstart, hread⟩ :=
    Decoder.reads_readFlags Span.usable_start hflags hbase
  have hshifts : (Span.start.run flags).shifts = count := hcount.trans (Nat.zero_add count)
  have hlt : (Span.start.run flags).base / 256 ^ count < 0 + (2 ^ 32 - 1) := hstart.2
  rw [hshifts, Nat.add_comm count, bigEndian_add, octetBits_append]
  exact ⟨by omega, (Decoder.reads_start (by omega)).bind hread⟩

/-- The registers of an encoder are where checked arithmetic has room for one more flag. -/
structure Encoder.Steady (e : Encoder) : Prop where
  low : e.low < 2 ^ 33
  range : leastRange ≤ e.range ∧ e.range < 2 ^ 32
  pending : 0 < e.pending ∧ e.pending < 2 ^ 64

theorem Encoder.Follows.steady {e : Encoder} (h : e.Follows s) (hs : s.Usable)
    (hsmall : s.shifts + 1 < 2 ^ 64) : e.Steady := by
  have hlow := h.tracks.low
  have hcount := h.tracks.count
  have hlong := hs.1
  unfold leastRange at hlong
  refine ⟨by omega, ?_, h.tracks.pending, by omega⟩
  rw [h.range]
  exact hs

/-- Flags can be encoded, none of them brings a register out of its bounds, and reading the code
with the same probabilities gives the flags back, wherever in a stream the code stands. The code is
the low end of the interval of the flags with all its carries.

No memory has room for more than `2 ^ 62` flags, and the octets of so many do not overflow the
counter of the octets held back. -/
theorem flags_survive_coding (flags : List (Bool × Nat))
    (hflags : ∀ flag ∈ flags, 0 < flag.2 ∧ flag.2 < 2 ^ 11) (hlength : flags.length ≤ 2 ^ 62) :
    (∀ count, ∃ e, (flags.take count).foldlM (fun e flag => Encoder.encode e flag.1 flag.2)
      Encoder.start = .ok e ∧ e.Steady) ∧
    ∃ octets, encodeAll flags = .ok octets ∧ octets.head? = some 0 ∧
      value octets.reverse = (Span.start.run flags).base ∧
      ∀ s tail, s.Formed → s.rest = octetBits octets ++ tail →
        (decodeAll (flags.map Prod.snd)).runOn s =
          (.ok (flags.map Prod.fst), s.advance (8 * octets.length)) := by
  have hshifts (part : List (Bool × Nat)) (hpart : part.length ≤ flags.length) :
      (Span.start.run part).shifts + 6 < 2 ^ 64 := by
    have hmost : (Span.start.run part).shifts ≤ 0 + 3 * part.length :=
      Span.run_shifts_le Span.start part
    omega
  constructor
  · intro count
    have hpart : ∀ flag ∈ flags.take count, Span.Proper flag.2 :=
      fun flag hflag => hflags flag (List.mem_of_mem_take hflag)
    have hsmall := hshifts (flags.take count) (List.length_take_le' count flags)
    obtain ⟨e, he, hfollows⟩ :=
      Encoder.encode_run_eq_ok Encoder.follows_start Span.usable_start hpart (by omega)
    exact ⟨e, he, hfollows.steady (Span.run_usable Span.usable_start hpart) (by omega)⟩
  · have hsmall := hshifts flags (Nat.le_refl _)
    obtain ⟨hfirst, hreads⟩ := reads_decodeAll hflags
    have hroom : (Span.start.run flags).base / 256 ^ ((Span.start.run flags).shifts + 4) = 0 := by
      rw [Nat.pow_add, ← Nat.div_div_eq_div_mul]
      exact Nat.div_eq_of_lt hfirst
    have hbase : (Span.start.run flags).base < 256 ^ ((Span.start.run flags).shifts + 5) :=
      Nat.lt_of_lt_of_le ((Nat.div_eq_zero_iff_lt (Nat.pow_pos (by decide))).1 hroom)
        (Nat.pow_le_pow_right (by decide) (by omega))
    refine ⟨_, encodeAll_eq_ok hflags hsmall, head?_bigEndian hroom, ?_, ?_⟩
    · rw [value_reverse_bigEndian, Nat.mod_eq_of_lt hbase]
    · intro s tail hs hrest
      rw [hreads.takes s tail hs hrest, length_octetBits]

/-- In this code a carry passes through an octet `0xff`. The code stands behind three bits. -/
theorem carry_survives_coding :
    ∃ octets s, encodeAll [(true, 1024), (false, 1), (false, 3), (true, 1500)] = .ok octets ∧
      s.cursor = 3 ∧ s.rest.take 56 = octetBits octets ∧
      (decodeAll [1024, 1, 3, 1500]).runOn s = (.ok [true, false, false, true], s.advance 56) := by
  obtain ⟨s, hs⟩ := Stream.ofBytes_eq_ok_iff.2
    (show 8 * ([5, 0, 4, 0, 40, 3, 0, 0] : List UInt8).length + 64 ≤ 2 ^ 64 by decide)
  obtain ⟨hformed, -, hcursor, hrest⟩ := Stream.ofBytes_spec hs
  have hsplit : s.rest = [true, false, true] ++
      (octetBits [0, 128, 0, 0, 101, 0, 0] ++ List.replicate 5 false) := by
    rw [hrest]
    decide +kernel
  have hbehind := Stream.rest_advance hsplit
  obtain ⟨-, octets, hoctets, -, -, hread⟩ :=
    flags_survive_coding [(true, 1024), (false, 1), (false, 3), (true, 1500)] (by decide)
      (by decide)
  obtain rfl : octets = [0, 128, 0, 0, 101, 0, 0] :=
    Except.ok.inj (hoctets.symm.trans (by decide +kernel))
  refine ⟨_, s.advance 3, hoctets, by rw [Stream.advance, hcursor], ?_, ?_⟩
  · exact (congrArg (List.take 56) hbehind).trans (by decide +kernel)
  · exact hread _ _ (hformed.advance hsplit) hbehind

end ApproxSet.Coding.Range
