import ApproxSet.Proofs.Bits.Scanning
import ApproxSet.Proofs.Coding.Span

/-!
# The decoder follows a code through its intervals

A decoder that is placed in the interval of the encoder, at the distance of the code from its low
end, reads the flag that leads to the next interval with this code, and is placed in that one. It
reads as many octets of the code as the interval was stretched by.

An input may hold a code that no encoder puts out, and that lies in no interval. Still the length of
the interval only depends on the flags that are answered, so the decoder reads as many octets as
they are worth.
-/

namespace ApproxSet.Coding.Range.Decoder

open Bits Octets Outcome

/-- The decoder placed in an interval, at a code that the interval holds. -/
def within (s : Span) (code : Nat) : Decoder :=
  ⟨s.range, code - s.base⟩

variable {s : Span} {flag : Bool} {probability code : Nat}

theorem within_range (s : Span) (code : Nat) : (within s code).range = s.range := rfl

theorem octetBits_singleton (octet : UInt8) : octetBits [octet] = lowBits 8 octet.toUInt64 :=
  List.append_nil _

theorem reads_octet (octet : UInt8) :
    Reads (Reading.bits 8) (octetBits [octet]) octet.toUInt64 := by
  rw [octetBits_singleton]
  exact Reads.bits (by omega) (fits_toUInt64 octet)

theorem reads_nextOctet (code : Nat) (octet : UInt8) :
    Reads (nextOctet code) (octetBits [octet]) (code * 2 ^ 8 % 2 ^ 32 + octet.toNat) := by
  rw [← UInt8.toNat_toUInt64 octet]
  exact (reads_octet octet).bind_pure (Reads.pure _)

/-- The next octet of a code, for a decoder that has all octets in front of it. -/
theorem reads_nextOctet_of_lt {count low : Nat} (hlow : low ≤ code / 256 ^ (count + 1))
    (hshort : code / 256 ^ (count + 1) - low < 2 ^ 24) :
    Reads (nextOctet (code / 256 ^ (count + 1) - low))
      (octetBits (bigEndian 1 (code / 256 ^ count))) (code / 256 ^ count - 256 * low) := by
  have hread := reads_nextOctet (code / 256 ^ (count + 1) - low) (UInt8.ofNat (code / 256 ^ count))
  have hdiv : code / 256 ^ (count + 1) = code / 256 ^ count / 256 := by
    rw [Nat.pow_succ, Nat.div_div_eq_div_mul]
  rw [hdiv] at hlow hshort hread ⊢
  rw [UInt8.toNat_ofNat'] at hread
  have hvalue : (code / 256 ^ count / 256 - low) * 2 ^ 8 % 2 ^ 32 + code / 256 ^ count % 2 ^ 8 =
      code / 256 ^ count - 256 * low := by
    omega
  rw [hvalue] at hread
  exact hread

theorem reads_stretch {steps : Nat} (h : (s.stretch steps).Holds code) :
    ∃ count, (s.stretch steps).shifts = s.shifts + count ∧ s.Holds (code / 256 ^ count) ∧
      Reads (stretch steps (within s (code / 256 ^ count))) (octetBits (bigEndian count code))
        (within (s.stretch steps) code) := by
  induction steps generalizing s with
  | zero =>
    refine ⟨0, rfl, ?_, ?_⟩
    · rw [Nat.pow_zero, Nat.div_one]
      exact h
    · rw [Nat.pow_zero, Nat.div_one]
      exact Reads.pure _
  | succ steps ih =>
    unfold stretch
    unfold Span.stretch at h ⊢
    by_cases hlong : leastRange ≤ s.range
    · rw [if_pos hlong] at h ⊢
      refine ⟨0, rfl, ?_, ?_⟩
      · rw [Nat.pow_zero, Nat.div_one]
        exact h
      · rw [Nat.pow_zero, Nat.div_one, within_range, if_pos hlong]
        exact Reads.pure _
    · rw [if_neg hlong] at h ⊢
      obtain ⟨count, hshifts, hholds, hread⟩ := ih h
      have hshort : s.range < 2 ^ 24 := Nat.lt_of_not_le hlong
      have hhere : s.Holds (code / 256 ^ (count + 1)) := by
        rw [Nat.pow_succ, ← Nat.div_div_eq_div_mul]
        exact hholds.of_widen
      obtain ⟨hlow, hhigh⟩ := hhere
      have hwiden : s.range * 2 ^ 8 % 2 ^ 32 = 256 * s.range := by omega
      refine ⟨count + 1, ?_, ⟨hlow, hhigh⟩, ?_⟩
      · rw [hshifts]
        show s.shifts + 1 + count = s.shifts + (count + 1)
        omega
      · rw [Nat.add_comm count 1, bigEndian_add, octetBits_append, Nat.add_comm 1 count]
        rw [within_range, if_neg hlong, hwiden]
        exact (reads_nextOctet_of_lt hlow (by omega)).bind hread

/-- A flag is read from a code of the interval that the flag leads to. -/
theorem reads_decode (flag : Bool) (hs : s.Usable) (hp : Span.Proper probability)
    (h : (s.step flag probability).Holds code) :
    ∃ count, (s.step flag probability).shifts = s.shifts + count ∧ s.Holds (code / 256 ^ count) ∧
      Reads ((within s (code / 256 ^ count)).decode probability)
        (octetBits (bigEndian count code)) (flag, within (s.step flag probability) code) := by
  obtain ⟨hleast, hmost⟩ := Span.lower_lt hs hp
  have hlt := hs.2
  obtain ⟨count, hshifts, hholds, hread⟩ := reads_stretch h
  rw [Span.narrow_shifts] at hshifts
  have hhere : s.Holds (code / 256 ^ count) := hholds.of_narrow (Nat.le_of_add_right_le hmost)
  refine ⟨count, hshifts, hhere, ?_⟩
  have hlower : lowerPart (within s (code / 256 ^ count)).range probability =
      .ok (s.range / 2 ^ 11 * probability) :=
    Checked.mul_eq_ok (by show s.range / 2 ^ 11 * probability < 2 ^ 32; omega)
  refine Reads.bind_nil (Reads.lift hlower) ?_
  obtain ⟨hlow, hhigh⟩ := hholds
  cases flag with
  | false =>
    have hlow : s.base ≤ code / 256 ^ count := hlow
    have hhigh : code / 256 ^ count < s.base + s.range / 2 ^ 11 * probability := hhigh
    have hcleared : (within s (code / 256 ^ count)).code < s.range / 2 ^ 11 * probability := by
      show code / 256 ^ count - s.base < _
      omega
    rw [if_pos hcleared]
    exact hread.bind_pure (Reads.pure _)
  | true =>
    have hlow : s.base + s.range / 2 ^ 11 * probability ≤ code / 256 ^ count := hlow
    have hset : s.range / 2 ^ 11 * probability ≤ (within s (code / 256 ^ count)).code := by
      show _ ≤ code / 256 ^ count - s.base
      omega
    rw [if_neg (Nat.not_lt.2 hset)]
    refine Reads.bind_nil (Reads.lift (Checked.sub_eq_ok hset)) ?_
    refine Reads.bind_nil (Reads.lift (Checked.sub_eq_ok (Nat.le_of_add_right_le hmost))) ?_
    have hcode : (within s (code / 256 ^ count)).code - s.range / 2 ^ 11 * probability =
        code / 256 ^ count - (s.base + s.range / 2 ^ 11 * probability) := Nat.sub_sub _ _ _
    rw [hcode]
    exact hread.bind_pure (Reads.pure _)

/-- The decoder starts on the first five octets of a code, the first of which is zero. -/
theorem reads_start (h : code < 2 ^ 32) :
    Reads start (octetBits (bigEndian 5 code)) (within Span.start code) := by
  have htop : code / 256 ^ 4 = 0 := Nat.div_eq_of_lt h
  have hstep : ∀ count, code / 256 ^ (count + 1) < 2 ^ 24 →
      Reads (nextOctet (code / 256 ^ (count + 1)))
        (octetBits (bigEndian 1 (code / 256 ^ count))) (code / 256 ^ count) := by
    intro count hshort
    have hread := reads_nextOctet_of_lt (Nat.zero_le _) hshort
    rw [Nat.mul_zero, Nat.sub_zero, Nat.sub_zero] at hread
    exact hread
  have hfirst : Reads (Reading.bits 8) (octetBits (bigEndian 1 (code / 256 ^ 4))) 0 := by
    rw [htop]
    exact reads_octet 0
  have hsecond := hstep 3 (by omega)
  rw [htop] at hsecond
  rw [show 5 = 1 + (1 + (1 + (1 + 1))) from rfl, bigEndian_add, bigEndian_add, bigEndian_add,
    bigEndian_add, octetBits_append, octetBits_append, octetBits_append, octetBits_append]
  refine Reads.position_bind fun position => ?_
  refine hfirst.bind (Reads.bind_nil (Reads.expect rfl) ?_)
  refine hsecond.bind ((hstep 2 (by omega)).bind ((hstep 1 (by omega)).bind ?_))
  have hlast := hstep 0 (by omega)
  rw [Nat.pow_zero, Nat.div_one] at hlast
  exact hlast.bind_pure (Reads.pure _)

/-! ### Codes of any kind -/

theorem scans_octet :
    Scans (Reading.bits 8) fun bits value =>
      ∃ octet : UInt8, bits = octetBits [octet] ∧ value = octet.toUInt64 := by
  refine (Scans.bits (by omega)).mono ?_
  rintro bits value ⟨rfl, hfits⟩
  refine ⟨value.toUInt8, ?_, (toUInt64_toUInt8 hfits).symm⟩
  rw [octetBits_singleton, toUInt64_toUInt8 hfits]

theorem scans_nextOctet (code : Nat) :
    Scans (nextOctet code) fun bits next =>
      ∃ octet : UInt8, bits = octetBits [octet] ∧ next = code * 2 ^ 8 % 2 ^ 32 + octet.toNat := by
  refine scans_octet.bind ?_
  rintro as value ⟨octet, rfl, rfl⟩
  refine Scans.pure ⟨octet, List.append_nil _, ?_⟩
  rw [UInt8.toNat_toUInt64]

/-- The bits are as many octets as lie between the interval `s` and the interval `t`. -/
def Covers (s t : Span) (bits : List Bool) : Prop :=
  ∃ octets, bits = octetBits octets ∧ t.shifts = s.shifts + octets.length

theorem Covers.refl (s : Span) : Covers s s [] :=
  ⟨[], rfl, rfl⟩

theorem Covers.trans {t u : Span} {as bs : List Bool} (hst : Covers s t as) (htu : Covers t u bs) :
    Covers s u (as ++ bs) := by
  obtain ⟨first, rfl, hfirst⟩ := hst
  obtain ⟨second, rfl, hsecond⟩ := htu
  refine ⟨first ++ second, (octetBits_append first second).symm, ?_⟩
  rw [hsecond, hfirst, List.length_append, Nat.add_assoc]

theorem scans_stretch {steps : Nat} {d : Decoder} (hd : d.range = s.range) :
    Scans (stretch steps d) fun bits d' =>
      Covers s (s.stretch steps) bits ∧ d'.range = (s.stretch steps).range := by
  induction steps generalizing s d with
  | zero => exact Scans.pure ⟨.refl s, hd⟩
  | succ steps ih =>
    unfold stretch Span.stretch
    rw [hd]
    split
    case isTrue hlong => exact Scans.pure ⟨.refl s, hd⟩
    case isFalse hshort =>
      have hshort : s.range < 2 ^ 24 := Nat.lt_of_not_le hshort
      have hwiden : s.range * 2 ^ 8 % 2 ^ 32 = s.widen.range := by
        show s.range * 2 ^ 8 % 2 ^ 32 = 256 * s.range
        omega
      refine (scans_nextOctet d.code).bind ?_
      rintro as code ⟨octet, rfl, -⟩
      refine (ih hwiden).mono ?_
      rintro bits d' ⟨hcovers, hrange⟩
      have hone : Covers s s.widen (octetBits [octet]) := ⟨[octet], rfl, rfl⟩
      exact ⟨hone.trans hcovers, hrange⟩

/-- Whatever the code is, the flag that is answered decides how many octets are read. -/
theorem scans_decode {d : Decoder} (hd : d.range = s.range) (hs : s.Usable)
    (hp : Span.Proper probability) :
    Scans (d.decode probability) fun bits answer =>
      Covers s (s.step answer.1 probability) bits ∧
        answer.2.range = (s.step answer.1 probability).range := by
  obtain ⟨hleast, hmost⟩ := Span.lower_lt hs hp
  have hlt := hs.2
  have hlower : lowerPart d.range probability = .ok (s.range / 2 ^ 11 * probability) := by
    rw [hd]
    exact Checked.mul_eq_ok (by omega)
  have hstep : ∀ flag, Covers s (s.narrow flag probability) [] :=
    fun flag => ⟨[], rfl, Span.narrow_shifts s flag probability⟩
  refine Scans.bind_nil (Reads.lift hlower) ?_
  split
  case isTrue hcleared =>
    have hrange : s.range / 2 ^ 11 * probability = (s.narrow false probability).range := rfl
    refine (scans_stretch (d := ⟨_, d.code⟩) hrange).bind ?_
    rintro as d' ⟨hcovers, hd'⟩
    refine Scans.pure ⟨?_, hd'⟩
    rw [List.append_nil]
    exact (hstep false).trans hcovers
  case isFalse hset =>
    have hrange : d.range - s.range / 2 ^ 11 * probability =
        (s.narrow true probability).range := by
      rw [hd]
      rfl
    refine Scans.bind_nil (Reads.lift (Checked.sub_eq_ok (Nat.le_of_not_lt hset))) ?_
    refine Scans.bind_nil (Reads.lift (Checked.sub_eq_ok (by omega))) ?_
    refine (scans_stretch (d := ⟨_, d.code - s.range / 2 ^ 11 * probability⟩) hrange).bind ?_
    rintro as d' ⟨hcovers, hd'⟩
    refine Scans.pure ⟨?_, hd'⟩
    rw [List.append_nil]
    exact (hstep true).trans hcovers

/-- The decoder starts with five octets, the first of which has to be zero. -/
theorem scans_start :
    Scans start fun bits d =>
      ∃ code < 2 ^ 32, bits = octetBits (bigEndian 5 code) ∧ d = within Span.start code := by
  refine Scans.position_bind (fun position => ?_) ?_
  · refine scans_octet.bind ?_
    rintro firstBits first ⟨octet, rfl, rfl⟩
    refine Scans.expect_bind fun hzero => ?_
    obtain rfl : octet = 0 := UInt8.toUInt64_inj.1 hzero
    refine (scans_nextOctet 0).bind ?_
    rintro bits₁ code₁ ⟨a, rfl, rfl⟩
    refine (scans_nextOctet _).bind ?_
    rintro bits₂ code₂ ⟨b, rfl, rfl⟩
    refine (scans_nextOctet _).bind ?_
    rintro bits₃ code₃ ⟨c, rfl, rfl⟩
    refine (scans_nextOctet _).bind ?_
    rintro bits₄ code₄ ⟨e, rfl, rfl⟩
    have ha := a.toNat_lt
    have hb := b.toNat_lt
    have hc := c.toNat_lt
    have he := e.toNat_lt
    -- the five octets in the order of their weight
    have hoctets := littleEndian_value [e, c, b, a, 0]
    have hvalue : value [e, c, b, a, 0] = e.toNat + 256 * (c.toNat + 256 * (b.toNat + 256 *
        (a.toNat + 256 * 0))) := rfl
    refine Scans.pure ⟨value [e, c, b, a, 0], by omega, ?_, ?_⟩
    · rw [bigEndian]
      exact congrArg (fun octets => octetBits octets.reverse) hoctets.symm
    · rw [within, hvalue]
      congr 1
      show _ = _ - 0
      omega
  · rintro bits d ⟨code, hcode, rfl, rfl⟩
    exact reads_start hcode

end ApproxSet.Coding.Range.Decoder
