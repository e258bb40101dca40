import ApproxSet.ByName
import ApproxSet.Proofs.Bloom
import ApproxSet.Proofs.Cuckoo.Ending
import ApproxSet.Proofs.XorSet.Ending

/-!
# Settings that cannot be used

The kinds that take a setting look at it before they look at the keys. A fingerprint width outside
its range and a Bloom filter without bits for its keys are turned down as invalid arguments. Nobody
looks at the other end of the range for Bloom filters: the number of bits is a product, and if it,
or the product that maps a hash onto so many bits, does not fit into a machine word, the
construction breaks off instead of turning the setting down.

The other kinds have no numbers that depend on a setting alone. But they do not look at the number
of the keys either, and the sizes and products of a table for more than `2 ^ 32` keys need not fit
into their words.
-/

namespace ApproxSet.ByName

open Outcome

/-- What is wrong with a setting that a kind turns down for all keys. -/
def misuse (kind : Kind) (setting : Nat) : Option Misuse :=
  match kind with
  | .xorPacked | .cuckooPacked =>
    if 0 < setting ∧ setting ≤ 32 then none else some (.fingerprintWidth setting)
  | .bloom => if 0 < setting then none else some .noBitsPerKey
  | .xor8 | .xor16 | .cuckoo8x4 | .cuckoo16x4 => none

/-- The reasons for which a kind turns distinct keys down, if it can use the setting. -/
def Kind.reasons : Kind → Refusal → Prop
  | .xor8 | .xor16 | .xorPacked => XorSet.NamesFullSlot
  | .bloom => fun _ => False
  | .cuckooPacked => (· = .evictionLimit 10000)
  | .cuckoo8x4 | .cuckoo16x4 => (· = .evictionLimit 1000)

/-- The table would exceed the memory that there can be. Where entries are packed, the number of
bits overruns its word before. -/
def Kind.TooLarge (kind : Kind) (keys : List UInt64) : Prop :=
  match kind with
  | .cuckoo8x4 => Cuckoo.TooLarge 4 keys
  | .cuckoo16x4 => Cuckoo.TooLarge 8 keys
  | .xor8 | .xor16 | .xorPacked | .bloom | .cuckooPacked => False

/-- A number overruns its machine word while a filter is built: a size, the counter of the attempts
of an endless search, or the product that maps a hash onto a table. -/
def Kind.Overruns (kind : Kind) (entropy : Cuckoo.Random) (keys : List UInt64) (setting : Nat) :
    Prop :=
  match kind with
  | .xor8 | .xor16 => XorSet.Settings.Overruns {} (fun _ => True) keys
  | .xorPacked => XorSet.Settings.Overruns { width := setting } (XorSet.BitsFit setting) keys
  | .bloom => Bloom.Overflows keys setting
  | .cuckooPacked => Cuckoo.PackedOverruns entropy keys setting
  | .cuckoo8x4 => Cuckoo.LanesOverrun Cuckoo.ByteBuckets.empty 8 entropy keys
  | .cuckoo16x4 => Cuckoo.LanesOverrun Cuckoo.WordBuckets.empty 16 entropy keys

/-- What is left of that for up to `2 ^ 32` keys: the counter of the attempts, and the products of a
Bloom filter. -/
def Kind.OverrunsFew (kind : Kind) (keys : List UInt64) (setting : Nat) : Prop :=
  match kind with
  | .xor8 | .xor16 | .xorPacked => XorSet.Stuck keys
  | .bloom => Bloom.Overflows keys setting
  | .cuckooPacked | .cuckoo8x4 | .cuckoo16x4 => False

variable {keys : List UInt64} {kind : Kind} {setting : Nat} {cause : Misuse}
  {entropy : Cuckoo.Random}

/-- Widths that are not turned down are those that fingerprints can have. -/
theorem width_of_misuse (h : misuse .xorPacked setting = none) : 0 < setting ∧ setting ≤ 32 := by
  simpa [misuse] using h

/-- Unusable settings are turned down, whatever the keys. -/
theorem build_of_misuse (h : misuse kind setting = some cause) :
    (build kind entropy keys setting).outcome = refuse (.invalidArgument cause) := by
  cases kind with
  | xorPacked =>
    simp only [misuse, Option.ite_none_left_eq_some, Option.some.injEq] at h
    obtain ⟨hwidth, rfl⟩ := h
    simp only [build, XorSet.packedOf, XorSet.buildPacked, XorSet.demandWidth,
      Traced.outcome_bind, Traced.outcome_lift, demand_eq_refuse hwidth, refuse_bind]
  | cuckooPacked =>
    simp only [misuse, Option.ite_none_left_eq_some, Option.some.injEq] at h
    obtain ⟨hwidth, rfl⟩ := h
    simp only [build, Cuckoo.packedOf, Cuckoo.buildPacked, Cuckoo.demandWidth,
      Traced.outcome_bind, Traced.outcome_lift, demand_eq_refuse hwidth, refuse_bind]
  | bloom =>
    simp only [misuse, Option.ite_none_left_eq_some, Option.some.injEq] at h
    obtain ⟨hbits, rfl⟩ := h
    simp only [build, Bloom.build, Traced.outcome_bind, Traced.outcome_lift,
      demand_eq_refuse hbits, refuse_bind]
  | xor8 | xor16 | cuckoo8x4 | cuckoo16x4 => simp [misuse] at h

theorem bloom_ends (hpos : 0 < setting) :
    Ends (fun _ => False) (Bloom.Overflows keys setting) (Bloom.build keys setting) := by
  by_cases hoverflows : Bloom.Overflows keys setting
  · rw [Bloom.build_of_overflows hpos hoverflows]
    exact .overrun hoverflows
  · obtain ⟨filter, hfilter, -⟩ := Bloom.build_of_fits hpos hoverflows
    rw [hfilter]
    exact .answer filter hoverflows

/-- The construction of one kind of filter is the construction of a filter of any kind. -/
theorem ends_wrapped {α : Type} {reasons : Refusal → Prop} {overrun : Prop} {run : Traced α}
    (wrap : α → AnyFilter) (h : Ends reasons overrun run.outcome) :
    Ends reasons overrun (run >>= fun filter => pure (wrap filter)).outcome := by
  rw [Traced.outcome_bind]
  exact h.bind fun filter _ => .answer (wrap filter)

theorem violate_wrapped {α : Type} {breach : Breach} {run : Traced α} (wrap : α → AnyFilter)
    (h : run.outcome = violate breach) :
    (run >>= fun filter => pure (wrap filter)).outcome = violate breach := by
  rw [Traced.outcome_bind, h]
  rfl

/-- Usable settings leave three ways to end, if the table does not exceed the memory. -/
theorem build_ends (h : misuse kind setting = none) (hdistinct : keys.Nodup)
    (hroom : ¬kind.TooLarge keys) :
    Ends kind.reasons (kind.Overruns entropy keys setting)
      (build kind entropy keys setting).outcome := by
  cases kind with
  | xor8 => exact ends_wrapped .xor8 (XorSet.bytesOf_ends hdistinct)
  | xor16 => exact ends_wrapped .xor16 (XorSet.wordsOf_ends hdistinct)
  | xorPacked =>
    obtain ⟨hpos, hle⟩ := width_of_misuse h
    exact ends_wrapped .xorPacked (XorSet.packedOf_ends hdistinct hpos hle)
  | bloom =>
    have hpos : 0 < setting := by
      simpa only [misuse, ite_eq_left_iff, reduceCtorEq, imp_false, not_not] using h
    exact ends_wrapped .bloom (bloom_ends hpos)
  | cuckooPacked =>
    obtain ⟨hpos, hle⟩ := width_of_misuse h
    exact ends_wrapped .cuckooPacked (Cuckoo.packedOf_ends hpos hle)
  | cuckoo8x4 =>
    exact ends_wrapped .cuckoo8x4 (Cuckoo.buildLanes_ends Cuckoo.ByteBuckets.laneKind hroom)
  | cuckoo16x4 =>
    exact ends_wrapped .cuckoo16x4 (Cuckoo.buildLanes_ends Cuckoo.WordBuckets.laneKind hroom)

theorem build_of_tooLarge (h : kind.TooLarge keys) :
    (build kind entropy keys setting).outcome = violate .capacity := by
  cases kind with
  | cuckoo8x4 =>
    exact violate_wrapped .cuckoo8x4
      (Cuckoo.buildLanes_eq_capacity Cuckoo.ByteBuckets.laneKind h)
  | cuckoo16x4 =>
    exact violate_wrapped .cuckoo16x4
      (Cuckoo.buildLanes_eq_capacity Cuckoo.WordBuckets.laneKind h)
  | xor8 | xor16 | xorPacked | bloom | cuckooPacked => exact h.elim

/-- For up to `2 ^ 32` keys all sizes fit, and so do the products of all kinds but Bloom filters. -/
theorem overruns_iff_few (hfew : keys.length ≤ 2 ^ 32) (h : misuse kind setting = none) :
    kind.Overruns entropy keys setting ↔ kind.OverrunsFew keys setting := by
  cases kind with
  | xor8 | xor16 => exact XorSet.overruns_iff_stuck hfew fun _ _ => trivial
  | xorPacked =>
    obtain ⟨-, hle⟩ := width_of_misuse h
    refine XorSet.overruns_iff_stuck hfew fun third hthird => ?_
    obtain ⟨slots, hslots⟩ := XorSet.PackedArray.zeros_of_third_le hthird hle
    exact XorSet.PackedArray.zeros_lt hslots
  | bloom => exact Iff.rfl
  | cuckooPacked =>
    obtain ⟨-, hle⟩ := width_of_misuse h
    exact iff_false_intro (Cuckoo.not_packedOverruns hfew hle)
  | cuckoo8x4 | cuckoo16x4 => exact iff_false_intro (Cuckoo.not_lanesOverrun hfew)

theorem not_tooLarge (hfew : keys.length ≤ 2 ^ 32) : ¬kind.TooLarge keys := by
  cases kind with
  | cuckoo8x4 | cuckoo16x4 => exact Cuckoo.not_tooLarge hfew (by decide)
  | xor8 | xor16 | xorPacked | bloom | cuckooPacked => exact id

/-- How a construction ends that is asked for a kind of filter of some keys with a setting. -/
structure Judged (kind : Kind) (entropy : Cuckoo.Random) (keys : List UInt64) (setting : Nat)
    (outcome : Outcome AnyFilter) : Prop where
  /-- A setting that the kind turns down is an invalid argument. -/
  misused : ∀ cause, misuse kind setting = some cause → outcome = refuse (.invalidArgument cause)
  /-- With any other setting a table that exceeds the memory breaks the construction off. -/
  tooLarge : misuse kind setting = none → kind.TooLarge keys → outcome = violate .capacity
  /-- If there is room, a filter is built or the keys are turned down for a reason of their kind,
  unless a number overruns its machine word, which breaks the construction off. -/
  used : misuse kind setting = none → ¬kind.TooLarge keys →
    Ends kind.reasons (kind.Overruns entropy keys setting) outcome
  /-- For up to `2 ^ 32` keys there is room, and a number overruns its word in few cases only. -/
  few : misuse kind setting = none → keys.length ≤ 2 ^ 32 →
    ¬kind.TooLarge keys ∧ (kind.Overruns entropy keys setting ↔ kind.OverrunsFew keys setting)

/-- For all kinds, all settings and all distinct keys, and whatever state entropy has left the
generator of cuckoo filters in: a setting that the kind turns down is an invalid argument. With any
other setting a filter is built, or the keys are turned down for a reason of their kind, unless the
table exceeds the memory or a number overruns its machine word. The numbers that may are told for
each kind. For up to `2 ^ 32` keys they are the counter of the attempts of an endless search for an
xor filter, and the products of a Bloom filter. -/
theorem settings_are_judged (kind : Kind) (entropy : Cuckoo.Random) (setting : Nat)
    (hdistinct : keys.Nodup) :
    Judged kind entropy keys setting (build kind entropy keys setting).outcome where
  misused _ h := build_of_misuse h
  tooLarge _ h := build_of_tooLarge h
  used h hroom := build_ends h hdistinct hroom
  few h hfew := ⟨not_tooLarge hfew, overruns_iff_few hfew h⟩

/-- Forty bits are too many for a fingerprint, and ten are not too many for a key. Two keys leave
room in four 8-bit entries per bucket, so they are stored, or their evictions are used up. -/
theorem settings_of_two_keys :
    (build .cuckooPacked ⟨1, 2, 3, 4⟩ [1, 2] 40).outcome =
        refuse (.invalidArgument (.fingerprintWidth 40)) ∧
      (∃ filter, (build .bloom ⟨1, 2, 3, 4⟩ [1, 2] 10).outcome = .ok filter) ∧
      Ends (· = .evictionLimit 1000) False (build .cuckoo8x4 ⟨1, 2, 3, 4⟩ [1, 2] 0).outcome := by
  have hdistinct : [(1 : UInt64), 2].Nodup := by decide
  have hfew : [(1 : UInt64), 2].length ≤ 2 ^ 32 := by decide
  refine ⟨?_, ?_, ?_⟩
  · exact (settings_are_judged .cuckooPacked ⟨1, 2, 3, 4⟩ 40 hdistinct).misused _ rfl
  · have hends := (settings_are_judged .bloom ⟨1, 2, 3, 4⟩ 10 hdistinct).used rfl id
    have hfits : ¬Kind.bloom.Overruns ⟨1, 2, 3, 4⟩ [1, 2] 10 := Bloom.not_overflows (by decide)
    rcases hends.ok_or_refused hfits with hfilter | ⟨reason, hfalse, -⟩
    · exact hfilter
    · exact hfalse.elim
  · have hjudged := settings_are_judged .cuckoo8x4 ⟨1, 2, 3, 4⟩ 0 hdistinct
    obtain ⟨hroom, hover⟩ := hjudged.few rfl hfew
    have hends := hjudged.used rfl hroom
    rwa [propext hover] at hends

/-- Two keys with `2 ^ 63` bits each: the number of bits is not turned down, although it does not
fit into a word. -/
theorem bits_of_two_keys_overflow :
    [(1 : UInt64), 2].Nodup ∧
      (build .bloom ⟨1, 2, 3, 4⟩ [1, 2] (2 ^ 63)).outcome = violate .overflow := by
  decide +kernel

end ApproxSet.ByName
