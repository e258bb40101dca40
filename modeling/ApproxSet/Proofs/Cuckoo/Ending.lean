import ApproxSet.Proofs.Cuckoo.Overflow
import ApproxSet.Proofs.Numbers.Sizes

/-!
# How constructions with the usual settings end

The three kinds of tables have usual settings: four entries in a bucket, a load factor and a number
of evictions, and a generator in the state that entropy has left it in. For up to `2 ^ 32` keys all
sizes fit into their words, so there is a table, or the evictions of a key are used up, whatever the
generator draws. For more of them a size may overrun its word, or a product that leads to the
buckets of a key.
-/

namespace ApproxSet.Cuckoo

open Outcome

variable {τ : Type} [Buckets τ] {s : Shape} {keys : List UInt64} {entropy : Random}
  {kicks width octets : Nat} {bitsFit : Prop}

/-- What overruns a word while keys fill a table of a given shape. -/
inductive Overruns (s : Shape) (bitsFit : Prop) (empty : Outcome τ) (start : Random) (kicks : Nat)
    (keys : List UInt64) : Prop where
  /-- The number of buckets. -/
  | buckets (large : 2 ^ 64 ≤ s.buckets) : Overruns s bitsFit empty start kicks keys
  /-- The number of the bits of all entries, if a table has to count them. -/
  | bits (large : ¬bitsFit) : Overruns s bitsFit empty start kicks keys
  /-- A product that leads to the buckets of a key, when the keys before it have been stored. -/
  | place {table : τ} (room : empty = .ok table)
      (stops : Stops s kicks keys.length ⟨table, start⟩ keys) :
      Overruns s bitsFit empty start kicks keys

/-- Where a table without room is one whose bits cannot be counted, the construction overruns a word
or ends. -/
theorem SizeDecides.ends {room : Prop} {breach : Breach} {empty outcome : Outcome τ}
    (h : SizeDecides s room breach empty entropy kicks keys outcome) (hbits : room → bitsFit)
    (hroom : s.buckets < 2 ^ 64 → ¬room → breach = .overflow ∧ ¬bitsFit) :
    Ends (· = .evictionLimit kicks) (Overruns s bitsFit empty entropy kicks keys) outcome := by
  by_cases hsmall : s.buckets < 2 ^ 64
  · by_cases hfits : room
    · obtain ⟨table, htable, hends⟩ := h.filled hsmall hfits
      have hover : Overruns s bitsFit empty entropy kicks keys ↔
          Stops s kicks keys.length ⟨table, entropy⟩ keys := by
        constructor
        · intro hover
          cases hover with
          | buckets large => omega
          | bits large => exact absurd (hbits hfits) large
          | place room stops =>
            cases htable.symm.trans room
            exact stops
        · exact .place htable
      rwa [propext hover]
    · obtain ⟨rfl, hlarge⟩ := hroom hsmall hfits
      rw [h.roomless hsmall hfits]
      exact .overrun (.bits hlarge)
  · rw [h.uncountable (Nat.le_of_not_lt hsmall)]
    exact .overrun (.buckets (Nat.le_of_not_lt hsmall))

/-! ### The three kinds -/

/-- The number of buckets that a number of keys usually gets, whether it fits into a word or not. -/
def usualBuckets (keys : Nat) : Nat :=
  exactBuckets keys laneCount 0.94

theorem usualBuckets_le {keys : Nat} (h : keys ≤ 2 ^ 32) : usualBuckets keys ≤ 2 ^ 32 := by
  obtain ⟨buckets, hbuckets, hle⟩ := bucketsFor_eq_ok h
  rw [bucketsFor_eq_fit, Checked.fit_eq_ok_iff] at hbuckets
  exact Nat.le_trans (Nat.le_of_eq hbuckets.2) hle

/-- The bits of all entries of a packed table can be counted. -/
def BitsFit (buckets width : Nat) : Prop :=
  buckets * laneCount * width + 63 < 2 ^ 64

theorem bitsFit_of_le {buckets : Nat} (hbuckets : buckets ≤ 2 ^ 32) (hwidth : width ≤ 32) :
    BitsFit buckets width := by
  have hbits : buckets * laneCount * width ≤ 2 ^ 32 * laneCount * 32 :=
    Nat.mul_le_mul (Nat.mul_le_mul_right _ hbuckets) hwidth
  exact Nat.lt_of_le_of_lt (Nat.add_le_add_right hbits 63) (by decide)

/-- What overruns a word while a packed table of keys is filled. -/
def PackedOverruns (entropy : Random) (keys : List UInt64) (width : Nat) : Prop :=
  let buckets := usualBuckets keys.length
  Overruns ⟨buckets, laneCount, width⟩ (BitsFit buckets width)
    (Packed.empty buckets laneCount width) entropy 10000 keys

/-- What overruns a word while a table with a bucket in a word is filled. -/
def LanesOverrun (empty : (buckets : Nat) → Outcome τ) (width : Nat) (entropy : Random)
    (keys : List UInt64) : Prop :=
  let buckets := usualBuckets keys.length
  Overruns ⟨buckets, laneCount, width⟩ True (empty buckets) entropy 1000 keys

/-- A table with buckets of so many octets exceeds the memory that there can be. -/
def TooLarge (octets : Nat) (keys : List UInt64) : Prop :=
  usualBuckets keys.length < 2 ^ 64 ∧ 2 ^ 63 ≤ octets * usualBuckets keys.length

/-- The usual load factor is one that is accepted. -/
theorem loadFactor_usual (width : Nat) : 0 < Settings.loadFactor { width := width } ∧
    Settings.loadFactor { width := width } ≤ 1 := by
  dsimp only
  decide +kernel

theorem exactBuckets_usual (width keys : Nat) :
    exactBuckets keys laneCount (Settings.loadFactor { width := width }) = usualBuckets keys := by
  dsimp only
  rw [usualBuckets]

theorem packedOf_ends (hpos : 0 < width) (hle : width ≤ 32) :
    Ends (· = .evictionLimit 10000) (PackedOverruns entropy keys width)
      (packedOf entropy keys width).outcome := by
  have hdecides := sizeDecides_buildPacked entropy (loadFactor_usual width) hpos hle
    (show 0 < 4 by decide) (exactBuckets_usual width keys.length)
  exact hdecides.ends id fun _ hlarge => ⟨rfl, hlarge⟩

section Lanes

variable [LawfulBuckets τ] {empty : Nat → Outcome τ}

theorem buildLanes_ends (hkind : LaneKind empty octets width) (h : ¬TooLarge octets keys) :
    Ends (· = .evictionLimit 1000) (LanesOverrun empty width entropy keys)
      (buildLanes empty width {} entropy keys).outcome := by
  have hdecides := sizeDecides_buildLanes hkind entropy (loadFactor_usual 8)
    (exactBuckets_usual 8 keys.length)
  refine hdecides.ends (fun _ => trivial) fun hsmall hlarge => ?_
  exact absurd ⟨hsmall, Nat.le_of_not_lt hlarge⟩ h

theorem buildLanes_eq_capacity (hkind : LaneKind empty octets width) (h : TooLarge octets keys) :
    (buildLanes empty width {} entropy keys).outcome = violate .capacity := by
  have hdecides := sizeDecides_buildLanes hkind entropy (loadFactor_usual 8)
    (exactBuckets_usual 8 keys.length)
  exact hdecides.roomless h.1 (Nat.not_lt.2 h.2)

end Lanes

/-! ### Few keys -/

theorem not_overruns_of_le {empty : Outcome τ} (h : s.buckets ≤ 2 ^ 32) (hbits : bitsFit) :
    ¬Overruns s bitsFit empty entropy kicks keys := by
  intro hover
  cases hover with
  | buckets large => omega
  | bits large => exact large hbits
  | place _ stops => exact not_stops h stops

theorem not_packedOverruns (h : keys.length ≤ 2 ^ 32) (hle : width ≤ 32) :
    ¬PackedOverruns entropy keys width :=
  not_overruns_of_le (usualBuckets_le h) (bitsFit_of_le (usualBuckets_le h) hle)

theorem not_lanesOverrun {empty : Nat → Outcome τ} (h : keys.length ≤ 2 ^ 32) :
    ¬LanesOverrun empty width entropy keys :=
  not_overruns_of_le (usualBuckets_le h) trivial

theorem not_tooLarge (h : keys.length ≤ 2 ^ 32) (hoctets : octets ≤ 8) :
    ¬TooLarge octets keys := by
  intro hlarge
  have hmost := Nat.mul_le_mul hoctets (usualBuckets_le h)
  have hexceeds := hlarge.2
  omega

end ApproxSet.Cuckoo
