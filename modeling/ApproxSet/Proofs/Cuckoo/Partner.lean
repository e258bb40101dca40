import ApproxSet.Cuckoo.Bucket
import ApproxSet.Proofs.Bits.Word
import ApproxSet.Proofs.Hash.Scale

/-!
# Pairs of buckets

Going to the partner of a bucket twice leads back, and no bucket is its own partner. So a
fingerprint and its two buckets belong together whichever of the two is named; this is what a key is
reduced to, its kind. All of this needs an even number of buckets, which every table has.

With up to `2 ^ 32` buckets every partner and every home can be computed. With more of them some
can not, but those that can are no others.
-/

namespace ApproxSet.Cuckoo

open Outcome

/-- Numbers of buckets that can be paired. -/
structure Paired (buckets : Nat) : Prop where
  even : buckets % 2 = 0
  two_le : 2 ≤ buckets

/-- The number of buckets of a new table is even, and there is at least one pair. -/
theorem bucketsFor_paired {keys entries buckets : Nat} {loadFactor : Float}
    (h : bucketsFor keys entries loadFactor = .ok buckets) : Paired buckets := by
  obtain ⟨sum, -, h⟩ := bind_eq_ok_iff.1 h
  obtain ⟨made, hmade, h⟩ := bind_eq_ok_iff.1 h
  obtain ⟨-, rfl⟩ := Checked.add_eq_ok_iff.1 hmade
  cases h
  constructor
  · omega
  · omega

/-! ### Partners -/

/-- The odd offset of a fingerprint, without the checks of `oddOffset`. -/
def offsetOf (buckets : Nat) (print : UInt64) : Nat :=
  2 * Hash.place (Hash.low print * 0x5bd1e995) (buckets / 2) + 1

/-- The partner of a bucket, without the checks of `partner`. -/
def partnerOf (buckets : Nat) (print : UInt64) (bucket : Nat) : Nat :=
  if bucket + offsetOf buckets print ≤ buckets then buckets - (bucket + offsetOf buckets print)
  else 2 * buckets - (bucket + offsetOf buckets print)

variable {buckets bucket width : Nat} {print : UInt64} {h g : Home}

theorem offsetOf_lt (hp : Paired buckets) (print : UInt64) : offsetOf buckets print < buckets := by
  have htwo := hp.two_le
  have heven := hp.even
  have hplace := Hash.place_lt (Hash.low print * 0x5bd1e995) (n := buckets / 2) (by omega)
  unfold offsetOf
  omega

theorem oddOffset_eq_ok (hp : Paired buckets) (hle : buckets ≤ 2 ^ 32) (print : UInt64) :
    oddOffset print buckets = .ok (offsetOf buckets print) := by
  have hlt := offsetOf_lt hp print
  unfold offsetOf at hlt
  rw [oddOffset, Hash.scale_eq_ok _ (by omega), ok_bind, Checked.add_eq_ok (by omega)]
  rfl

theorem partner_eq_ok (hp : Paired buckets) (hle : buckets ≤ 2 ^ 32) (print : UInt64)
    (hb : bucket < buckets) :
    partner bucket print buckets = .ok (partnerOf buckets print bucket) := by
  have hlt := offsetOf_lt hp print
  rw [partner, require_bind _ ⟨hp.even, hb⟩, oddOffset_eq_ok hp hle, ok_bind,
    Checked.add_eq_ok (by omega), ok_bind]
  unfold partnerOf
  by_cases hsum : bucket + offsetOf buckets print ≤ buckets
  · rw [if_pos hsum, if_pos hsum, pure_eq_ok]
  · rw [if_neg hsum, if_neg hsum, Checked.mul_eq_ok (by omega), ok_bind,
      Checked.sub_eq_ok (by omega)]

/-- A partner that could be computed is the right one, however many buckets there are. -/
theorem partner_eq_partnerOf {other : Nat} (h : partner bucket print buckets = .ok other) :
    other = partnerOf buckets print bucket := by
  obtain ⟨-, h⟩ := require_bind_eq_ok_iff.1 h
  obtain ⟨offset, hoffset, h⟩ := bind_eq_ok_iff.1 h
  obtain ⟨half, hhalf, hodd⟩ := bind_eq_ok_iff.1 hoffset
  obtain ⟨-, rfl⟩ := Checked.add_eq_ok_iff.1 hodd
  obtain rfl := Hash.scale_eq_place hhalf
  obtain ⟨sum, hsum, h⟩ := bind_eq_ok_iff.1 h
  obtain ⟨-, rfl⟩ := Checked.add_eq_ok_iff.1 hsum
  unfold partnerOf offsetOf
  split at h
  case isTrue hle =>
    rw [if_pos hle]
    exact (Except.ok.inj h).symm
  case isFalse hgt =>
    obtain ⟨double, hdouble, h⟩ := bind_eq_ok_iff.1 h
    obtain ⟨-, rfl⟩ := Checked.mul_eq_ok_iff.1 hdouble
    rw [if_neg hgt]
    exact (Checked.sub_eq_ok_iff.1 h).2.symm

theorem partnerOf_lt (hp : Paired buckets) (print : UInt64) (hb : bucket < buckets) :
    partnerOf buckets print bucket < buckets := by
  have hlt := offsetOf_lt hp print
  unfold partnerOf
  split
  · unfold offsetOf
    omega
  · omega

/-- The sum of a bucket and its partner is odd, so they differ. -/
theorem partnerOf_ne (hp : Paired buckets) (print : UInt64) (hb : bucket < buckets) :
    partnerOf buckets print bucket ≠ bucket := by
  have heven := hp.even
  have hlt := offsetOf_lt hp print
  unfold partnerOf offsetOf at *
  split
  · omega
  · omega

theorem partnerOf_partnerOf (hp : Paired buckets) (print : UInt64) (hb : bucket < buckets) :
    partnerOf buckets print (partnerOf buckets print bucket) = bucket := by
  have hlt := offsetOf_lt hp print
  have hpos : 0 < offsetOf buckets print := by
    unfold offsetOf
    omega
  unfold partnerOf
  by_cases hsum : bucket + offsetOf buckets print ≤ buckets
  · rw [if_pos hsum, if_pos (by omega)]
    omega
  · rw [if_neg hsum]
    by_cases hback : 2 * buckets - (bucket + offsetOf buckets print) + offsetOf buckets print ≤
        buckets
    · rw [if_pos hback]
      omega
    · rw [if_neg hback]
      omega

/-! ### Homes -/

/-- The home of a key, without the checks of `Home.of`. -/
def Home.at (key : UInt64) (width buckets : Nat) : Home where
  print := if Hash.mix key &&& Bits.mask width = 0 then 1 else Hash.mix key &&& Bits.mask width
  bucket := Hash.place (Hash.high (Hash.mix key)) buckets

theorem Home.of_eq_ok (hle : buckets ≤ 2 ^ 32) (hw : width < 64) (key : UInt64) :
    Home.of key width buckets = .ok (Home.at key width buckets) := by
  rw [Home.of, require_bind _ hw, Hash.scale_eq_ok _ hle, ok_bind, pure_eq_ok, Home.at]

theorem Home.of_eq_at {key : UInt64} (h : Home.of key width buckets = .ok g) :
    g = Home.at key width buckets := by
  obtain ⟨-, h⟩ := require_bind_eq_ok_iff.1 h
  obtain ⟨bucket, hbucket, h⟩ := bind_eq_ok_iff.1 h
  obtain rfl := Hash.scale_eq_place hbucket
  exact (Except.ok.inj h).symm

theorem Home.at_bucket_lt (hp : Paired buckets) (key : UInt64) (width : Nat) :
    (Home.at key width buckets).bucket < buckets := by
  have htwo := hp.two_le
  exact Hash.place_lt _ (by omega)

theorem Home.at_print_ne_zero (key : UInt64) (width buckets : Nat) :
    (Home.at key width buckets).print ≠ 0 := by
  show (if _ then (1 : UInt64) else _) ≠ 0
  split
  · decide
  · assumption

/-- Fingerprints have the width that was asked for; the replacement of zero does too. -/
theorem Home.fits_at_print (hpos : 0 < width) (hw : width ≤ 64) (key : UInt64) (buckets : Nat) :
    Bits.Fits width (Home.at key width buckets).print := by
  show Bits.Fits width (if _ then (1 : UInt64) else _)
  split
  · rw [Bits.fits_iff_lt]
    exact Nat.one_lt_two_pow (by omega)
  · exact Bits.fits_and_mask hw _

/-! ### Kinds -/

/-- A fingerprint with the two buckets that it may be in. -/
structure Kind where
  print : UInt64
  lower : Nat
  upper : Nat
deriving DecidableEq

/-- What a home tells of its key, whichever of the two buckets it names. -/
def Home.kind (buckets : Nat) (h : Home) : Kind where
  print := h.print
  lower := min h.bucket (partnerOf buckets h.print h.bucket)
  upper := max h.bucket (partnerOf buckets h.print h.bucket)

/-- Homes are of one kind if they share the fingerprint and name the same bucket or partners. -/
theorem Home.kind_eq_iff (hp : Paired buckets) (hg : g.bucket < buckets) :
    h.kind buckets = g.kind buckets ↔ h.print = g.print ∧
      (h.bucket = g.bucket ∨ h.bucket = partnerOf buckets g.print g.bucket) := by
  rw [kind, kind, Kind.mk.injEq]
  constructor
  · intro ⟨hprint, hmin, hmax⟩
    refine ⟨hprint, ?_⟩
    omega
  · intro ⟨hprint, hbucket⟩
    refine ⟨hprint, ?_⟩
    rw [hprint]
    rcases hbucket with hsame | hother
    · rw [hsame]
      exact ⟨rfl, rfl⟩
    · rw [hother, partnerOf_partnerOf hp _ hg]
      exact ⟨Nat.min_comm _ _, Nat.max_comm _ _⟩

theorem Home.kind_partner (hp : Paired buckets) (hh : h.bucket < buckets) :
    Home.kind buckets ⟨h.print, partnerOf buckets h.print h.bucket⟩ = h.kind buckets :=
  (kind_eq_iff hp hh).2 ⟨rfl, .inr rfl⟩

/-- The kind of a key: its fingerprint, its home bucket and the partner of that. -/
def kindOf (key : UInt64) (width buckets : Nat) : Outcome Kind := do
  let home ← Home.of key width buckets
  let other ← partner home.bucket home.print buckets
  return ⟨home.print, min home.bucket other, max home.bucket other⟩

theorem kindOf_eq_ok (hp : Paired buckets) (hle : buckets ≤ 2 ^ 32) (hw : width < 64)
    (key : UInt64) : kindOf key width buckets = .ok ((Home.at key width buckets).kind buckets) := by
  rw [kindOf, Home.of_eq_ok hle hw, ok_bind,
    partner_eq_ok hp hle _ (Home.at_bucket_lt hp key width), ok_bind, pure_eq_ok, Home.kind]

end ApproxSet.Cuckoo
