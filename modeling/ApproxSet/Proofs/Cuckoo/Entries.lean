import ApproxSet.Proofs.Cuckoo.LaneBuckets

/-!
# What the lanes do to the entries

Every array of words is a table of four entries per bucket, whatever is in the words: its own lanes
are the cells that it shows. So what the laws of tables say about cells can be said about entries as
they are read, without an assumption on how the table came about. A fingerprint is found just if an
entry is read as it; an insertion fills the lowest entry that is read as zero, and fails just if
there is none; a swap answers what was read. None of them changes another entry.

The test that compares eight entries at once agrees with the tests of two buckets one by one.
-/

namespace ApproxSet.Cuckoo

open Bits Outcome

/-! ### Entries of any table -/

section Entries

variable {τ : Type} [Buckets τ]

/-- From one table to the other an entry was given a fingerprint, and nothing else was changed. -/
structure Replaces (t t' : τ) (b e : Nat) (print : UInt64) : Prop where
  bucketCount_eq : Buckets.bucketCount t' = Buckets.bucketCount t
  replaced : Buckets.entry t' b e = .ok print
  kept : ∀ b' < Buckets.bucketCount t, ∀ e' < Buckets.entriesPerBucket t, ¬(b' = b ∧ e' = e) →
    Buckets.entry t' b' e' = Buckets.entry t b' e'

/-- The operations with a bucket and a fingerprint do what the entries of the bucket say. -/
structure ActsOnEntries (t : τ) (b : Nat) (print : UInt64) : Prop where
  entry_ok : ∀ e < Buckets.entriesPerBucket t, ∃ value, Buckets.entry t b e = .ok value
  /-- A bucket holds a fingerprint just if one of its entries is the fingerprint. -/
  holds_iff : ∃ found, Buckets.holds t b print = .ok found ∧
    (found = true ↔ ∃ e < Buckets.entriesPerBucket t, Buckets.entry t b e = .ok print)
  /-- An insertion leaves the table as it is just if no entry of the bucket is zero. -/
  full_iff : Buckets.insert? t b print = .ok none ↔
    ∀ e < Buckets.entriesPerBucket t, Buckets.entry t b e ≠ .ok 0
  /-- Otherwise the lowest entry that is zero becomes the fingerprint. -/
  first_free : ∀ e < Buckets.entriesPerBucket t, Buckets.entry t b e = .ok 0 →
    (∀ e' < e, Buckets.entry t b e' ≠ .ok 0) →
    ∃ t', Buckets.insert? t b print = .ok (some t') ∧ Replaces t t' b e print
  /-- A swap answers the entry that it replaces. -/
  swap_eq : ∀ e < Buckets.entriesPerBucket t, ∃ old t', Buckets.entry t b e = .ok old ∧
    Buckets.swap t b e print = .ok (old, t') ∧ Replaces t t' b e print

variable [LawfulBuckets τ] {t t' : τ} {s : Shape} {cells : Cells} {b e : Nat} {print : UInt64}

/-- A table that shows one changed cell has one changed entry. -/
theorem replaces_of_shows (h : LawfulBuckets.Shows t s cells)
    (h' : LawfulBuckets.Shows t' s (cells.put b e print)) (hb : b < s.buckets)
    (he : e < s.entries) : Replaces t t' b e print := by
  have hbuckets := LawfulBuckets.bucketCount_eq h
  have hentries := LawfulBuckets.entriesPerBucket_eq h
  refine ⟨?_, ?_, fun b' hb' e' he' hother => ?_⟩
  · rw [LawfulBuckets.bucketCount_eq h', hbuckets]
  · rw [LawfulBuckets.entry_eq_ok h' hb he, Cells.put_self]
  · rw [hbuckets] at hb'
    rw [hentries] at he'
    rw [LawfulBuckets.entry_eq_ok h' hb' he', Cells.put_other hother,
      LawfulBuckets.entry_eq_ok h hb' he']

/-- What the laws of tables say about cells holds for the entries that show them. -/
theorem actsOnEntries_of_shows (h : LawfulBuckets.Shows t s cells) (hb : b < s.buckets)
    (hfits : Fits s.width print) : ActsOnEntries t b print := by
  have hentries := LawfulBuckets.entriesPerBucket_eq h
  have hread : ∀ e < s.entries, Buckets.entry t b e = .ok (cells b e) :=
    fun e he => LawfulBuckets.entry_eq_ok h hb he
  have hvalue : ∀ e < s.entries, ∀ value, Buckets.entry t b e = .ok value ↔ cells b e = value := by
    intro e he value
    rw [hread e he, Except.ok.injEq]
  refine ⟨fun e he => ?_, ⟨_, LawfulBuckets.holds_eq_ok h hb hfits, ?_⟩,
    ⟨fun hnone e he hzero => ?_, fun hfull => ?_⟩, fun e he hzero hfirst => ?_, fun e he => ?_⟩
  · exact ⟨_, hread e (hentries ▸ he)⟩
  · rw [decide_eq_true_iff, hentries]
    exact exists_congr fun e => and_congr_right fun he => (hvalue e he print).symm
  · rw [hentries] at he
    rcases insert?_spec h hb hfits hnone with ⟨-, hfull⟩ | ⟨t', e', hsome, -⟩
    · exact hfull e he ((hvalue e he 0).1 hzero)
    · cases hsome
  · rw [hentries] at hfull
    exact LawfulBuckets.insert_full h hb fun e he hzero => hfull e he ((hvalue e he 0).2 hzero)
  · rw [hentries] at he
    have hbefore : ∀ e' < e, cells b e' ≠ 0 := by
      intro e' he' hzero'
      exact hfirst e' he' ((hvalue e' (by omega) 0).2 hzero')
    obtain ⟨t', ht', hshows⟩ :=
      LawfulBuckets.insert_free h hb hfits he ((hvalue e he 0).1 hzero) hbefore
    exact ⟨t', ht', replaces_of_shows h hshows hb he⟩
  · rw [hentries] at he
    obtain ⟨t', ht', hshows⟩ := LawfulBuckets.swap_eq_ok h hb he hfits
    exact ⟨cells b e, t', hread e he, ht', replaces_of_shows h hshows hb he⟩

end Entries

/-! ### The lanes of any words -/

/-- The lanes of words as fingerprints. -/
def laneCells {ε : Type} (value : ε → Nat) (k : Nat) (words : Array ε) : Cells :=
  fun b e => UInt64.ofNat ((words[b]?.map fun word => lane k (value word) e).getD 0)

/-- All words show their own lanes. -/
theorem showsLanes_laneCells {ε : Type} (value : ε → Nat) {k : Nat} (hk : k ≤ 64)
    (words : Array ε) :
    ShowsLanes value k words ⟨words.size, laneCount, k⟩ (laneCells value k words) := by
  refine ⟨rfl, rfl, rfl, fun b hb e _ => ?_⟩
  have hlane : lane k (value words[b]) e < 2 ^ 64 :=
    Nat.lt_of_lt_of_le (lane_lt _ _ _) (Nat.pow_le_pow_right (by omega) hk)
  rw [laneCells, Array.getElem?_eq_getElem hb, Option.map_some, Option.getD_some,
    UInt64.toNat_ofNat_of_lt' hlane]

theorem ByteBuckets.actsOnEntries (t : ByteBuckets) {b : Nat} {print : UInt64}
    (hb : b < t.words.size) (hprint : print.toNat < 2 ^ 8) : ActsOnEntries t b print :=
  actsOnEntries_of_shows (s := ⟨t.words.size, laneCount, 8⟩)
    (showsLanes_laneCells UInt32.toNat (by decide) t.words) hb (fits_iff_lt.2 hprint)

theorem WordBuckets.actsOnEntries (t : WordBuckets) {b : Nat} {print : UInt64}
    (hb : b < t.words.size) (hprint : print.toNat < 2 ^ 16) : ActsOnEntries t b print :=
  actsOnEntries_of_shows (s := ⟨t.words.size, laneCount, 16⟩)
    (showsLanes_laneCells UInt64.toNat (by decide) t.words) hb (fits_iff_lt.2 hprint)

/-! ### Two buckets at once -/

/-- A bucket that has a partner is one of an even number, and so is its partner. -/
theorem partner_lt {buckets bucket other : Nat} {print : UInt64}
    (h : partner bucket print buckets = .ok other) : bucket < buckets ∧ other < buckets := by
  obtain ⟨hinside, -⟩ := require_bind_eq_ok_iff.1 h
  have hpaired : Paired buckets := ⟨hinside.1, by omega⟩
  rw [partner_eq_partnerOf h]
  exact ⟨hinside.2, partnerOf_lt hpaired print hinside.2⟩

namespace ByteBuckets

/-- Eight entries are compared at once as four and four are. -/
theorem mayContain_eq (t : ByteBuckets) (key : UInt64) :
    t.mayContain key = (do
      let home ← Home.of key 8 t.words.size
      let other ← partner home.bucket home.print t.words.size
      let here ← t.holds home.bucket home.print
      let there ← t.holds other home.print
      return here || there) := by
  rw [mayContain]
  cases hhome : Home.of key 8 t.words.size with
  | error failure => rfl
  | ok home =>
    cases hother : partner home.bucket home.print t.words.size with
    | error failure =>
      rw [ok_bind, ok_bind, hother]
      rfl
    | ok other =>
      obtain ⟨hb, hb'⟩ := partner_lt hother
      have hshows : t.Shows ⟨t.words.size, laneCount, 8⟩ (laneCells UInt32.toNat 8 t.words) :=
        showsLanes_laneCells UInt32.toNat (by decide) t.words
      have hfits : Fits 8 home.print := by
        rw [Home.of_eq_at hhome]
        exact Home.fits_at_print (by decide) (by decide) key t.words.size
      rw [ok_bind, ok_bind, hother, ok_bind, ok_bind, wordAt_eq_ok hb, ok_bind, wordAt_eq_ok hb',
        ok_bind, holds_eq_ok hshows hb hfits, ok_bind, holds_eq_ok hshows hb' hfits, ok_bind,
        pure_eq_ok, pure_eq_ok, Except.ok.injEq, ← Bool.decide_or, Bool.eq_iff_iff, bne_iff_ne,
        ne_eq, zeroOctets_both_eq_zero_iff hshows hb hb' hfits, not_not, decide_eq_true_iff]

/-- In tables whose buckets can all be paired every query is answered, and it finds a fingerprint
just if the home bucket or its partner holds it. -/
theorem exists_mayContain (t : ByteBuckets) (hpaired : Paired t.words.size)
    (hle : t.words.size ≤ 2 ^ 32) (key : UInt64) :
    ∃ home other found, Home.of key 8 t.words.size = .ok home ∧
      partner home.bucket home.print t.words.size = .ok other ∧ t.mayContain key = .ok found ∧
      (found = true ↔
        t.holds home.bucket home.print = .ok true ∨ t.holds other home.print = .ok true) := by
  have hhome := Home.of_eq_ok hle (by decide : 8 < 64) key
  have hother := partner_eq_ok hpaired hle (Home.at key 8 t.words.size).print
    (Home.at_bucket_lt hpaired key 8)
  have hprint : (Home.at key 8 t.words.size).print.toNat < 2 ^ 8 :=
    fits_iff_lt.1 (Home.fits_at_print (by decide) (by decide) key t.words.size)
  obtain ⟨hb, hb'⟩ := partner_lt hother
  obtain ⟨here, hhere, -⟩ := (t.actsOnEntries hb hprint).holds_iff
  obtain ⟨there, hthere, -⟩ := (t.actsOnEntries hb' hprint).holds_iff
  have hhere' : t.holds _ _ = .ok here := hhere
  have hthere' : t.holds _ _ = .ok there := hthere
  refine ⟨_, _, here || there, hhome, hother, ?_, ?_⟩
  · rw [mayContain_eq, hhome, ok_bind, hother, ok_bind, hhere', ok_bind, hthere', ok_bind,
      pure_eq_ok]
  · rw [hhere', hthere', Except.ok.injEq, Except.ok.injEq, Bool.or_eq_true]

end ByteBuckets

/-- For all words, all buckets and all fingerprints that fit into a lane: the operations on lanes do
what the entries say. The test of eight entries at once is the test of the home bucket and that of
its partner. -/
theorem lanes_agree_with_entries :
    (∀ (t : ByteBuckets) (b : Nat) (print : UInt64), b < t.words.size → print.toNat < 2 ^ 8 →
      ActsOnEntries t b print) ∧
    (∀ (t : WordBuckets) (b : Nat) (print : UInt64), b < t.words.size → print.toNat < 2 ^ 16 →
      ActsOnEntries t b print) ∧
    (∀ (t : ByteBuckets) (key : UInt64), t.mayContain key = (do
      let home ← Home.of key 8 t.words.size
      let other ← partner home.bucket home.print t.words.size
      let here ← t.holds home.bucket home.print
      let there ← t.holds other home.print
      return here || there)) ∧
    ∀ (t : ByteBuckets) (key : UInt64), Paired t.words.size → t.words.size ≤ 2 ^ 32 →
      ∃ home other found, Home.of key 8 t.words.size = .ok home ∧
        partner home.bucket home.print t.words.size = .ok other ∧ t.mayContain key = .ok found ∧
        (found = true ↔
          t.holds home.bucket home.print = .ok true ∨ t.holds other home.print = .ok true) := by
  refine ⟨fun t b print hb hprint => ?_, fun t b print hb hprint => ?_, fun t key => ?_,
    fun t key hpaired hle => ?_⟩
  · exact t.actsOnEntries hb hprint
  · exact t.actsOnEntries hb hprint
  · exact t.mayContain_eq key
  · exact t.exists_mayContain hpaired hle key

/-- A zero octet below the octet one, whose flag is a spurious one: the fingerprint goes to the zero
octet, and the one is still read. Likewise with 16-bit lanes, where all entries but one are in
use. -/
theorem zero_below_one_is_filled :
    (∃ t' : ByteBuckets, Buckets.insert? (ByteBuckets.mk #[0, 0xff800100]) 1 7 = .ok (some t') ∧
      Buckets.entry t' 1 0 = .ok 7 ∧ Buckets.entry t' 1 1 = .ok 1) ∧
    (∃ t' : WordBuckets, Buckets.swap (WordBuckets.mk #[0x8000ffff00010000]) 0 2 5 =
        .ok (0xffff, t') ∧ Buckets.entry t' 0 2 = .ok 5 ∧ Buckets.entry t' 0 0 = .ok 0) ∧
    ∃ found, (ByteBuckets.mk #[0, 0xff800100]).mayContain 3 = .ok found := by
  obtain ⟨hbytes, hwords, -, hqueries⟩ := lanes_agree_with_entries
  have hinserted := hbytes ⟨#[0, 0xff800100]⟩ 1 7 (by decide) (by decide)
  have hswapped := hwords ⟨#[0x8000ffff00010000]⟩ 0 5 (by decide) (by decide)
  refine ⟨?_, ?_, ?_⟩
  · obtain ⟨t', ht', hreplaces⟩ := hinserted.first_free 0 (by decide) (by decide +kernel)
      fun e he => absurd he (Nat.not_lt_zero e)
    refine ⟨t', ht', hreplaces.replaced, ?_⟩
    rw [hreplaces.kept 1 (by decide) 1 (by decide) (by decide)]
    decide +kernel
  · obtain ⟨old, t', hold, ht', hreplaces⟩ := hswapped.swap_eq 2 (by decide)
    have hread : Buckets.entry (WordBuckets.mk #[0x8000ffff00010000]) 0 2 = .ok 0xffff := by
      decide +kernel
    cases hread.symm.trans hold
    refine ⟨t', ht', hreplaces.replaced, ?_⟩
    rw [hreplaces.kept 0 (by decide) 0 (by decide) (by decide)]
    decide +kernel
  · obtain ⟨home, other, found, -, -, hfound, -⟩ :=
      hqueries ⟨#[0, 0xff800100]⟩ 3 ⟨by decide, by decide⟩ (by decide)
    exact ⟨found, hfound⟩

end ApproxSet.Cuckoo
