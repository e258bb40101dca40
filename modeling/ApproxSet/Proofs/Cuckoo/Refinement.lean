import ApproxSet.Proofs.Cuckoo.Counting
import ApproxSet.Proofs.Cuckoo.Lockstep
import ApproxSet.Proofs.Cuckoo.Membership

/-!
# Buckets in a word refine packed buckets

A filter with a bucket in a word is the packed filter of the same width with four entries per
bucket: built from the same keys, with the same generator and the same evictions allowed, either
both hold the same fingerprint in every entry, and then count and answer the same, or both give up
alike. No promise is broken on the way to either. The evictions have to be set, as the defaults of
the two kinds differ.
-/

namespace ApproxSet.Cuckoo

open Bits Outcome

/-- A table with a bucket in a word and a packed table are the same filter. -/
structure SameFilter {τ : Type} [Buckets τ] [ApproximateSet τ] (count : τ → Nat) (t : τ)
    (u : Packed) : Prop where
  buckets : Buckets.bucketCount t = u.buckets
  entries : u.entries = laneCount
  entry : ∀ b < u.buckets, ∀ e < laneCount,
    ∃ print, Buckets.entry t b e = .ok print ∧ u.entry b e = .ok print
  count : u.count = .ok (count t)
  answers : ∀ query,
    ∃ found, ApproximateSet.mayContain t query = .ok found ∧ u.mayContain query = .ok found

variable {s : Settings} {entropy : Random} {keys : List UInt64} {buckets width kicks : Nat}

/-! ### The steps of a construction -/

theorem buildPacked_outcome (hpos : 0 < s.width) (hle : s.width ≤ 32) (hentries : 0 < s.entries) :
    (buildPacked s entropy keys).outcome = (do
      demandLoadFactor s.loadFactor
      let buckets ← bucketsFor keys.length s.entries s.loadFactor
      let table ← Packed.empty buckets s.entries s.width
      (fill s entropy s.width 10000 keys table).outcome) := by
  simp only [buildPacked, Traced.outcome_bind, Traced.outcome_lift]
  rw [demandWidth, demand_bind _ ⟨hpos, hle⟩, demand_bind _ hentries]

section Lanes

variable {τ : Type} [Buckets τ] {empty : Nat → Outcome τ} {octets : Nat}

theorem buildLanes_outcome (empty : Nat → Outcome τ) (width : Nat) :
    (buildLanes empty width s entropy keys).outcome = (do
      demandLoadFactor s.loadFactor
      let buckets ← bucketsFor keys.length laneCount s.loadFactor
      let table ← empty buckets
      (fill s entropy width 1000 keys table).outcome) := by
  simp only [buildLanes, Traced.outcome_bind, Traced.outcome_lift]

/-- A construction with a bucket in a word ends alike to a packed one of the same width. -/
theorem buildLanes_alike [LawfulBuckets τ] (hkind : LaneKind empty octets width)
    (hoctets : octets ≤ 8) (hkicks : s.kicks = some kicks)
    (hbuckets : bucketsFor keys.length laneCount s.loadFactor = .ok buckets)
    (hle : buckets ≤ 2 ^ 32) :
    Alike (FailAlike Eq False) (SameCells ⟨buckets, laneCount, width⟩)
      (buildLanes empty width s entropy keys).outcome
      (buildPacked { s with width := width, entries := laneCount } entropy keys).outcome := by
  have hshape : (Shape.mk buckets laneCount width).Mappable := ⟨hkind.usable hbuckets, hle⟩
  have hwords : octets * buckets ≤ 8 * 2 ^ 32 := Nat.mul_le_mul hoctets hle
  have hbits : buckets * laneCount * width ≤ 2 ^ 32 * 4 * 32 :=
    Nat.mul_le_mul (Nat.mul_le_mul_right _ hle) hkind.width_le
  obtain ⟨bare, hbare, hshows⟩ := hkind.empty_eq_ok (show octets * buckets < 2 ^ 63 by omega)
  obtain ⟨packed, hpacked, hshows'⟩ := Packed.empty_eq_ok hkind.width_pos
    (Nat.le_trans hkind.width_le (by decide))
    (show buckets * laneCount * width + 63 < 2 ^ 64 by omega)
  rw [buildLanes_outcome, buildPacked_outcome hkind.width_pos hkind.width_le
    (show 0 < laneCount by decide)]
  dsimp only
  refine (alike_demand rfl).bind fun _ _ _ => ?_
  rw [hbuckets, ok_bind, ok_bind, hbare, hpacked, ok_bind, ok_bind]
  exact fill_alike hshape ⟨_, hshows, hshows'⟩ rfl (by simp only [hkicks, Option.getD_some])

end Lanes

/-! ### The same filter -/

/-- Tables with the same cells whose answers are exact are the same filter. -/
theorem SameCells.sameFilter {τ : Type} [Buckets τ] [LawfulBuckets τ] [ApproximateSet τ]
    {count : τ → Nat} {t : τ} {u : Packed}
    (hcount : ∀ cells, LawfulBuckets.Shows t ⟨buckets, laneCount, width⟩ cells →
      count t = cells.count ⟨buckets, laneCount, width⟩)
    (h : SameCells ⟨buckets, laneCount, width⟩ t u)
    (ht : Exact (ApproximateSet.mayContain t) width (Buckets.bucketCount t) keys)
    (hu : Exact u.mayContain width u.buckets keys) : SameFilter count t u := by
  have hbuckets : u.buckets = buckets := h.bucketCount_right
  rw [h.bucketCount_left] at ht
  rw [hbuckets] at hu
  refine ⟨h.bucketCount_left.trans hbuckets.symm, h.entriesPerBucket_right, ?_, ?_, ?_⟩
  · intro b hb e he
    exact h.entry (hbuckets ▸ hb) he
  · obtain ⟨cells, hcells, hcells'⟩ := h
    rw [Packed.count_eq_ok hcells', hcount cells hcells]
  · intro query
    obtain ⟨kind, found, -, hfound, -⟩ := ht query
    exact ⟨found, hfound, (ht.answers_eq hu (List.Perm.refl keys) query).trans hfound⟩

/-- A filter with a bucket in a word is the packed filter of its width, or both are turned down. -/
theorem buildLanes_sameFilter {τ : Type} [Buckets τ] [LawfulBuckets τ] [ApproximateSet τ]
    {empty : Nat → Outcome τ} {octets : Nat} {count : τ → Nat}
    (hkind : LaneKind empty octets width) (hoctets : octets ≤ 8) (hkicks : s.kicks = some kicks)
    (hcount : ∀ {t : τ} {cells : Cells},
      LawfulBuckets.Shows t ⟨buckets, laneCount, width⟩ cells →
        count t = cells.count ⟨buckets, laneCount, width⟩)
    (hexact : ∀ {t : τ}, (buildLanes empty width s entropy keys).outcome = .ok t →
      Buckets.bucketCount t ≤ 2 ^ 32 →
        Exact (ApproximateSet.mayContain t) width (Buckets.bucketCount t) keys)
    (hbuckets : bucketsFor keys.length laneCount s.loadFactor = .ok buckets)
    (hle : buckets ≤ 2 ^ 32) :
    Alike (FailAlike Eq False) (SameFilter count)
      (buildLanes empty width s entropy keys).outcome
      (buildPacked { s with width := width, entries := laneCount } entropy keys).outcome := by
  refine (buildLanes_alike hkind hoctets hkicks hbuckets hle).imp (fun t u ht hu hsame => ?_)
    fun f g _ hfg => hfg
  have hle_left : Buckets.bucketCount t ≤ 2 ^ 32 :=
    Nat.le_trans (Nat.le_of_eq hsame.bucketCount_left) hle
  have hle_right : u.buckets ≤ 2 ^ 32 := Nat.le_trans (Nat.le_of_eq hsame.bucketCount_right) hle
  exact hsame.sameFilter (fun cells hcells => hcount hcells) (hexact ht hle_left)
    (buildPacked_exact hu hle_right).2

/-- For all keys, seeds, load factors and evictions allowed, in tables of up to `2 ^ 32` buckets:
buckets of four octets, and buckets of four 16-bit words, make the same filter as packed buckets of
four entries of the same width, or all are turned down for the same reason. Without a seed the
generators have to start in the same state. -/
theorem lanes_hold_the_packed_entries (s : Settings) (kicks : Nat) (entropy : Random)
    (keys : List UInt64) {buckets : Nat}
    (hbuckets : bucketsFor keys.length laneCount s.loadFactor = .ok buckets)
    (hle : buckets ≤ 2 ^ 32) :
    Alike (FailAlike Eq False) (SameFilter ByteBuckets.count)
      (buildBytes { s with kicks := some kicks } entropy keys).outcome
      (buildPacked { s with kicks := some kicks, width := 8, entries := 4 } entropy keys).outcome ∧
    Alike (FailAlike Eq False) (SameFilter WordBuckets.count)
      (buildWords { s with kicks := some kicks } entropy keys).outcome
      (buildPacked { s with kicks := some kicks, width := 16, entries := 4 }
        entropy keys).outcome := by
  constructor
  · exact buildLanes_sameFilter (s := { s with kicks := some kicks }) ByteBuckets.laneKind
      (by decide) rfl (fun h => ByteBuckets.count_eq h) (fun h => buildBytes_exact h) hbuckets hle
  · exact buildLanes_sameFilter (s := { s with kicks := some kicks }) WordBuckets.laneKind
      (by decide) rfl (fun h => WordBuckets.count_eq h) (fun h => buildWords_exact h) hbuckets hle

/-- Nine keys for which an entry has to be evicted at either width: with twenty evictions allowed
the filters are the same, the narrow ones with a seed and the wide ones without. Without any
eviction the same keys are turned down. -/
theorem nine_keys_fill_the_same_entries :
    ((buildBytes ⟨8, 4, 1, some 20, some 3⟩ ⟨1, 2, 3, 4⟩
          [32, 189, 58, 178, 55, 163, 192, 181, 173]).outcome =
        .ok ⟨#[188, 0, 0, 1117485259, 802688581, 0]⟩ ∧
      (buildPacked ⟨8, 4, 1, some 20, some 3⟩ ⟨1, 2, 3, 4⟩
          [32, 189, 58, 178, 55, 163, 192, 181, 173]).outcome =
        .ok ⟨⟨#[188, 4799562641167089664, 802688581], 192⟩, 6, 4, 8⟩ ∧
      SameFilter ByteBuckets.count ⟨#[188, 0, 0, 1117485259, 802688581, 0]⟩
        ⟨⟨#[188, 4799562641167089664, 802688581], 192⟩, 6, 4, 8⟩) ∧
    ((buildWords ⟨8, 4, 1, some 20, none⟩ ⟨1, 2, 3, 4⟩
          [32, 189, 58, 178, 55, 163, 192, 181, 173]).outcome =
        .ok ⟨#[0, 0, 0, 4197929465536859595, 14785050223768927676, 44357]⟩ ∧
      (buildPacked ⟨16, 4, 1, some 20, none⟩ ⟨1, 2, 3, 4⟩
          [32, 189, 58, 178, 55, 163, 192, 181, 173]).outcome =
        .ok ⟨⟨#[0, 0, 0, 4197929465536859595, 14785050223768927676, 44357], 384⟩, 6, 4, 16⟩ ∧
      SameFilter WordBuckets.count
        ⟨#[0, 0, 0, 4197929465536859595, 14785050223768927676, 44357]⟩
        ⟨⟨#[0, 0, 0, 4197929465536859595, 14785050223768927676, 44357], 384⟩, 6, 4, 16⟩) ∧
    (buildBytes ⟨8, 4, 1, some 0, some 3⟩ ⟨1, 2, 3, 4⟩
        [32, 189, 58, 178, 55, 163, 192, 181, 173]).outcome = refuse (.evictionLimit 0) := by
  have hbuckets : bucketsFor [32, 189, 58, 178, 55, 163, 192, 181, 173].length laneCount 1 =
      .ok 6 := by decide +kernel
  have hbytes : (buildBytes ⟨8, 4, 1, some 20, some 3⟩ ⟨1, 2, 3, 4⟩
      [32, 189, 58, 178, 55, 163, 192, 181, 173]).outcome =
      .ok ⟨#[188, 0, 0, 1117485259, 802688581, 0]⟩ := by decide +kernel
  have hpacked : (buildPacked ⟨8, 4, 1, some 20, some 3⟩ ⟨1, 2, 3, 4⟩
      [32, 189, 58, 178, 55, 163, 192, 181, 173]).outcome =
      .ok ⟨⟨#[188, 4799562641167089664, 802688581], 192⟩, 6, 4, 8⟩ := by decide +kernel
  have hwords : (buildWords ⟨8, 4, 1, some 20, none⟩ ⟨1, 2, 3, 4⟩
      [32, 189, 58, 178, 55, 163, 192, 181, 173]).outcome =
      .ok ⟨#[0, 0, 0, 4197929465536859595, 14785050223768927676, 44357]⟩ := by decide +kernel
  have hpacked' : (buildPacked ⟨16, 4, 1, some 20, none⟩ ⟨1, 2, 3, 4⟩
      [32, 189, 58, 178, 55, 163, 192, 181, 173]).outcome =
      .ok ⟨⟨#[0, 0, 0, 4197929465536859595, 14785050223768927676, 44357], 384⟩, 6, 4, 16⟩ := by
    decide +kernel
  have hnone : (buildBytes ⟨8, 4, 1, some 0, some 3⟩ ⟨1, 2, 3, 4⟩
      [32, 189, 58, 178, 55, 163, 192, 181, 173]).outcome = refuse (.evictionLimit 0) := by
    decide +kernel
  have hsame := (lanes_hold_the_packed_entries ⟨8, 4, 1, none, some 3⟩ 20 ⟨1, 2, 3, 4⟩
    [32, 189, 58, 178, 55, 163, 192, 181, 173] hbuckets (by decide)).1
  have hsame' := (lanes_hold_the_packed_entries ⟨8, 4, 1, none, none⟩ 20 ⟨1, 2, 3, 4⟩
    [32, 189, 58, 178, 55, 163, 192, 181, 173] hbuckets (by decide)).2
  rw [hbytes, hpacked, alike_ok_iff] at hsame
  rw [hwords, hpacked', alike_ok_iff] at hsame'
  exact ⟨⟨hbytes, hpacked, hsame⟩, ⟨hwords, hpacked', hsame'⟩, hnone⟩

end ApproxSet.Cuckoo
