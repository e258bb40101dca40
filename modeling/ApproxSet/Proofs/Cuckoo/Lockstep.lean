import ApproxSet.Proofs.Alike
import ApproxSet.Proofs.Cuckoo.Building

/-!
# Constructions in lockstep

Two tables of different kinds that show the same cells answer every search alike, and an insertion
or a swap leaves them with the same cells again. So two constructions that start from the same cells
and the same generator go through the same evictions: they draw the same numbers, carry the same
fingerprint from bucket to bucket, and end with the same cells or give up on the same key.
-/

namespace ApproxSet.Cuckoo

open Bits Outcome

variable {τ υ : Type} [Buckets τ] [LawfulBuckets τ] [Buckets υ] [LawfulBuckets υ]

/-- Both tables show the same cells. -/
def SameCells (s : Shape) (t : τ) (u : υ) : Prop :=
  ∃ cells : Cells, LawfulBuckets.Shows t s cells ∧ LawfulBuckets.Shows u s cells

/-- Both states have the same cells and draw the same numbers. -/
structure InStep (s : Shape) (a : State τ) (b : State υ) : Prop where
  table : SameCells s a.table b.table
  random : a.random = b.random

variable {s : Shape} {t : τ} {u : υ} {b e : Nat} {print : UInt64} {home : Home} {random : Random}
  {kicks : Nat} {failures : Failure → Failure → Prop}

/-! ### Single operations -/

namespace SameCells

theorem bucketCount_left (h : SameCells s t u) : Buckets.bucketCount t = s.buckets := by
  obtain ⟨cells, ht, -⟩ := h
  exact LawfulBuckets.bucketCount_eq ht

theorem bucketCount_right (h : SameCells s t u) : Buckets.bucketCount u = s.buckets := by
  obtain ⟨cells, -, hu⟩ := h
  exact LawfulBuckets.bucketCount_eq hu

theorem entriesPerBucket_left (h : SameCells s t u) : Buckets.entriesPerBucket t = s.entries := by
  obtain ⟨cells, ht, -⟩ := h
  exact LawfulBuckets.entriesPerBucket_eq ht

theorem entriesPerBucket_right (h : SameCells s t u) : Buckets.entriesPerBucket u = s.entries := by
  obtain ⟨cells, -, hu⟩ := h
  exact LawfulBuckets.entriesPerBucket_eq hu

theorem entry (h : SameCells s t u) (hb : b < s.buckets) (he : e < s.entries) :
    ∃ print, Buckets.entry t b e = .ok print ∧ Buckets.entry u b e = .ok print := by
  obtain ⟨cells, ht, hu⟩ := h
  exact ⟨_, LawfulBuckets.entry_eq_ok ht hb he, LawfulBuckets.entry_eq_ok hu hb he⟩

theorem holds (h : SameCells s t u) (hb : b < s.buckets) (hfits : Fits s.width print) :
    ∃ held, Buckets.holds t b print = .ok held ∧ Buckets.holds u b print = .ok held := by
  obtain ⟨cells, ht, hu⟩ := h
  exact ⟨_, LawfulBuckets.holds_eq_ok ht hb hfits, LawfulBuckets.holds_eq_ok hu hb hfits⟩

/-- Both insertions meet a full bucket, or both fill the same entry. -/
theorem insert_alike (h : SameCells s t u) (hb : b < s.buckets) (hfits : Fits s.width print) :
    Alike failures (Option.Rel (SameCells s)) (Buckets.insert? t b print)
      (Buckets.insert? u b print) := by
  obtain ⟨cells, ht, hu⟩ := h
  rcases cells.full_or_free s b with hfull | ⟨e, he, hzero, hfirst⟩
  · rw [LawfulBuckets.insert_full ht hb hfull, LawfulBuckets.insert_full hu hb hfull]
    exact .answer .none
  · obtain ⟨t', ht', hshows⟩ := LawfulBuckets.insert_free ht hb hfits he hzero hfirst
    obtain ⟨u', hu', hshows'⟩ := LawfulBuckets.insert_free hu hb hfits he hzero hfirst
    rw [ht', hu']
    exact .answer (.some ⟨_, hshows, hshows'⟩)

/-- Both swaps take out the same fingerprint. -/
theorem swap (h : SameCells s t u) (hb : b < s.buckets) (he : e < s.entries)
    (hfits : Fits s.width print) :
    ∃ old t' u', Buckets.swap t b e print = .ok (old, t') ∧
      Buckets.swap u b e print = .ok (old, u') ∧ Fits s.width old ∧ SameCells s t' u' := by
  obtain ⟨cells, ht, hu⟩ := h
  obtain ⟨t', ht', hshows⟩ := LawfulBuckets.swap_eq_ok ht hb he hfits
  obtain ⟨u', hu', hshows'⟩ := LawfulBuckets.swap_eq_ok hu hb he hfits
  exact ⟨_, t', u', ht', hu', LawfulBuckets.fits ht hb he, _, hshows, hshows'⟩

end SameCells

/-! ### Evictions -/

theorem evict_alike (hs : s.Mappable) (h : SameCells s t u) (hb : home.bucket < s.buckets)
    (hfits : Fits s.width home.print) :
    Alike failures (Option.Rel (InStep s)) (evict kicks ⟨t, random⟩ home)
      (evict kicks ⟨u, random⟩ home) := by
  induction kicks generalizing t u random home with
  | zero => exact .answer .none
  | succ kicks ih =>
    obtain ⟨entry, random', hdraw, hentry⟩ := Random.below_eq_ok random hs.entries_pos
    obtain ⟨old, t', u', ht, hu, hold, h'⟩ := h.swap hb hentry hfits
    have hother := partnerOf_lt hs.paired old hb
    rw [evict, evict]
    dsimp only
    rw [h.entriesPerBucket_left, h.entriesPerBucket_right, hdraw, ok_bind, ok_bind]
    dsimp only
    rw [ht, hu, ok_bind, ok_bind]
    dsimp only
    rw [h'.bucketCount_left, h'.bucketCount_right, partner_eq_ok hs.paired hs.le old hb,
      ok_bind, ok_bind]
    refine (h'.insert_alike hother hold).bind fun first second hboth => ?_
    cases hboth with
    | none => exact ih h' hother hold
    | some hsame => exact .answer (.some ⟨hsame, rfl⟩)

/-! ### All keys -/

theorem place_alike (hs : s.Mappable) (h : SameCells s t u) (hvalid : home.Valid s) :
    Alike failures (Option.Rel (InStep s)) (place kicks ⟨t, random⟩ home)
      (place kicks ⟨u, random⟩ home) := by
  have hother := hvalid.partner hs.toUsable
  have same : InStep s (State.mk t random) (State.mk u random) := ⟨h, rfl⟩
  rw [place, place]
  dsimp only
  generalize random.coin = toss
  obtain ⟨stay, random'⟩ := toss
  dsimp only
  rw [h.bucketCount_left, h.bucketCount_right, partner_eq_ok hs.paired hs.le _ hvalid.bucket_lt,
    ok_bind, ok_bind]
  obtain ⟨held, ht, hu⟩ := h.holds hvalid.bucket_lt hvalid.fits
  rw [ht, hu, ok_bind, ok_bind]
  cases held with
  | true => exact .answer (.some same)
  | false =>
    obtain ⟨held, ht, hu⟩ := h.holds hother.bucket_lt hother.fits
    dsimp only at ht hu
    rw [if_neg Bool.false_ne_true, if_neg Bool.false_ne_true, ht, hu, ok_bind, ok_bind]
    cases held with
    | true => exact .answer (.some same)
    | false =>
      refine (h.insert_alike hvalid.bucket_lt hvalid.fits).bind fun first second hfirst => ?_
      cases hfirst with
      | some hsame => exact .answer (.some ⟨hsame, rfl⟩)
      | none =>
        refine (h.insert_alike hother.bucket_lt hother.fits).bind fun first second hsecond => ?_
        cases hsecond with
        | some hsame => exact .answer (.some ⟨hsame, rfl⟩)
        | none =>
          -- the coins agree, so the evictions start from the same bucket
          dsimp only
          cases stay with
          | true =>
            rw [if_pos rfl]
            exact evict_alike hs h hvalid.bucket_lt hvalid.fits
          | false =>
            rw [if_neg Bool.false_ne_true]
            exact evict_alike hs h hother.bucket_lt hother.fits

theorem insertAll_alike (hs : s.Mappable) {total : Nat} {keys : List UInt64} {overrun : Prop}
    (h : SameCells s t u) :
    Alike (FailAlike Eq overrun) (InStep s)
      (insertAll s.width kicks total keys ⟨t, random⟩).outcome
      (insertAll s.width kicks total keys ⟨u, random⟩).outcome := by
  induction keys generalizing t u random with
  | nil => exact .answer ⟨h, rfl⟩
  | cons key keys ih =>
    have hwidth := hs.width_le
    have hhome := Home.of_eq_ok hs.le (show s.width < 64 by omega) key
    simp only [insertAll, Traced.outcome_bind, Traced.outcome_lift]
    rw [h.bucketCount_left, h.bucketCount_right, hhome, ok_bind, ok_bind]
    refine (place_alike hs h (Home.valid_at hs.toUsable key)).bind fun first second hboth => ?_
    cases hboth with
    | none => exact .failure (.refused rfl)
    | @some a b hstep =>
      obtain ⟨t', random'⟩ := a
      obtain ⟨u', random''⟩ := b
      obtain ⟨hsame, hrandom⟩ := hstep
      dsimp only at hsame hrandom
      subst hrandom
      exact ih hsame

/-- Two kinds of empty tables are filled with the same cells, or give up on the same key, if their
settings allow as many evictions and their generators start in the same state. -/
theorem fill_alike (hs : s.Mappable) {settings settings' : Settings} {entropy entropy' : Random}
    {allowed allowed' : Nat} {keys : List UInt64} {overrun : Prop} (h : SameCells s t u)
    (hgenerator : settings.generator entropy = settings'.generator entropy')
    (hkicks : settings.kicks.getD allowed = settings'.kicks.getD allowed') :
    Alike (FailAlike Eq overrun) (SameCells s)
      (fill settings entropy s.width allowed keys t).outcome
      (fill settings' entropy' s.width allowed' keys u).outcome := by
  simp only [fill, Traced.outcome_bind, hgenerator, hkicks]
  exact (insertAll_alike hs h).bind fun a b hstep => .answer hstep.table

end ApproxSet.Cuckoo
