import ApproxSet.Proofs.Cuckoo.Counting
import ApproxSet.Proofs.Cuckoo.Membership
import Mathlib.Data.List.Dedup

/-!
# Every kind is stored once

The occupied entries of a finished filter are the kinds of its keys, each of them once: what an
entry holds is the fingerprint of some key in one of its two buckets, and of the entries in those
two buckets no other holds it as well. So the filter counts the different kinds among its keys.

Nothing is assumed about the number of buckets. A construction that succeeded has computed the
homes and partners of all of its keys.
-/

namespace ApproxSet.Cuckoo

open Bits Outcome

/-! ### The buckets of a kind -/

section Kinds

variable {buckets bucket : Nat} {h : Home}

theorem Home.bucket_eq (buckets : Nat) (h : Home) :
    h.bucket = (h.kind buckets).lower ∨ h.bucket = (h.kind buckets).upper := by
  unfold kind
  dsimp only
  omega

/-- A fingerprint in either of the two buckets of its kind is of this kind. -/
theorem Home.kind_of_bucket (hp : Paired buckets) (hh : h.bucket < buckets)
    (hbucket : bucket = (h.kind buckets).lower ∨ bucket = (h.kind buckets).upper) :
    Home.kind buckets ⟨h.print, bucket⟩ = h.kind buckets := by
  refine (kind_eq_iff hp hh).2 ⟨rfl, ?_⟩
  unfold kind at hbucket
  dsimp only at hbucket ⊢
  omega

theorem Home.bucket_lt_of_kind (hp : Paired buckets) (hh : h.bucket < buckets)
    (hbucket : bucket = (h.kind buckets).lower ∨ bucket = (h.kind buckets).upper) :
    bucket < buckets := by
  have hother := partnerOf_lt hp h.print hh
  unfold kind at hbucket
  dsimp only at hbucket
  omega

end Kinds

/-! ### The kinds of the keys that were stored -/

section Keys

variable {τ : Type} [Buckets τ] {state state' : State τ} {kicks width : Nat}

theorem kindOf_of_place {key : UInt64} {home : Home} {result : Option (State τ)}
    (hhome : Home.of key width (Buckets.bucketCount state.table) = .ok home)
    (h : place kicks state home = .ok result) :
    kindOf key width (Buckets.bucketCount state.table) =
      .ok ((Home.at key width (Buckets.bucketCount state.table)).kind
        (Buckets.bucketCount state.table)) := by
  obtain ⟨other, hother, -⟩ := bind_eq_ok_iff.1 h
  rw [kindOf, hhome, ok_bind, hother, ok_bind, partner_eq_partnerOf hother, ← Home.of_eq_at hhome]
  rfl

/-- A construction that succeeds has computed the kinds of all of its keys. -/
theorem kindOf_of_insertAll [LawfulBuckets τ] {total : Nat} {keys : List UInt64}
    (h : (insertAll width kicks total keys state).outcome = .ok state') :
    ∀ key ∈ keys, kindOf key width (Buckets.bucketCount state.table) =
      .ok ((Home.at key width (Buckets.bucketCount state.table)).kind
        (Buckets.bucketCount state.table)) := by
  induction keys generalizing state with
  | nil => exact nofun
  | cons key keys ih =>
    rw [insertAll, Traced.outcome_bind_eq_ok_iff] at h
    obtain ⟨home, hhome, h⟩ := h
    obtain ⟨placed, hplaced, h⟩ := Traced.outcome_bind_eq_ok_iff.1 h
    refine List.forall_mem_cons.2 ⟨kindOf_of_place hhome hplaced, ?_⟩
    cases placed with
    | none =>
      obtain ⟨-, -, h⟩ := Traced.outcome_bind_eq_ok_iff.1 h
      exact absurd h refuse_ne_ok
    | some next =>
      rw [← place_keeps hplaced]
      exact ih h

end Keys

/-! ### Counting kinds -/

variable {s : Shape} {cells : Cells} {kinds : List Kind}

/-- As many cells are occupied as there are different kinds. -/
theorem Cells.Stores.count_eq (h : cells.Stores s (· ∈ kinds)) :
    cells.count s = kinds.dedup.length := by
  have hdistinct : ((cells.places s).map fun place => cells.kind s place.1 place.2).Nodup := by
    refine (cells.nodup_places s).map_on fun place hplace place' hplace' hsame => ?_
    have hequal := h.once _ _ _ _ (mem_places.1 hplace) (mem_places.1 hplace') hsame
    exact Prod.ext hequal.1 hequal.2
  have hperm : ((cells.places s).map fun place => cells.kind s place.1 place.2).Perm
      kinds.dedup := by
    rw [List.perm_ext_iff_of_nodup hdistinct kinds.nodup_dedup]
    intro kind
    rw [List.mem_map, List.mem_dedup]
    constructor
    · rintro ⟨place, hplace, rfl⟩
      exact h.known _ _ (mem_places.1 hplace)
    · intro hkind
      obtain ⟨b, e, hocc, heq⟩ := h.present kind hkind
      exact ⟨(b, e), mem_places.2 hocc, heq⟩
  rw [← length_places, ← hperm.length_eq, List.length_map]

/-! ### Finished filters -/

/-- The entries of a filter are the kinds of its keys: whatever an entry holds is the fingerprint of
such a kind in one of its buckets, and of each kind there is exactly one entry. So the filter counts
the different kinds, and it is empty just if there are no keys. -/
structure StoresEach {τ : Type} [Buckets τ] (count : τ → Outcome Nat) (isEmpty : τ → Bool) (t : τ)
    (width : Nat) (keys : List UInt64) (kinds : List Kind) : Prop where
  kinds_eq : keys.mapM (fun key => kindOf key width (Buckets.bucketCount t)) = .ok kinds
  known : ∀ b < Buckets.bucketCount t, ∀ e < Buckets.entriesPerBucket t,
    ∃ print, Buckets.entry t b e = .ok print ∧
      (print ≠ 0 → ∃ kind ∈ kinds, kind.print = print ∧ (b = kind.lower ∨ b = kind.upper))
  once : ∀ kind ∈ kinds, ∃! place : Nat × Nat, (place.1 = kind.lower ∨ place.1 = kind.upper) ∧
    place.2 < Buckets.entriesPerBucket t ∧ Buckets.entry t place.1 place.2 = .ok kind.print
  count_eq : count t = .ok kinds.dedup.length
  count_le : kinds.dedup.length ≤ Buckets.bucketCount t * Buckets.entriesPerBucket t
  isEmpty_iff : isEmpty t = true ↔ count t = .ok 0
  count_eq_zero_iff : count t = .ok 0 ↔ keys = []

section Tables

variable {τ : Type} [Buckets τ] [LawfulBuckets τ] {t : τ}

/-- Each kind has exactly one entry. -/
theorem Cells.Stores.exists_unique_entry (hs : s.Usable) (hshows : LawfulBuckets.Shows t s cells)
    (h : cells.Stores s (· ∈ kinds)) {kind : Kind} (hkind : kind ∈ kinds) :
    ∃! place : Nat × Nat, (place.1 = kind.lower ∨ place.1 = kind.upper) ∧
      place.2 < Buckets.entriesPerBucket t ∧
      Buckets.entry t place.1 place.2 = .ok kind.print := by
  rw [LawfulBuckets.entriesPerBucket_eq hshows]
  obtain ⟨b, e, hocc, rfl⟩ := h.present kind hkind
  have hentry := LawfulBuckets.entry_eq_ok hshows hocc.bucket_lt hocc.entry_lt
  refine ⟨(b, e), ⟨Home.bucket_eq s.buckets ⟨cells b e, b⟩, hocc.entry_lt, hentry⟩, ?_⟩
  rintro ⟨b', e'⟩ ⟨hbucket, he, hentry'⟩
  have hb : b' < s.buckets :=
    Home.bucket_lt_of_kind (h := ⟨cells b e, b⟩) hs.paired hocc.bucket_lt hbucket
  rw [LawfulBuckets.entry_eq_ok hshows hb he, Except.ok.injEq] at hentry'
  have hprint : cells b' e' = cells b e := hentry'
  have hocc' : cells.Occupied s b' e' := ⟨hb, he, hprint ▸ hocc.ne_zero⟩
  have hsame : cells.kind s b' e' = cells.kind s b e := by
    rw [Cells.kind, hprint]
    exact Home.kind_of_bucket (h := ⟨cells b e, b⟩) hs.paired hocc.bucket_lt hbucket
  obtain ⟨rfl, rfl⟩ := h.once _ _ _ _ hocc' hocc hsame
  rfl

theorem fill_storesEach (hs : s.Usable) {settings : Settings} {entropy : Random}
    {defaultKicks : Nat} {keys : List UInt64} {empty : τ} {count : τ → Outcome Nat}
    {isEmpty : τ → Bool} (hempty : LawfulBuckets.Shows empty s fun _ _ => 0)
    (h : (fill settings entropy s.width defaultKicks keys empty).outcome = .ok t)
    (hcount : ∀ cells, LawfulBuckets.Shows t s cells → count t = .ok (cells.count s))
    (hisEmpty : ∀ cells, LawfulBuckets.Shows t s cells →
      (isEmpty t = true ↔ cells.count s = 0)) :
    ∃ kinds, StoresEach count isEmpty t s.width keys kinds := by
  obtain ⟨cells, hshows, hstored⟩ := fill_stores hs hempty h
  have hstores : cells.Stores s
      (· ∈ keys.map fun key => (Home.at key s.width s.buckets).kind s.buckets) :=
    hstored.congr fun kind => List.mem_map.symm
  have hknown : ∀ key ∈ keys, kindOf key s.width s.buckets =
      .ok ((Home.at key s.width s.buckets).kind s.buckets) := by
    obtain ⟨last, hlast, -⟩ := Traced.outcome_bind_eq_ok_iff.1 h
    have hkinds := kindOf_of_insertAll hlast
    rwa [LawfulBuckets.bucketCount_eq hempty] at hkinds
  have hnone : count t = .ok 0 ↔ cells.count s = 0 := by
    rw [hcount cells hshows, Except.ok.injEq]
  refine ⟨_, ?_, fun b hb e he => ?_, fun kind hkind => hstores.exists_unique_entry hs hshows hkind,
    ?_, ?_, (hisEmpty cells hshows).trans hnone.symm, hnone.trans ?_⟩
  · rw [LawfulBuckets.bucketCount_eq hshows]
    exact mapM_eq_ok_map hknown
  · rw [LawfulBuckets.bucketCount_eq hshows] at hb
    rw [LawfulBuckets.entriesPerBucket_eq hshows] at he
    refine ⟨cells b e, LawfulBuckets.entry_eq_ok hshows hb he, fun hne => ?_⟩
    exact ⟨_, hstores.known b e ⟨hb, he, hne⟩, rfl, Home.bucket_eq s.buckets ⟨cells b e, b⟩⟩
  · rw [hcount cells hshows, hstores.count_eq]
  · rw [LawfulBuckets.bucketCount_eq hshows, LawfulBuckets.entriesPerBucket_eq hshows,
      ← hstores.count_eq]
    exact cells.count_le s
  · rw [hstores.count_eq, List.length_eq_zero_iff, List.dedup_eq_nil, List.map_eq_nil_iff]

theorem buildLanes_storesEach {settings : Settings} {entropy : Random} {keys : List UInt64}
    {empty : Nat → Outcome τ} {octets width : Nat} {count : τ → Nat} {isEmpty : τ → Bool}
    (hkind : LaneKind empty octets width)
    (hcount : ∀ {s : Shape} {cells : Cells}, LawfulBuckets.Shows t s cells →
      count t = cells.count s)
    (hisEmpty : ∀ {s : Shape} {cells : Cells}, LawfulBuckets.Shows t s cells →
      (isEmpty t = true ↔ cells.count s = 0))
    (h : (buildLanes empty width settings entropy keys).outcome = .ok t) :
    ∃ kinds, StoresEach (fun t => .ok (count t)) isEmpty t width keys kinds := by
  obtain ⟨hbuckets, bare, hbare, hfill⟩ := buildLanes_spec hkind h
  exact fill_storesEach (hkind.usable hbuckets) hbare hfill
    (fun cells hshows => congrArg Except.ok (hcount hshows)) fun cells => hisEmpty

end Tables

/-- For all keys and settings, whatever the number of buckets and the state of the generator: the
entries of a filter that was built are the kinds of its keys, each of them once. -/
theorem each_kind_is_stored_once (s : Settings) (entropy : Random) (keys : List UInt64) :
    (∀ t, (buildPacked s entropy keys).outcome = .ok t →
      ∃ kinds, StoresEach Packed.count Packed.isEmpty t s.width keys kinds) ∧
    (∀ t, (buildBytes s entropy keys).outcome = .ok t →
      ∃ kinds, StoresEach (fun t => .ok t.count) ByteBuckets.isEmpty t 8 keys kinds) ∧
    (∀ t, (buildWords s entropy keys).outcome = .ok t →
      ∃ kinds, StoresEach (fun t => .ok t.count) WordBuckets.isEmpty t 16 keys kinds) := by
  refine ⟨fun t h => ?_, fun t h => ?_, fun t h => ?_⟩
  · obtain ⟨⟨hpos, hle32⟩, hentries, hbuckets, empty, hempty, hfill⟩ := buildPacked_spec h
    have hs : (Shape.mk t.buckets s.entries s.width).Usable :=
      ⟨bucketsFor_paired hbuckets, hentries, hpos, hle32⟩
    exact fill_storesEach hs hempty hfill (fun cells => Packed.count_eq_ok)
      fun cells => Packed.isEmpty_iff
  · exact buildLanes_storesEach ByteBuckets.laneKind (fun hshows => ByteBuckets.count_eq hshows)
      (fun hshows => ByteBuckets.isEmpty_iff hshows) h
  · exact buildLanes_storesEach WordBuckets.laneKind (fun hshows => WordBuckets.count_eq hshows)
      (fun hshows => WordBuckets.isEmpty_iff hshows) h

/-- Eight keys of three kinds are stored in three entries, five keys of which two differ in two, and
without keys the filter is empty. -/
theorem eight_keys_have_three_kinds :
    ((buildPacked ⟨1, 2, 1, some 50, some 5⟩ ⟨1, 2, 3, 4⟩
          [1, 2, 3, 4, 5, 6, 7, 8]).outcome = .ok ⟨⟨#[1041], 12⟩, 6, 2, 1⟩ ∧
      ∃ kinds, StoresEach Packed.count Packed.isEmpty ⟨⟨#[1041], 12⟩, 6, 2, 1⟩ 1
        [1, 2, 3, 4, 5, 6, 7, 8] kinds ∧ kinds.dedup.length = 3) ∧
    ((buildBytes {} ⟨1, 2, 3, 4⟩ [3, 5, 3, 3, 5]).outcome = .ok ⟨#[240, 0, 220, 0]⟩ ∧
      ∃ kinds, StoresEach (fun t => .ok t.count) ByteBuckets.isEmpty ⟨#[240, 0, 220, 0]⟩ 8
        [3, 5, 3, 3, 5] kinds ∧ kinds.dedup.length = 2) ∧
    ((buildWords {} ⟨1, 2, 3, 4⟩ []).outcome = .ok ⟨#[0, 0]⟩ ∧
      (WordBuckets.mk #[0, 0]).isEmpty = true) := by
  have hpacked : (buildPacked ⟨1, 2, 1, some 50, some 5⟩ ⟨1, 2, 3, 4⟩
      [1, 2, 3, 4, 5, 6, 7, 8]).outcome = .ok ⟨⟨#[1041], 12⟩, 6, 2, 1⟩ := by decide +kernel
  have hbytes : (buildBytes {} ⟨1, 2, 3, 4⟩ [3, 5, 3, 3, 5]).outcome = .ok ⟨#[240, 0, 220, 0]⟩ := by
    decide +kernel
  have hwords : (buildWords {} ⟨1, 2, 3, 4⟩ []).outcome = .ok ⟨#[0, 0]⟩ := by decide +kernel
  have hthree : (Packed.mk ⟨#[1041], 12⟩ 6 2 1).count = .ok 3 := by decide +kernel
  have htwo : (.ok (ByteBuckets.mk #[240, 0, 220, 0]).count : Outcome Nat) = .ok 2 := by
    decide +kernel
  obtain ⟨kinds, hkinds⟩ := (each_kind_is_stored_once _ _ _).1 _ hpacked
  obtain ⟨kinds', hkinds'⟩ := (each_kind_is_stored_once _ _ _).2.1 _ hbytes
  obtain ⟨kinds₀, hnone⟩ := (each_kind_is_stored_once _ _ _).2.2 _ hwords
  refine ⟨⟨hpacked, kinds, hkinds, ?_⟩, ⟨hbytes, kinds', hkinds', ?_⟩, hwords, ?_⟩
  · exact (Except.ok.inj (hthree.symm.trans hkinds.count_eq)).symm
  · exact (Except.ok.inj (htwo.symm.trans hkinds'.count_eq)).symm
  · exact hnone.isEmpty_iff.2 (hnone.count_eq_zero_iff.2 rfl)

end ApproxSet.Cuckoo
