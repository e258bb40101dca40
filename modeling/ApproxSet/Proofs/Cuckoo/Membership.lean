import ApproxSet.Proofs.Cuckoo.Building
import ApproxSet.Proofs.Cuckoo.LaneBuckets
import ApproxSet.Proofs.Cuckoo.PackedBuckets

/-!
# Cuckoo filters are exact up to the kind of a key

A query is answered by whether the kind of its key is among the kinds of the keys stored: their
fingerprint and their pair of buckets. That is all a filter knows. Where the fingerprints ended up,
by which evictions and in which order they came, no query can see.
-/

namespace ApproxSet.Cuckoo

open Bits Outcome

/-! ### Exact answers -/

/-- The answers say whether the kind of the queried key is the kind of one of the given keys. -/
def Exact (mayContain : UInt64 → Outcome Bool) (width buckets : Nat) (keys : List UInt64) : Prop :=
  ∀ query, ∃ kind found, kindOf query width buckets = .ok kind ∧ mayContain query = .ok found ∧
    (found = true ↔ ∃ key ∈ keys, kindOf key width buckets = .ok kind)

variable {ask ask' : UInt64 → Outcome Bool} {width buckets : Nat} {keys keys' : List UInt64}

/-- Exact answers miss no key. -/
theorem Exact.found_of_mem (h : Exact ask width buckets keys) {key : UInt64} (hkey : key ∈ keys) :
    ask key = .ok true := by
  obtain ⟨kind, found, hkind, hask, hiff⟩ := h key
  rw [hask, hiff.2 ⟨key, hkey, hkind⟩]

/-- Exact answers for the same keys in any order are the same answers. -/
theorem Exact.answers_eq (h : Exact ask width buckets keys) (h' : Exact ask' width buckets keys')
    (hperm : keys.Perm keys') (query : UInt64) : ask' query = ask query := by
  obtain ⟨kind, found, hkind, hask, hiff⟩ := h query
  obtain ⟨kind', found', hkind', hask', hiff'⟩ := h' query
  rw [hkind, Except.ok.injEq] at hkind'
  subst hkind'
  have hsame : found' = found := by
    rw [Bool.eq_iff_iff, hiff, hiff']
    constructor
    · intro ⟨key, hkey, heq⟩
      exact ⟨key, hperm.mem_iff.2 hkey, heq⟩
    · intro ⟨key, hkey, heq⟩
      exact ⟨key, hperm.mem_iff.1 hkey, heq⟩
  rw [hask, hask', hsame]

/-! ### Queries -/

section Queries

variable {s : Shape} {cells : Cells} {kinds : Kind → Prop}

/-- Two scans, of the home bucket and of its partner, find just the kinds in the table. -/
theorem scan_both_eq_ok (hs : s.Mappable) {holds : Nat → UInt64 → Outcome Bool}
    (hholds : ∀ b print, b < s.buckets → Fits s.width print →
      holds b print = .ok (decide (∃ e < s.entries, cells b e = print)))
    (hstores : cells.Stores s kinds) (key : UInt64) :
    ∃ found, (do
        let home ← Home.of key s.width s.buckets
        if ← holds home.bucket home.print then return true
        holds (← partner home.bucket home.print s.buckets) home.print : Outcome Bool) =
        .ok found ∧ (found = true ↔ kinds ((Home.at key s.width s.buckets).kind s.buckets)) := by
  have hwidth := hs.width_le
  have hvalid := Home.valid_at hs.toUsable key
  have hother := hvalid.partner hs.toUsable
  rw [kinds_iff_held hs.toUsable hstores hvalid, Home.of_eq_ok hs.le (by omega), ok_bind,
    hholds _ _ hvalid.bucket_lt hvalid.fits, ok_bind]
  by_cases hhome : ∃ e < s.entries,
      cells (Home.at key s.width s.buckets).bucket e = (Home.at key s.width s.buckets).print
  · rw [if_pos (decide_eq_true hhome)]
    exact ⟨true, rfl, iff_of_true rfl (.inl hhome)⟩
  · rw [if_neg (by simpa using hhome), partner_eq_ok hs.paired hs.le _ hvalid.bucket_lt, ok_bind,
      hholds _ _ hother.bucket_lt hother.fits]
    refine ⟨_, rfl, ?_⟩
    rw [decide_eq_true_iff]
    exact ⟨.inr, fun hor => hor.resolve_left hhome⟩

theorem Packed.mayContain_eq_ok (hs : s.Mappable) {t : Packed} (h : t.Shows s cells)
    (hstores : cells.Stores s kinds) (key : UInt64) :
    ∃ found, t.mayContain key = .ok found ∧
      (found = true ↔ kinds ((Home.at key s.width s.buckets).kind s.buckets)) := by
  rw [Packed.mayContain, h.width_eq, h.buckets_eq]
  exact scan_both_eq_ok hs (fun b print hb _ => Packed.holds_eq_ok h hb print) hstores key

theorem WordBuckets.mayContain_eq_ok (hs : s.Mappable) {t : WordBuckets} (h : t.Shows s cells)
    (hstores : cells.Stores s kinds) (key : UInt64) :
    ∃ found, t.mayContain key = .ok found ∧
      (found = true ↔ kinds ((Home.at key s.width s.buckets).kind s.buckets)) := by
  rw [WordBuckets.mayContain, h.buckets_eq, ← h.width_eq]
  exact scan_both_eq_ok hs (fun b print => WordBuckets.holds_eq_ok h) hstores key

theorem ByteBuckets.mayContain_eq_ok (hs : s.Mappable) {t : ByteBuckets} (h : t.Shows s cells)
    (hstores : cells.Stores s kinds) (key : UInt64) :
    ∃ found, t.mayContain key = .ok found ∧
      (found = true ↔ kinds ((Home.at key s.width s.buckets).kind s.buckets)) := by
  have hwidth := hs.width_le
  have hvalid := Home.valid_at hs.toUsable key
  have hother := hvalid.partner hs.toUsable
  have hb : (Home.at key s.width s.buckets).bucket < t.words.size :=
    h.buckets_eq ▸ hvalid.bucket_lt
  have hb' : partnerOf s.buckets (Home.at key s.width s.buckets).print
      (Home.at key s.width s.buckets).bucket < t.words.size := h.buckets_eq ▸ hother.bucket_lt
  rw [ByteBuckets.mayContain, h.buckets_eq, ← h.width_eq, Home.of_eq_ok hs.le (by omega),
    ok_bind, partner_eq_ok hs.paired hs.le _ hvalid.bucket_lt, ok_bind, wordAt_eq_ok hb,
    ok_bind, wordAt_eq_ok hb', ok_bind]
  refine ⟨_, rfl, ?_⟩
  rw [bne_iff_ne, ne_eq, ByteBuckets.zeroOctets_both_eq_zero_iff h hb hb' hvalid.fits, not_not,
    kinds_iff_held hs.toUsable hstores hvalid]

/-- A query that finds just the kinds of the keys is exact. -/
theorem exact_of_kinds (hs : s.Mappable)
    (h : ∀ key, ∃ found, ask key = .ok found ∧
      (found = true ↔ KindAmong s keys ((Home.at key s.width s.buckets).kind s.buckets))) :
    Exact ask s.width s.buckets keys := by
  have hwidth := hs.width_le
  intro query
  obtain ⟨found, hask, hiff⟩ := h query
  refine ⟨_, found, kindOf_eq_ok hs.paired hs.le (by omega) query, hask, hiff.trans ?_⟩
  constructor
  · intro ⟨key, hkey, heq⟩
    exact ⟨key, hkey, by rw [kindOf_eq_ok hs.paired hs.le (by omega), heq]⟩
  · intro ⟨key, hkey, heq⟩
    rw [kindOf_eq_ok hs.paired hs.le (by omega), Except.ok.injEq] at heq
    exact ⟨key, hkey, heq⟩

end Queries

/-! ### Constructions -/

section Constructions

variable {s : Settings} {entropy : Random}

/-- A packed construction fills an empty table of its shape. -/
theorem buildPacked_spec {t : Packed} (h : (buildPacked s entropy keys).outcome = .ok t) :
    (0 < s.width ∧ s.width ≤ 32) ∧ 0 < s.entries ∧
      bucketsFor keys.length s.entries s.loadFactor = .ok t.buckets ∧
      ∃ empty : Packed, empty.Shows ⟨t.buckets, s.entries, s.width⟩ (fun _ _ => 0) ∧
        (fill s entropy s.width 10000 keys empty).outcome = .ok t := by
  obtain ⟨⟨⟩, hwidth, h⟩ := Traced.outcome_bind_eq_ok_iff.1 h
  obtain ⟨⟨⟩, hentries, h⟩ := Traced.outcome_bind_eq_ok_iff.1 h
  obtain ⟨-, -, h⟩ := Traced.outcome_bind_eq_ok_iff.1 h
  obtain ⟨buckets, hbuckets, h⟩ := Traced.outcome_bind_eq_ok_iff.1 h
  obtain ⟨empty, hempty, hfill⟩ := Traced.outcome_bind_eq_ok_iff.1 h
  have hwidth := demand_eq_ok_iff.1 hwidth
  have hentries := demand_eq_ok_iff.1 hentries
  have hshows := Packed.empty_shows hwidth.1 (by omega) hempty
  obtain rfl : t.buckets = buckets := (fill_keeps hfill).trans hshows.buckets_eq
  exact ⟨hwidth, hentries, hbuckets, empty, hshows, hfill⟩

/-- A filled packed table is of a usable shape and has the kinds of its keys. -/
theorem buildPacked_stores {t : Packed} (h : (buildPacked s entropy keys).outcome = .ok t) :
    (Shape.mk t.buckets s.entries s.width).Usable ∧
      ∃ cells : Cells, t.Shows ⟨t.buckets, s.entries, s.width⟩ cells ∧
        cells.Stores ⟨t.buckets, s.entries, s.width⟩
          (KindAmong ⟨t.buckets, s.entries, s.width⟩ keys) := by
  obtain ⟨⟨hpos, hle32⟩, hentries, hbuckets, empty, hempty, hfill⟩ := buildPacked_spec h
  have hs : (Shape.mk t.buckets s.entries s.width).Usable :=
    ⟨bucketsFor_paired hbuckets, hentries, hpos, hle32⟩
  exact ⟨hs, fill_stores hs hempty hfill⟩

theorem buildPacked_exact {t : Packed} (h : (buildPacked s entropy keys).outcome = .ok t)
    (hle : t.buckets ≤ 2 ^ 32) :
    t.width = s.width ∧ Exact t.mayContain s.width t.buckets keys := by
  obtain ⟨hs, cells, hshows, hstores⟩ := buildPacked_stores h
  have hmap : (Shape.mk t.buckets s.entries s.width).Mappable := ⟨hs, hle⟩
  exact ⟨hshows.width_eq, exact_of_kinds hmap (Packed.mayContain_eq_ok hmap hshows hstores)⟩

section Lanes

variable {τ : Type} [Buckets τ] [LawfulBuckets τ] {empty : Nat → Outcome τ} {octets width : Nat}
  {t : τ}

/-- A construction with a bucket in a word fills an empty table of its shape. -/
theorem buildLanes_spec (hkind : LaneKind empty octets width)
    (h : (buildLanes empty width s entropy keys).outcome = .ok t) :
    bucketsFor keys.length laneCount s.loadFactor = .ok (Buckets.bucketCount t) ∧
      ∃ bare : τ, LawfulBuckets.Shows bare ⟨Buckets.bucketCount t, laneCount, width⟩
          (fun _ _ => 0) ∧ (fill s entropy width 1000 keys bare).outcome = .ok t := by
  obtain ⟨-, -, h⟩ := Traced.outcome_bind_eq_ok_iff.1 h
  obtain ⟨buckets, hbuckets, h⟩ := Traced.outcome_bind_eq_ok_iff.1 h
  obtain ⟨bare, hbare, hfill⟩ := Traced.outcome_bind_eq_ok_iff.1 h
  have hshows := hkind.empty_shows hbare
  have hcount : Buckets.bucketCount t = buckets :=
    (fill_keeps hfill).trans (LawfulBuckets.bucketCount_eq hshows)
  rw [hcount]
  exact ⟨hbuckets, bare, hshows, hfill⟩

theorem LaneKind.usable {buckets : Nat} {loadFactor : Float} (hkind : LaneKind empty octets width)
    (hbuckets : bucketsFor keys.length laneCount loadFactor = .ok buckets) :
    (Shape.mk buckets laneCount width).Usable :=
  ⟨bucketsFor_paired hbuckets, (by decide : 0 < laneCount), hkind.width_pos, hkind.width_le⟩

/-- A filled table with a bucket in a word is of a usable shape and has the kinds of its keys. -/
theorem buildLanes_stores (hkind : LaneKind empty octets width)
    (h : (buildLanes empty width s entropy keys).outcome = .ok t) :
    (Shape.mk (Buckets.bucketCount t) laneCount width).Usable ∧
      ∃ cells : Cells, LawfulBuckets.Shows t ⟨Buckets.bucketCount t, laneCount, width⟩ cells ∧
        cells.Stores ⟨Buckets.bucketCount t, laneCount, width⟩
          (KindAmong ⟨Buckets.bucketCount t, laneCount, width⟩ keys) := by
  obtain ⟨hbuckets, bare, hbare, hfill⟩ := buildLanes_spec hkind h
  have hs := hkind.usable hbuckets
  exact ⟨hs, fill_stores hs hbare hfill⟩

/-- Whatever finds just the kinds in a table is exact for one that was built. -/
theorem buildLanes_exact {ask : UInt64 → Outcome Bool} (hkind : LaneKind empty octets width)
    (hask : ∀ {s : Shape} {cells : Cells} {kinds : Kind → Prop}, s.Mappable →
      LawfulBuckets.Shows t s cells → cells.Stores s kinds → ∀ key, ∃ found, ask key = .ok found ∧
        (found = true ↔ kinds ((Home.at key s.width s.buckets).kind s.buckets)))
    (h : (buildLanes empty width s entropy keys).outcome = .ok t)
    (hle : Buckets.bucketCount t ≤ 2 ^ 32) : Exact ask width (Buckets.bucketCount t) keys := by
  obtain ⟨hs, cells, hshows, hstores⟩ := buildLanes_stores hkind h
  have hmap : (Shape.mk (Buckets.bucketCount t) laneCount width).Mappable := ⟨hs, hle⟩
  exact exact_of_kinds hmap (hask hmap hshows hstores)

end Lanes

theorem buildBytes_exact {t : ByteBuckets} (h : (buildBytes s entropy keys).outcome = .ok t)
    (hle : t.words.size ≤ 2 ^ 32) : Exact t.mayContain 8 t.words.size keys :=
  buildLanes_exact ByteBuckets.laneKind (fun hs => ByteBuckets.mayContain_eq_ok hs) h hle

theorem buildWords_exact {t : WordBuckets} (h : (buildWords s entropy keys).outcome = .ok t)
    (hle : t.words.size ≤ 2 ^ 32) : Exact t.mayContain 16 t.words.size keys :=
  buildLanes_exact WordBuckets.laneKind (fun hs => WordBuckets.mayContain_eq_ok hs) h hle

/-- The number of buckets does not depend on the order of the keys. -/
theorem bucketsFor_perm {entries buckets buckets' : Nat} {loadFactor : Float}
    (hperm : keys.Perm keys')
    (h : bucketsFor keys.length entries loadFactor = .ok buckets)
    (h' : bucketsFor keys'.length entries loadFactor = .ok buckets') : buckets' = buckets := by
  rw [hperm.length_eq, h', Except.ok.injEq] at h
  exact h

/-- Exact answers for the same keys in any order are the same answers, also from tables that were
built with another generator or under another bound on the evictions. -/
theorem Exact.answers_eq_of_buckets {buckets' entries : Nat} {loadFactor : Float}
    (h : Exact ask width buckets keys)
    (h' : buckets' ≤ 2 ^ 32 → Exact ask' width buckets' keys') (hle : buckets ≤ 2 ^ 32)
    (hperm : keys.Perm keys')
    (hbuckets : bucketsFor keys.length entries loadFactor = .ok buckets)
    (hbuckets' : bucketsFor keys'.length entries loadFactor = .ok buckets') (query : UInt64) :
    ask' query = ask query := by
  have hsame := bucketsFor_perm hperm hbuckets hbuckets'
  have hexact' := h' (hsame ▸ hle)
  rw [hsame] at hexact'
  exact h.answers_eq hexact' hperm query

/-- What exact answers come to for a table with a bucket in a word: no key is missed, and another
construction of the same keys answers the same. -/
theorem buildLanes_answers {τ : Type} [Buckets τ] [LawfulBuckets τ] {empty : Nat → Outcome τ}
    {octets : Nat} {t : τ} {ask : τ → UInt64 → Outcome Bool} (hkind : LaneKind empty octets width)
    (hexact : ∀ {s : Settings} {entropy : Random} {keys : List UInt64} {t : τ},
      (buildLanes empty width s entropy keys).outcome = .ok t → Buckets.bucketCount t ≤ 2 ^ 32 →
        Exact (ask t) width (Buckets.bucketCount t) keys)
    (h : (buildLanes empty width s entropy keys).outcome = .ok t)
    (hle : Buckets.bucketCount t ≤ 2 ^ 32) :
    Exact (ask t) width (Buckets.bucketCount t) keys ∧ (∀ key ∈ keys, ask t key = .ok true) ∧
      ∀ seed kicks entropy' keys' t', keys.Perm keys' →
        (buildLanes empty width { s with seed := seed, kicks := kicks } entropy' keys').outcome =
          .ok t' → ∀ query, ask t' query = ask t query := by
  refine ⟨hexact h hle, fun key hkey => (hexact h hle).found_of_mem hkey, ?_⟩
  intro seed kicks entropy' keys' t' hperm h'
  exact (hexact h hle).answers_eq_of_buckets (fun hle' => hexact h' hle') hle hperm
    (buildLanes_spec hkind h).1 (buildLanes_spec hkind h').1

end Constructions

/-- For all keys and settings: in tables of up to `2 ^ 32` buckets a query finds a key just if one
of the stored keys has its fingerprint and its pair of buckets. So no stored key is missed, and the
order of the keys, the generator of random numbers, seeded or not, and the evictions allowed have no
influence on any answer. -/
theorem membership_is_exact (s : Settings) (entropy : Random) (keys : List UInt64) :
    (∀ t, (buildPacked s entropy keys).outcome = .ok t → t.buckets ≤ 2 ^ 32 →
      t.width = s.width ∧ Exact t.mayContain s.width t.buckets keys ∧
      (∀ key ∈ keys, t.mayContain key = .ok true) ∧
      ∀ seed kicks entropy' keys' t', keys.Perm keys' →
        (buildPacked { s with seed := seed, kicks := kicks } entropy' keys').outcome = .ok t' →
        ∀ query, t'.mayContain query = t.mayContain query) ∧
    (∀ t, (buildBytes s entropy keys).outcome = .ok t → t.words.size ≤ 2 ^ 32 →
      Exact t.mayContain 8 t.words.size keys ∧
      (∀ key ∈ keys, t.mayContain key = .ok true) ∧
      ∀ seed kicks entropy' keys' t', keys.Perm keys' →
        (buildBytes { s with seed := seed, kicks := kicks } entropy' keys').outcome = .ok t' →
        ∀ query, t'.mayContain query = t.mayContain query) ∧
    (∀ t, (buildWords s entropy keys).outcome = .ok t → t.words.size ≤ 2 ^ 32 →
      Exact t.mayContain 16 t.words.size keys ∧
      (∀ key ∈ keys, t.mayContain key = .ok true) ∧
      ∀ seed kicks entropy' keys' t', keys.Perm keys' →
        (buildWords { s with seed := seed, kicks := kicks } entropy' keys').outcome = .ok t' →
        ∀ query, t'.mayContain query = t.mayContain query) := by
  refine ⟨fun t h hle => ?_, fun t h hle => ?_, fun t h hle => ?_⟩
  · obtain ⟨hwidth, hexact⟩ := buildPacked_exact h hle
    refine ⟨hwidth, hexact, fun key hkey => hexact.found_of_mem hkey, ?_⟩
    intro seed kicks entropy' keys' t' hperm h'
    exact hexact.answers_eq_of_buckets (fun hle' => (buildPacked_exact h' hle').2) hle hperm
      (buildPacked_spec h).2.2.1 (buildPacked_spec h').2.2.1
  · exact buildLanes_answers ByteBuckets.laneKind (fun h => buildBytes_exact h) h hle
  · exact buildLanes_answers WordBuckets.laneKind (fun h => buildWords_exact h) h hle

/-- Eight keys in twelve buckets of one entry, for which something has to be evicted, and in the
other order without a seed: the stores differ and the answers do not. The same keys in octets
and in 16-bit words. -/
theorem eight_keys_in_either_order :
    ((buildPacked ⟨5, 1, 1, some 50, some 5⟩ ⟨1, 2, 3, 4⟩ [1, 2, 3, 4, 5, 6, 7, 8]).outcome =
        .ok ⟨⟨#[9451745555907092], 60⟩, 12, 1, 5⟩ ∧
      (buildPacked ⟨5, 1, 1, none, none⟩ ⟨5, 6, 7, 8⟩ [8, 7, 6, 5, 4, 3, 2, 1]).outcome =
        .ok ⟨⟨#[9460541648028308], 60⟩, 12, 1, 5⟩ ∧
      (Packed.mk ⟨#[9451745555907092], 60⟩ 12 1 5).mayContain 8 = .ok true ∧
      ∀ query, (Packed.mk ⟨#[9460541648028308], 60⟩ 12 1 5).mayContain query =
        (Packed.mk ⟨#[9451745555907092], 60⟩ 12 1 5).mayContain query) ∧
    ((buildBytes {} ⟨1, 2, 3, 4⟩ [1, 2, 3, 4, 5, 6, 7, 8]).outcome =
        .ok ⟨#[5360, 0, 229, 0, 7134228, 59530]⟩ ∧
      (ByteBuckets.mk #[5360, 0, 229, 0, 7134228, 59530]).mayContain 8 = .ok true) ∧
    ((buildWords {} ⟨1, 2, 3, 4⟩ [1, 2, 3, 4, 5, 6, 7, 8]).outcome =
        .ok ⟨#[3742640368, 0, 1509, 0, 56540121540884, 2850559114]⟩ ∧
      (WordBuckets.mk #[3742640368, 0, 1509, 0, 56540121540884, 2850559114]).mayContain 8 =
        .ok true) := by
  have hpacked : (buildPacked ⟨5, 1, 1, some 50, some 5⟩ ⟨1, 2, 3, 4⟩
      [1, 2, 3, 4, 5, 6, 7, 8]).outcome = .ok ⟨⟨#[9451745555907092], 60⟩, 12, 1, 5⟩ := by
    decide +kernel
  have hother : (buildPacked ⟨5, 1, 1, none, none⟩ ⟨5, 6, 7, 8⟩ [8, 7, 6, 5, 4, 3, 2, 1]).outcome =
      .ok ⟨⟨#[9460541648028308], 60⟩, 12, 1, 5⟩ := by decide +kernel
  have hbytes : (buildBytes {} ⟨1, 2, 3, 4⟩ [1, 2, 3, 4, 5, 6, 7, 8]).outcome =
      .ok ⟨#[5360, 0, 229, 0, 7134228, 59530]⟩ := by decide +kernel
  have hwords : (buildWords {} ⟨1, 2, 3, 4⟩ [1, 2, 3, 4, 5, 6, 7, 8]).outcome =
      .ok ⟨#[3742640368, 0, 1509, 0, 56540121540884, 2850559114]⟩ := by decide +kernel
  obtain ⟨-, -, hfound, halike⟩ := (membership_is_exact _ _ _).1 _ hpacked (by decide)
  refine ⟨⟨hpacked, hother, hfound 8 (by decide), ?_⟩, ⟨hbytes, ?_⟩, ⟨hwords, ?_⟩⟩
  · exact halike none none _ _ _ (by decide) hother
  · exact ((membership_is_exact _ _ _).2.1 _ hbytes (by decide)).2.1 8 (by decide)
  · exact ((membership_is_exact _ _ _).2.2 _ hwords (by decide)).2.1 8 (by decide)

end ApproxSet.Cuckoo
