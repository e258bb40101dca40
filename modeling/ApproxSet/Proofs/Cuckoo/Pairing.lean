import ApproxSet.Proofs.Cuckoo.Refinement
import ApproxSet.Proofs.Refusals

/-!
# The buckets of a table stay paired

A bucket and its partner are two, and each is the partner of the other. This needs an even number of
buckets and a bucket that exists. Every table has an even number of them, every key has its home in
one of them, and all that evictions and queries ever go to are homes and their partners. So that
condition never fails, with any number of buckets; what may fail with more than `2 ^ 32` of them is
only that a product fits into a word. With the refusals of the settings and the evictions that may
be used up, these are all the failures of a construction.
-/

namespace ApproxSet.Cuckoo

open Bits Outcome

/-! ### Partners and homes -/

variable {buckets bucket width kicks : Nat}

theorem failsFor_partner (hp : Paired buckets) (print : UInt64) (hb : bucket < buckets) :
    FailsFor (· = .broken .overflow) (partner bucket print buckets) := by
  have hoffset : FailsFor (· = .broken .overflow) (oddOffset print buckets) :=
    (Hash.failsFor_scale _ _).bind fun half _ => Checked.failsFor_fit _ _
  rw [partner, require_bind _ ⟨hp.even, hb⟩]
  refine hoffset.bind fun offset _ => (Checked.failsFor_fit _ _).bind fun sum _ => ?_
  split
  · exact .ok _
  · exact (Checked.failsFor_fit _ _).bind fun double _ => Checked.failsFor_sub double sum

theorem failsFor_home (key : UInt64) (width buckets : Nat) :
    FailsFor (· = .broken .overflow) (Home.of key width buckets) := by
  have hwidth : FailsFor (· = .broken .overflow) (require (width < 64) .overflow) := .require rfl
  exact hwidth.bind fun _ _ => (Hash.failsFor_scale _ _).bind fun _ _ => .ok _

/-! ### Constructions -/

section Constructions

variable {τ : Type} [Buckets τ] [LawfulBuckets τ] {s : Shape} {cells : Cells}
  {kinds : Kind → Prop} {state : State τ} {home : Home}

theorem insert?_eq_ok {t : τ} {b : Nat} {print : UInt64} (hshows : LawfulBuckets.Shows t s cells)
    (hb : b < s.buckets) (hfits : Fits s.width print) :
    ∃ result, Buckets.insert? t b print = .ok result := by
  rcases cells.full_or_free s b with hfull | ⟨e, he, hzero, hfirst⟩
  · exact ⟨none, LawfulBuckets.insert_full hshows hb hfull⟩
  · obtain ⟨t', ht', -⟩ := LawfulBuckets.insert_free hshows hb hfits he hzero hfirst
    exact ⟨some t', ht'⟩

/-- Evictions go from a bucket of the table to the partner of that. -/
theorem failsFor_evict (hs : s.Usable) (hshows : LawfulBuckets.Shows state.table s cells)
    (hb : home.bucket < s.buckets) (hfits : Fits s.width home.print) :
    FailsFor (· = .broken .overflow) (evict kicks state home) := by
  induction kicks generalizing state home cells with
  | zero => exact .ok none
  | succ kicks ih =>
    obtain ⟨entry, random, hdraw, he⟩ := Random.below_eq_ok state.random hs.entries_pos
    obtain ⟨table, hswap, hshows'⟩ := LawfulBuckets.swap_eq_ok hshows hb he hfits
    rw [evict, LawfulBuckets.entriesPerBucket_eq hshows, hdraw, ok_bind]
    dsimp only
    rw [hswap, ok_bind]
    dsimp only
    rw [LawfulBuckets.bucketCount_eq hshows']
    refine (failsFor_partner hs.paired _ hb).bind fun other hother => ?_
    obtain rfl := partner_eq_partnerOf hother
    have hother := partnerOf_lt hs.paired (cells home.bucket entry) hb
    have hevicted := LawfulBuckets.fits hshows hb he
    obtain ⟨result, hinsert⟩ := insert?_eq_ok hshows' hother hevicted
    rw [hinsert, ok_bind]
    cases result with
    | some table' => exact .ok _
    | none => exact ih hshows' hother hevicted

theorem failsFor_place (hs : s.Usable) (hshows : LawfulBuckets.Shows state.table s cells)
    (hvalid : home.Valid s) : FailsFor (· = .broken .overflow) (place kicks state home) := by
  have hpartner := hvalid.partner hs
  obtain ⟨first, hfirst⟩ := insert?_eq_ok hshows hvalid.bucket_lt hvalid.fits
  obtain ⟨second, hsecond⟩ := insert?_eq_ok hshows hpartner.bucket_lt hpartner.fits
  rw [place]
  generalize state.random.coin = toss
  obtain ⟨stay, random⟩ := toss
  dsimp only
  rw [LawfulBuckets.bucketCount_eq hshows]
  refine (failsFor_partner hs.paired _ hvalid.bucket_lt).bind fun other hother => ?_
  obtain rfl := partner_eq_partnerOf hother
  rw [LawfulBuckets.holds_eq_ok hshows hvalid.bucket_lt hvalid.fits, ok_bind]
  split
  · exact .ok _
  rw [LawfulBuckets.holds_eq_ok hshows hpartner.bucket_lt hpartner.fits, ok_bind]
  split
  · exact .ok _
  rw [hfirst, ok_bind, hsecond, ok_bind]
  -- from here on both buckets may be full, and the coin decides from which of them one is evicted
  have htossed : LawfulBuckets.Shows (State.mk state.table random).table s cells := hshows
  cases first with
  | some table => exact .ok _
  | none =>
    cases second with
    | some table => exact .ok _
    | none =>
      dsimp only
      cases stay with
      | true =>
        rw [if_pos rfl]
        exact failsFor_evict hs htossed hvalid.bucket_lt hvalid.fits
      | false =>
        rw [if_neg Bool.false_ne_true]
        exact failsFor_evict hs htossed hpartner.bucket_lt hpartner.fits

/-- How a construction fails that is allowed `kicks` evictions for each key: a number does not fit
into a word, a table does not fit into memory, the settings cannot be used, or a key has used up its
evictions. -/
inductive BuildFails (kicks : Nat) : Failure → Prop where
  | overflow : BuildFails kicks (.broken .overflow)
  | capacity : BuildFails kicks (.broken .capacity)
  | misuse (cause : Misuse) : BuildFails kicks (.refused (.invalidArgument cause))
  | gaveUp : BuildFails kicks (.refused (.evictionLimit kicks))

theorem buildFails_of_overflow {α : Type} {outcome : Outcome α}
    (h : FailsFor (· = .broken .overflow) outcome) : FailsFor (BuildFails kicks) outcome :=
  h.mono fun _ hfailure => hfailure ▸ .overflow

theorem failsFor_insertAll (hs : s.Usable) {total : Nat} {keys : List UInt64}
    (hstate : state.Stores s kinds) :
    FailsFor (BuildFails kicks) (insertAll s.width kicks total keys state).outcome := by
  induction keys generalizing state kinds with
  | nil => exact .ok state
  | cons key keys ih =>
    obtain ⟨cells, hshows, -⟩ := id hstate
    have hvalid := Home.valid_at hs key
    simp only [insertAll, Traced.outcome_bind, Traced.outcome_lift]
    rw [LawfulBuckets.bucketCount_eq hshows]
    refine (buildFails_of_overflow (failsFor_home key s.width s.buckets)).bind fun home hhome => ?_
    obtain rfl := Home.of_eq_at hhome
    refine (buildFails_of_overflow (failsFor_place hs hshows hvalid)).bind fun placed hplaced => ?_
    cases placed with
    | none => exact .refuse .gaveUp
    | some next => exact ih (place_stores hs hstate hvalid hplaced)

theorem failsFor_fill (hs : s.Usable) {settings : Settings} {entropy : Random}
    {defaultKicks : Nat} {keys : List UInt64} {empty : τ}
    (hempty : LawfulBuckets.Shows empty s fun _ _ => 0) :
    FailsFor (BuildFails (settings.kicks.getD defaultKicks))
      (fill settings entropy s.width defaultKicks keys empty).outcome := by
  have hstart : (State.mk empty (settings.generator entropy)).Stores s fun _ => False :=
    ⟨_, hempty, Cells.stores_nothing s⟩
  rw [fill, Traced.outcome_bind]
  exact (failsFor_insertAll hs hstart).bind fun last _ => .ok last.table

theorem failsFor_bucketsFor (keys entries : Nat) (loadFactor : Float) :
    FailsFor (· = .broken .overflow) (bucketsFor keys entries loadFactor) :=
  (Checked.failsFor_fit _ _).bind fun _ _ => (Checked.failsFor_fit _ _).bind fun _ _ => .ok _

theorem Packed.failsFor_empty (buckets entries width : Nat) :
    FailsFor (· = .broken .overflow) (Packed.empty buckets entries width) := by
  have hzeros : ∀ bits, FailsFor (· = .broken .overflow) (Store.zeros bits) := by
    intro bits
    have hwords : FailsFor (· = .broken .overflow) (Store.wordsFor bits) :=
      (Checked.failsFor_fit _ _).bind fun _ _ => .ok _
    exact hwords.bind fun _ _ => .ok _
  rw [Packed.empty]
  refine (Checked.failsFor_fit _ _).bind fun count _ => ?_
  refine (Checked.failsFor_fit _ _).bind fun bits _ => ?_
  exact (hzeros bits).bind fun _ _ => .ok _

/-- The three constructions have their last steps in common. -/
theorem failsFor_build {settings : Settings} {entropy : Random} {empty : Nat → Outcome τ}
    {entries width defaultKicks : Nat} {keys : List UInt64}
    (hroom : ∀ buckets, FailsFor (BuildFails (settings.kicks.getD defaultKicks)) (empty buckets))
    (hshows : ∀ buckets t, empty buckets = .ok t →
      LawfulBuckets.Shows t ⟨buckets, entries, width⟩ fun _ _ => 0)
    (hentries : 0 < entries) (hpos : 0 < width) (hle : width ≤ 32) :
    FailsFor (BuildFails (settings.kicks.getD defaultKicks)) (do
      demandLoadFactor settings.loadFactor
      let buckets ← bucketsFor keys.length entries settings.loadFactor
      let table ← empty buckets
      (fill settings entropy width defaultKicks keys table).outcome) := by
  refine (FailsFor.demand (.misuse _)).bind fun _ _ => ?_
  refine (buildFails_of_overflow (failsFor_bucketsFor _ _ _)).bind fun buckets hbuckets => ?_
  refine (hroom buckets).bind fun table htable => ?_
  have hs : (Shape.mk buckets entries width).Usable :=
    ⟨bucketsFor_paired hbuckets, hentries, hpos, hle⟩
  exact failsFor_fill hs (hshows buckets table htable)

theorem failsFor_buildLanes {empty : Nat → Outcome τ} {octets width : Nat}
    (hkind : LaneKind empty octets width) (settings : Settings) (entropy : Random)
    (keys : List UInt64) :
    FailsFor (BuildFails (settings.kicks.getD 1000))
      (buildLanes empty width settings entropy keys).outcome := by
  rw [buildLanes_outcome]
  refine failsFor_build (fun buckets => ?_) (fun buckets t ht => hkind.empty_shows ht) (by decide)
    hkind.width_pos hkind.width_le
  by_cases hroom : octets * buckets < 2 ^ 63
  · obtain ⟨t, ht, -⟩ := hkind.empty_eq_ok hroom
    rw [ht]
    exact .ok t
  · rw [hkind.empty_eq_capacity hroom]
    exact .violate .capacity

end Constructions

theorem failsFor_buildPacked (s : Settings) (entropy : Random) (keys : List UInt64) :
    FailsFor (BuildFails (s.kicks.getD 10000)) (buildPacked s entropy keys).outcome := by
  simp only [buildPacked, Traced.outcome_bind, Traced.outcome_lift]
  refine (FailsFor.demand (.misuse _)).bind fun _ hwidth => ?_
  refine (FailsFor.demand (.misuse _)).bind fun _ hentries => ?_
  obtain ⟨hpos, hle⟩ := demand_eq_ok_iff.1 hwidth
  have hentries := demand_eq_ok_iff.1 hentries
  exact failsFor_build
    (fun buckets => buildFails_of_overflow (Packed.failsFor_empty buckets s.entries s.width))
    (fun buckets t ht => Packed.empty_shows hpos (by omega) ht) hentries hpos hle

/-- The promises that a construction may break: that a number fits into a word, and that a table
fits into memory. -/
theorem outOfRange_of_buildFails {α : Type} {outcome : Outcome α} {breach : Breach}
    (hfails : FailsFor (BuildFails kicks) outcome) (h : outcome = violate breach) :
    breach = .overflow ∨ breach = .capacity := by
  cases hfails _ h with
  | overflow => exact .inl rfl
  | capacity => exact .inr rfl

/-! ### Queries -/

section Queries

variable {s : Shape} {cells : Cells}

theorem failsFor_scan_both (hs : s.Usable) {holds : Nat → UInt64 → Outcome Bool}
    (hholds : ∀ b print, b < s.buckets → Fits s.width print →
      holds b print = .ok (decide (∃ e < s.entries, cells b e = print))) (key : UInt64) :
    FailsFor (· = .broken .overflow) (do
      let home ← Home.of key s.width s.buckets
      if ← holds home.bucket home.print then return true
      holds (← partner home.bucket home.print s.buckets) home.print : Outcome Bool) := by
  have hvalid := Home.valid_at hs key
  refine (failsFor_home key s.width s.buckets).bind fun home hhome => ?_
  obtain rfl := Home.of_eq_at hhome
  rw [hholds _ _ hvalid.bucket_lt hvalid.fits, ok_bind]
  split
  · exact .ok true
  refine (failsFor_partner hs.paired _ hvalid.bucket_lt).bind fun other hother => ?_
  obtain rfl := partner_eq_partnerOf hother
  rw [hholds _ _ (hvalid.partner hs).bucket_lt hvalid.fits]
  exact .ok _

theorem Packed.failsFor_mayContain (hs : s.Usable) {t : Packed} (h : t.Shows s cells)
    (key : UInt64) : FailsFor (· = .broken .overflow) (t.mayContain key) := by
  rw [Packed.mayContain, h.width_eq, h.buckets_eq]
  exact failsFor_scan_both hs (fun b print hb _ => Packed.holds_eq_ok h hb print) key

theorem WordBuckets.failsFor_mayContain (hs : s.Usable) {t : WordBuckets} (h : t.Shows s cells)
    (key : UInt64) : FailsFor (· = .broken .overflow) (t.mayContain key) := by
  rw [WordBuckets.mayContain, h.buckets_eq, ← h.width_eq]
  exact failsFor_scan_both hs (fun b print => WordBuckets.holds_eq_ok h) key

theorem ByteBuckets.failsFor_mayContain (hs : s.Usable) {t : ByteBuckets} (h : t.Shows s cells)
    (key : UInt64) : FailsFor (· = .broken .overflow) (t.mayContain key) := by
  have hvalid := Home.valid_at hs key
  rw [ByteBuckets.mayContain, h.buckets_eq, ← h.width_eq]
  refine (failsFor_home key s.width s.buckets).bind fun home hhome => ?_
  obtain rfl := Home.of_eq_at hhome
  refine (failsFor_partner hs.paired _ hvalid.bucket_lt).bind fun other hother => ?_
  obtain rfl := partner_eq_partnerOf hother
  rw [wordAt_eq_ok (h.buckets_eq ▸ hvalid.bucket_lt), ok_bind,
    wordAt_eq_ok (h.buckets_eq ▸ (hvalid.partner hs).bucket_lt), ok_bind]
  exact .ok _

end Queries

/-! ### All tables -/

/-- The number of buckets is even and not zero. Keys have their homes in these buckets, with
fingerprints of the width that are not zero. Up to `2 ^ 32` buckets every key has a home and every
query is answered; with more of them both may still overflow, and break no other promise. -/
structure PairsUp (buckets width : Nat) (ask : UInt64 → Outcome Bool) : Prop where
  even : buckets % 2 = 0
  two_le : 2 ≤ buckets
  home : ∀ key home, Home.of key width buckets = .ok home →
    home.bucket < buckets ∧ 1 ≤ home.print.toNat ∧ home.print.toNat < 2 ^ width
  answers : buckets ≤ 2 ^ 32 → ∀ key, (∃ home, Home.of key width buckets = .ok home) ∧
    ∃ found, ask key = .ok found
  broken : ∀ key breach, Home.of key width buckets = violate breach ∨ ask key = violate breach →
    breach = .overflow

theorem pairsUp {s : Shape} {ask : UInt64 → Outcome Bool} (hs : s.Usable)
    (hbroken : ∀ key, FailsFor (· = .broken .overflow) (ask key))
    (hanswers : s.buckets ≤ 2 ^ 32 → ∀ key, ∃ found, ask key = .ok found) :
    PairsUp s.buckets s.width ask := by
  have hwidth := hs.width_le
  refine ⟨hs.paired.even, hs.paired.two_le, fun key home hhome => ?_, fun hle key => ?_,
    fun key breach h => ?_⟩
  · obtain rfl := Home.of_eq_at hhome
    have hvalid := Home.valid_at hs key
    have hprint : (Home.at key s.width s.buckets).print.toNat ≠ 0 := fun h =>
      hvalid.ne_zero (UInt64.toNat_inj.1 h)
    exact ⟨hvalid.bucket_lt, Nat.pos_of_ne_zero hprint, fits_iff_lt.1 hvalid.fits⟩
  · exact ⟨⟨_, Home.of_eq_ok hle (by omega) key⟩, hanswers hle key⟩
  · rcases h with hhome | hask
    · exact Failure.broken.inj (failsFor_home key s.width s.buckets _ hhome)
    · exact Failure.broken.inj (hbroken key _ hask)

theorem pairsUp_buildPacked {s : Settings} {entropy : Random} {keys : List UInt64} {t : Packed}
    (h : (buildPacked s entropy keys).outcome = .ok t) :
    t.width = s.width ∧ PairsUp t.buckets s.width t.mayContain := by
  obtain ⟨hs, cells, hshows, -⟩ := buildPacked_stores h
  have hbroken := Packed.failsFor_mayContain hs hshows
  refine ⟨hshows.width_eq, pairsUp hs hbroken fun hle key => ?_⟩
  obtain ⟨-, found, -, hask, -⟩ := (buildPacked_exact h hle).2 key
  exact ⟨found, hask⟩

theorem pairsUp_buildLanes {τ : Type} [Buckets τ] [LawfulBuckets τ] {empty : Nat → Outcome τ}
    {octets : Nat} {s : Settings} {entropy : Random} {keys : List UInt64} {t : τ}
    {ask : UInt64 → Outcome Bool} (hkind : LaneKind empty octets width)
    (hbroken : ∀ {s : Shape} {cells : Cells}, s.Usable → LawfulBuckets.Shows t s cells →
      ∀ key, FailsFor (· = .broken .overflow) (ask key))
    (hexact : Buckets.bucketCount t ≤ 2 ^ 32 → Exact ask width (Buckets.bucketCount t) keys)
    (h : (buildLanes empty width s entropy keys).outcome = .ok t) :
    PairsUp (Buckets.bucketCount t) width ask := by
  obtain ⟨hs, cells, hshows, -⟩ := buildLanes_stores hkind h
  refine pairsUp hs (hbroken hs hshows) fun hle key => ?_
  obtain ⟨-, found, -, hask, -⟩ := hexact hle key
  exact ⟨found, hask⟩

/-- With an even number of up to `2 ^ 32` buckets, every bucket has a partner for every fingerprint,
which is another bucket of the table and leads back. For all keys and settings, the tables that are
built have an even number of buckets, and their keys have homes in these buckets with fingerprints
that are not zero. So no construction and no query ever asks for the partner of a bucket that does
not exist, or among an odd number of buckets: the promises that are broken, if any, are that a
number fits into a word or a table into memory. -/
theorem every_bucket_has_its_partner :
    (∀ bucket print buckets, buckets % 2 = 0 → 2 ≤ buckets → buckets ≤ 2 ^ 32 → bucket < buckets →
      ∃ other, partner bucket print buckets = .ok other ∧ other < buckets ∧ other ≠ bucket ∧
        partner other print buckets = .ok bucket) ∧
    ∀ (s : Settings) (entropy : Random) (keys : List UInt64),
      (∀ t, (buildPacked s entropy keys).outcome = .ok t →
        t.width = s.width ∧ PairsUp t.buckets s.width t.mayContain) ∧
      (∀ t, (buildBytes s entropy keys).outcome = .ok t → PairsUp t.words.size 8 t.mayContain) ∧
      (∀ t, (buildWords s entropy keys).outcome = .ok t → PairsUp t.words.size 16 t.mayContain) ∧
      ∀ breach, (buildPacked s entropy keys).outcome = violate breach ∨
        (buildBytes s entropy keys).outcome = violate breach ∨
        (buildWords s entropy keys).outcome = violate breach →
          breach = .overflow ∨ breach = .capacity := by
  constructor
  · intro bucket print buckets heven htwo hle hb
    have hp : Paired buckets := ⟨heven, htwo⟩
    have hlt := partnerOf_lt hp print hb
    refine ⟨_, partner_eq_ok hp hle print hb, hlt, partnerOf_ne hp print hb, ?_⟩
    rw [partner_eq_ok hp hle print hlt, partnerOf_partnerOf hp print hb]
  · intro s entropy keys
    refine ⟨fun t => pairsUp_buildPacked, fun t h => ?_, fun t h => ?_, fun breach h => ?_⟩
    · exact pairsUp_buildLanes ByteBuckets.laneKind
        (fun hs hshows => ByteBuckets.failsFor_mayContain hs hshows) (buildBytes_exact h) h
    · exact pairsUp_buildLanes WordBuckets.laneKind
        (fun hs hshows => WordBuckets.failsFor_mayContain hs hshows) (buildWords_exact h) h
    · rcases h with h | h | h
      · exact outOfRange_of_buildFails (failsFor_buildPacked s entropy keys) h
      · exact outOfRange_of_buildFails (failsFor_buildLanes ByteBuckets.laneKind s entropy keys) h
      · exact outOfRange_of_buildFails (failsFor_buildLanes WordBuckets.laneKind s entropy keys) h

/-- Of twelve buckets, those with the indices 5 and 0 are partners for this fingerprint: their sum
with the odd offset is the number of buckets. A table for eight keys has as many. -/
theorem twelve_buckets_pair_up :
    partner 5 7 12 = .ok 0 ∧ partner 0 7 12 = .ok 5 ∧
    (buildPacked ⟨5, 1, 1, some 50, some 5⟩ ⟨5, 6, 7, 8⟩ [1, 2, 3, 4, 5, 6, 7, 8]).outcome =
      .ok ⟨⟨#[9451745555907092], 60⟩, 12, 1, 5⟩ ∧
    PairsUp 12 5 (Packed.mk ⟨#[9451745555907092], 60⟩ 12 1 5).mayContain := by
  obtain ⟨hpairs, htables⟩ := every_bucket_has_its_partner
  have hpartner : partner 5 7 12 = .ok 0 := by decide +kernel
  have hbuilt : (buildPacked ⟨5, 1, 1, some 50, some 5⟩ ⟨5, 6, 7, 8⟩
      [1, 2, 3, 4, 5, 6, 7, 8]).outcome = .ok ⟨⟨#[9451745555907092], 60⟩, 12, 1, 5⟩ := by
    decide +kernel
  obtain ⟨other, hother, -, -, hback⟩ :=
    hpairs 5 7 12 (by decide) (by decide) (by decide) (by decide)
  rw [hpartner] at hother
  cases hother
  exact ⟨hpartner, hback, hbuilt, ((htables _ _ _).1 _ hbuilt).2⟩

end ApproxSet.Cuckoo
