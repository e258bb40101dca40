import ApproxSet.Proofs.Cuckoo.Refinement
import ApproxSet.Proofs.Refusals

/-!
# When a construction overflows

Settings are only looked at one by one, and nobody looks at the size of the table that they make
together with the keys. So a number may overrun its word: that of the buckets, that of the bits or,
in a table of more than `2 ^ 32` buckets, a product that maps half a hash onto them.

Evictions add nothing to that. Whatever is in a table has got there from its home, or from there to
the partner of its home, and the way back is the same sum the other way round. So it is enough that
both can be found for the keys, and a construction only overflows at a key for which they cannot.
-/

namespace ApproxSet.Cuckoo

open Bits Outcome

/-! ### The number of buckets -/

/-- The number of buckets for a number of keys, whether it fits into a word or not. -/
def exactBuckets (keys entries : Nat) (loadFactor : Float) : Nat :=
  let needed := Numbers.ceiling (Numbers.ofCount keys / Numbers.ofCount entries / loadFactor)
  let room := needed + Numbers.ceiling (Numbers.ofCount needed).sqrt
  max 2 (room + room % 2)

theorem bucketsFor_eq_fit (keys entries : Nat) (loadFactor : Float) :
    bucketsFor keys entries loadFactor = Checked.fit 64 (exactBuckets keys entries loadFactor) := by
  rw [bucketsFor, exactBuckets]
  generalize Numbers.ceiling (Numbers.ofCount keys / Numbers.ofCount entries / loadFactor) = needed
  generalize Numbers.ceiling (Numbers.ofCount needed).sqrt = spare
  by_cases hroom : needed + spare < 2 ^ 64
  · rw [Checked.add_eq_ok hroom, ok_bind]
    by_cases heven : needed + spare + (needed + spare) % 2 < 2 ^ 64
    · rw [Checked.add_eq_ok heven, ok_bind, Checked.fit_eq_ok (by omega), pure_eq_ok]
    · rw [Checked.add_eq_overflow (by omega), Checked.fit_eq_overflow (by omega)]
      rfl
  · rw [Checked.add_eq_overflow (by omega), Checked.fit_eq_overflow (by omega)]
    rfl

/-! ### Ways between buckets -/

variable {buckets bucket width : Nat} {print key : UInt64}

/-- The partner of a bucket can be found, and from there the bucket again. -/
structure Links (buckets : Nat) (print : UInt64) (bucket : Nat) : Prop where
  there : partner bucket print buckets = .ok (partnerOf buckets print bucket)
  back : partner (partnerOf buckets print bucket) print buckets = .ok bucket

theorem Links.symm (h : Links buckets print bucket) (hp : Paired buckets)
    (hb : bucket < buckets) : Links buckets print (partnerOf buckets print bucket) := by
  have htwice := partnerOf_partnerOf hp print hb
  constructor
  · rw [htwice]
    exact h.back
  · rw [htwice]
    exact h.there

/-- A partner can be found if the offset of the fingerprint can, and the sum need not be taken from
the double number of buckets unless a word holds that. -/
theorem partner_eq_ok_of_fits (hp : Paired buckets) (hb : bucket < buckets)
    (hsmall : buckets < 2 ^ 64)
    (hscale : (Hash.low print * 0x5bd1e995).toNat * (buckets / 2) < 2 ^ 64)
    (hdouble : bucket + offsetOf buckets print ≤ buckets ∨ 2 * buckets < 2 ^ 64) :
    partner bucket print buckets = .ok (partnerOf buckets print bucket) := by
  have hlt := offsetOf_lt hp print
  have hoffset : oddOffset print buckets = .ok (offsetOf buckets print) := by
    unfold offsetOf at hlt
    rw [oddOffset, Hash.scale_eq_ok_iff.2 ⟨hscale, rfl⟩, ok_bind, Checked.add_eq_ok (by omega)]
    rfl
  rw [partner, require_bind _ ⟨hp.even, hb⟩, hoffset, ok_bind, Checked.add_eq_ok (by omega),
    ok_bind]
  unfold partnerOf
  by_cases hsum : bucket + offsetOf buckets print ≤ buckets
  · rw [if_pos hsum, if_pos hsum, pure_eq_ok]
  · rw [if_neg hsum, if_neg hsum, Checked.mul_eq_ok (by omega), ok_bind,
      Checked.sub_eq_ok (by omega)]

/-- The two products fit into a word that lead to the home of a key and from there to its
partner. -/
structure Locatable (buckets width : Nat) (key : UInt64) : Prop where
  home : (Hash.high (Hash.mix key)).toNat * buckets < 2 ^ 64
  offset : (Hash.low (Home.at key width buckets).print * 0x5bd1e995).toNat * (buckets / 2) < 2 ^ 64

theorem locatable_of_le (hle : buckets ≤ 2 ^ 32) (width : Nat) (key : UInt64) :
    Locatable buckets width key := by
  have hproduct : ∀ (hash : UInt32) {places : Nat}, places ≤ 2 ^ 32 →
      hash.toNat * places < 2 ^ 64 := fun hash _ hplaces =>
    (Hash.scale_eq_ok_iff.1 (Hash.scale_eq_ok hash hplaces)).1
  exact ⟨hproduct _ hle, hproduct _ (by omega)⟩

theorem Locatable.home_eq_ok (h : Locatable buckets width key) (hw : width < 64) :
    Home.of key width buckets = .ok (Home.at key width buckets) := by
  rw [Home.of, require_bind _ hw, Hash.scale_eq_ok_iff.2 ⟨h.home, rfl⟩, ok_bind, pure_eq_ok,
    Home.at]

/-- Homes and offsets that can be found are small, whatever the number of buckets. -/
theorem Locatable.links (h : Locatable buckets width key) (hp : Paired buckets)
    (hsmall : buckets < 2 ^ 64) :
    Links buckets (Home.at key width buckets).print (Home.at key width buckets).bucket := by
  have hb := Home.at_bucket_lt hp key width
  have hscale := h.offset
  have hbucket : (Home.at key width buckets).bucket < 2 ^ 32 :=
    Nat.div_lt_of_lt_mul (Nat.lt_of_lt_of_eq h.home (by decide))
  generalize (Home.at key width buckets).print = print at *
  generalize (Home.at key width buckets).bucket = bucket at *
  have hplace : Hash.place (Hash.low print * 0x5bd1e995) (buckets / 2) < 2 ^ 32 :=
    Nat.div_lt_of_lt_mul (Nat.lt_of_lt_of_eq hscale (by decide))
  have hoffset : offsetOf buckets print < 2 ^ 33 := by
    unfold offsetOf
    omega
  have hother := partnerOf_lt hp print hb
  constructor
  · exact partner_eq_ok_of_fits hp hb hsmall hscale (by omega)
  · have hback : partnerOf buckets print bucket + offsetOf buckets print ≤ buckets ∨
        2 * buckets < 2 ^ 64 := by
      unfold partnerOf
      split
      · exact .inl (by omega)
      · exact .inr (by omega)
    rw [partner_eq_ok_of_fits hp hother hsmall hscale hback, partnerOf_partnerOf hp print hb]

/-! ### The key that stops a construction -/

variable {τ : Type} [Buckets τ] {s : Shape} {state : State τ} {home : Home} {kicks total : Nat}
  {keys : List UInt64}

/-- The keys come to one that cannot be located, and all before it have been stored. -/
def Stops (s : Shape) (kicks total : Nat) (state : State τ) (keys : List UInt64) : Prop :=
  ∃ before key after last, keys = before ++ key :: after ∧
    (insertAll s.width kicks total before state).outcome = .ok last ∧
    ¬Locatable s.buckets s.width key

/-- With up to `2 ^ 32` buckets all keys can be located. -/
theorem not_stops (hle : s.buckets ≤ 2 ^ 32) : ¬Stops s kicks total state keys := by
  rintro ⟨before, key, after, last, -, -, hkey⟩
  exact hkey (locatable_of_le hle s.width key)

theorem insertAll_cons {placed : Option (State τ)} (total : Nat)
    (hhome : Home.of key width (Buckets.bucketCount state.table) = .ok home)
    (hplaced : place kicks state home = .ok placed) (keys : List UInt64) :
    (insertAll width kicks total (key :: keys) state).outcome =
      placed.elim (refuse (.evictionLimit kicks)) fun next =>
        (insertAll width kicks total keys next).outcome := by
  simp only [insertAll, Traced.outcome_bind, Traced.outcome_lift]
  rw [hhome, ok_bind, hplaced, ok_bind]
  cases placed with
  | some next => rfl
  | none => rfl

/-- Behind a key that can be located, it is a later key that stops the construction. -/
theorem stops_cons {placed : Option (State τ)} (hkey : Locatable s.buckets s.width key)
    (hhome : Home.of key s.width (Buckets.bucketCount state.table) = .ok home)
    (hplaced : place kicks state home = .ok placed) :
    Stops s kicks total state (key :: keys) ↔ ∃ next ∈ placed, Stops s kicks total next keys := by
  have hcons := insertAll_cons total hhome hplaced
  constructor
  · rintro ⟨before, other, after, last, hkeys, hlast, hother⟩
    cases before with
    | nil =>
      obtain ⟨rfl, -⟩ := List.cons.inj hkeys
      exact absurd hkey hother
    | cons first before =>
      obtain ⟨rfl, rfl⟩ := List.cons.inj hkeys
      rw [hcons] at hlast
      cases placed with
      | none => exact absurd hlast refuse_ne_ok
      | some next => exact ⟨next, rfl, before, other, after, last, rfl, hlast, hother⟩
  · rintro ⟨next, rfl, before, other, after, last, rfl, hlast, hother⟩
    exact ⟨key :: before, other, after, last, rfl, (hcons before).trans hlast, hother⟩

/-! ### Evictions -/

variable [LawfulBuckets τ] {cells : Cells}

/-- Every fingerprint in the table can be moved to its other bucket, and back. -/
def Cells.Linked (cells : Cells) (s : Shape) : Prop :=
  ∀ b e, cells.Occupied s b e → Links s.buckets (cells b e) b

/-- The state shows cells that are linked. -/
def State.Linked (state : State τ) (s : Shape) : Prop :=
  ∃ cells : Cells, LawfulBuckets.Shows state.table s cells ∧ cells.Linked s

theorem Cells.Linked.put (h : cells.Linked s) (entry : Nat)
    (hlinks : Links s.buckets print bucket) : (cells.put bucket entry print).Linked s := by
  intro b e hocc
  by_cases hsame : b = bucket ∧ e = entry
  · rw [hsame.1, hsame.2, Cells.put_self]
    exact hlinks
  · rw [Cells.put_other hsame]
    exact h b e ((Cells.occupied_put_other hsame).1 hocc)

/-- A fingerprint goes into its bucket, or the bucket is full. -/
theorem insert?_linked {t : τ} (hshows : LawfulBuckets.Shows t s cells) (hlinked : cells.Linked s)
    (hvalid : home.Valid s) (hlinks : Links s.buckets home.print home.bucket) :
    ∃ result, Buckets.insert? t home.bucket home.print = .ok result ∧
      (result = none → ∀ e < s.entries, cells home.bucket e ≠ 0) ∧
      ∀ t' ∈ result, ∀ random, (State.mk t' random).Linked s := by
  rcases cells.full_or_free s home.bucket with hfull | ⟨e, he, hzero, hfirst⟩
  · exact ⟨none, LawfulBuckets.insert_full hshows hvalid.bucket_lt hfull, fun _ => hfull, nofun⟩
  · obtain ⟨t', ht', hshows'⟩ :=
      LawfulBuckets.insert_free hshows hvalid.bucket_lt hvalid.fits he hzero hfirst
    refine ⟨some t', ht', nofun, fun t'' ht'' random => ?_⟩
    cases ht''
    exact ⟨_, hshows', hlinked.put e hlinks⟩

/-- Evictions only go along the links of the table, so none overflows and the table stays
linked. -/
theorem evict_linked (hs : s.Usable) (hshows : LawfulBuckets.Shows state.table s cells)
    (hlinked : cells.Linked s) (hvalid : home.Valid s)
    (hlinks : Links s.buckets home.print home.bucket)
    (hfull : ∀ e < s.entries, cells home.bucket e ≠ 0) :
    ∃ placed, evict kicks state home = .ok placed ∧ ∀ next ∈ placed, next.Linked s := by
  induction kicks generalizing state home cells with
  | zero => exact ⟨none, rfl, nofun⟩
  | succ kicks ih =>
    obtain ⟨entry, random, hdraw, he⟩ := Random.below_eq_ok state.random hs.entries_pos
    obtain ⟨table, hswap, hshows'⟩ :=
      LawfulBuckets.swap_eq_ok hshows hvalid.bucket_lt he hvalid.fits
    have hocc : cells.Occupied s home.bucket entry := ⟨hvalid.bucket_lt, he, hfull entry he⟩
    have hlinked' := hlinked.put entry hlinks
    -- the hand now holds what was evicted, which is linked as well
    have hhand : Home.Valid ⟨cells home.bucket entry, home.bucket⟩ s :=
      ⟨hvalid.bucket_lt, LawfulBuckets.fits hshows hvalid.bucket_lt he, hocc.ne_zero⟩
    have hout := hlinked _ _ hocc
    have hback := hout.symm hs.paired hvalid.bucket_lt
    obtain ⟨result, hinsert, hfull', hresult⟩ :=
      insert?_linked hshows' hlinked' (hhand.partner hs) hback
    rw [evict, LawfulBuckets.entriesPerBucket_eq hshows, hdraw, ok_bind]
    dsimp only
    rw [hswap, ok_bind]
    dsimp only
    rw [LawfulBuckets.bucketCount_eq hshows', hout.there, ok_bind, hinsert, ok_bind]
    cases result with
    | none => exact ih hshows' hlinked' (hhand.partner hs) hback (hfull' rfl)
    | some table' =>
      refine ⟨_, rfl, fun next hnext => ?_⟩
      cases hnext
      exact hresult table' rfl random

theorem place_linked (kicks : Nat) (hs : s.Usable) (hstate : state.Linked s)
    (hvalid : home.Valid s) (hlinks : Links s.buckets home.print home.bucket) :
    ∃ placed, place kicks state home = .ok placed ∧ ∀ next ∈ placed, next.Linked s := by
  obtain ⟨cells, hshows, hlinked⟩ := id hstate
  have hother := hvalid.partner hs
  have hback := hlinks.symm hs.paired hvalid.bucket_lt
  have hkept : ∀ next ∈ some state, next.Linked s := fun next hnext => by
    cases hnext
    exact hstate
  obtain ⟨first, hfirst, hfull, hdone⟩ := insert?_linked hshows hlinked hvalid hlinks
  obtain ⟨second, hsecond, hfull', hdone'⟩ := insert?_linked hshows hlinked hother hback
  rw [place]
  generalize state.random.coin = toss
  obtain ⟨stay, random⟩ := toss
  dsimp only
  rw [LawfulBuckets.bucketCount_eq hshows, hlinks.there, ok_bind,
    LawfulBuckets.holds_eq_ok hshows hvalid.bucket_lt hvalid.fits, ok_bind]
  split
  · exact ⟨_, rfl, hkept⟩
  rw [LawfulBuckets.holds_eq_ok hshows hother.bucket_lt hother.fits, ok_bind]
  split
  · exact ⟨_, rfl, hkept⟩
  rw [hfirst, ok_bind, hsecond, ok_bind]
  have htossed : LawfulBuckets.Shows (State.mk state.table random).table s cells := hshows
  cases first with
  | some table =>
    refine ⟨_, rfl, fun next hnext => ?_⟩
    cases hnext
    exact hdone table rfl _
  | none =>
    cases second with
    | some table =>
      refine ⟨_, rfl, fun next hnext => ?_⟩
      cases hnext
      exact hdone' table rfl _
    | none =>
      dsimp only
      cases stay with
      | true =>
        rw [if_pos rfl]
        exact evict_linked hs htossed hlinked hvalid hlinks (hfull rfl)
      | false =>
        rw [if_neg Bool.false_ne_true]
        exact evict_linked hs htossed hlinked hother hback (hfull' rfl)

/-! ### All keys -/

/-- A key that cannot be located breaks the construction off. -/
theorem insertAll_overflow (hs : s.Usable) (hstate : state.Linked s)
    (h : ¬Locatable s.buckets s.width key) (keys : List UInt64) :
    (insertAll s.width kicks total (key :: keys) state).outcome = violate .overflow := by
  obtain ⟨cells, hshows, -⟩ := hstate
  have hcount := LawfulBuckets.bucketCount_eq hshows
  have hwidth := hs.width_le
  have hb := Home.at_bucket_lt hs.paired key s.width
  simp only [insertAll, Traced.outcome_bind, Traced.outcome_lift]
  rw [hcount, Home.of, require_bind _ (show s.width < 64 by omega)]
  by_cases hhome : (Hash.high (Hash.mix key)).toNat * s.buckets < 2 ^ 64
  · have hoffset : 2 ^ 64 ≤ (Hash.low (Home.at key s.width s.buckets).print * 0x5bd1e995).toNat *
        (s.buckets / 2) := Nat.le_of_not_lt fun hoffset => h ⟨hhome, hoffset⟩
    rw [Hash.scale_eq_ok_iff.2 ⟨hhome, rfl⟩, ok_bind, pure_eq_ok, ok_bind, ← Home.at]
    have hplace : place kicks state (Home.at key s.width s.buckets) = violate .overflow := by
      rw [place]
      dsimp only
      rw [hcount, partner, require_bind _ ⟨hs.paired.even, hb⟩, oddOffset,
        Hash.scale_eq_overflow hoffset]
      rfl
    rw [hplace]
    rfl
  · rw [Hash.scale_eq_overflow (Nat.le_of_not_lt hhome)]
    rfl

/-- The keys are stored one after the other until one stops the construction or has used up its
evictions. -/
theorem insertAll_stops (hs : s.Usable) (hsmall : s.buckets < 2 ^ 64) (hstate : state.Linked s) :
    Ends (· = .evictionLimit kicks) (Stops s kicks total state keys)
      (insertAll s.width kicks total keys state).outcome := by
  induction keys generalizing state with
  | nil =>
    refine .answer state ?_
    rintro ⟨before, key, after, last, hkeys, -⟩
    exact absurd hkeys (by simp)
  | cons key keys ih =>
    by_cases hkey : Locatable s.buckets s.width key
    · have hwidth := hs.width_le
      have hvalid := Home.valid_at hs key
      have hhome : Home.of key s.width (Buckets.bucketCount state.table) =
          .ok (Home.at key s.width s.buckets) := by
        obtain ⟨cells, hshows, -⟩ := hstate
        rw [LawfulBuckets.bucketCount_eq hshows]
        exact hkey.home_eq_ok (by omega)
      obtain ⟨placed, hplaced, hnext⟩ :=
        place_linked kicks hs hstate hvalid (hkey.links hs.paired hsmall)
      rw [insertAll_cons total hhome hplaced, propext (stops_cons hkey hhome hplaced)]
      cases placed with
      | none => exact .refused nofun rfl
      | some next =>
        have hends := ih (hnext next rfl)
        simpa using hends
    · rw [insertAll_overflow hs hstate hkey]
      exact .overrun ⟨[], key, keys, state, rfl, rfl, hkey⟩

/-! ### Constructions -/

theorem fill_stops (settings : Settings) (entropy : Random) (defaultKicks : Nat)
    (keys : List UInt64) {empty : τ} (hs : s.Usable) (hsmall : s.buckets < 2 ^ 64)
    (hempty : LawfulBuckets.Shows empty s fun _ _ => 0) :
    Ends (· = .evictionLimit (settings.kicks.getD defaultKicks))
      (Stops s (settings.kicks.getD defaultKicks) keys.length
        ⟨empty, settings.generator entropy⟩ keys)
      (fill settings entropy s.width defaultKicks keys empty).outcome := by
  have hstart : (State.mk empty (settings.generator entropy)).Linked s :=
    ⟨_, hempty, fun b e hocc => absurd rfl hocc.ne_zero⟩
  rw [fill, Traced.outcome_bind]
  exact (insertAll_stops hs hsmall hstart).bind fun last _ hgoes => .answer last.table hgoes

/-- The size of a table decides how its construction ends. If the number of buckets does not fit
into a word, or the table has no room, there is no table. Otherwise there is a table to fill, and
the construction overflows if it gets to a key that cannot be located. With up to `2 ^ 32` buckets
there are no such keys. -/
structure SizeDecides (s : Shape) (room : Prop) (breach : Breach) (empty : Outcome τ)
    (start : Random) (kicks : Nat) (keys : List UInt64) (outcome : Outcome τ) : Prop where
  uncountable : 2 ^ 64 ≤ s.buckets → outcome = violate .overflow
  roomless : s.buckets < 2 ^ 64 → ¬room → outcome = violate breach
  filled : s.buckets < 2 ^ 64 → room → ∃ table, empty = .ok table ∧
    Ends (· = .evictionLimit kicks)
      (Stops s kicks keys.length ⟨table, start⟩ keys) outcome
  small : s.buckets ≤ 2 ^ 32 → room → Ends (· = .evictionLimit kicks) False outcome

/-- The three constructions have their last steps in common. -/
theorem sizeDecides {settings : Settings} {entropy : Random} {entries width defaultKicks : Nat}
    {room : Prop} {breach : Breach} (empty : Nat → Outcome τ)
    (hload : 0 < settings.loadFactor ∧ settings.loadFactor ≤ 1)
    (hentries : 0 < entries) (hpos : 0 < width) (hle : width ≤ 32)
    (hbuckets : exactBuckets keys.length entries settings.loadFactor = buckets)
    (hroomless : ¬room → empty buckets = violate breach)
    (hroom : room → ∃ table, empty buckets = .ok table ∧
      LawfulBuckets.Shows table ⟨buckets, entries, width⟩ fun _ _ => 0) :
    SizeDecides ⟨buckets, entries, width⟩ room breach (empty buckets) (settings.generator entropy)
      (settings.kicks.getD defaultKicks) keys (do
        demandLoadFactor settings.loadFactor
        let buckets ← bucketsFor keys.length entries settings.loadFactor
        let table ← empty buckets
        (fill settings entropy width defaultKicks keys table).outcome) := by
  have hfit := bucketsFor_eq_fit keys.length entries settings.loadFactor
  rw [hbuckets] at hfit
  rw [demandLoadFactor, demand_bind _ hload, hfit]
  by_cases hsmall : buckets < 2 ^ 64
  · rw [Checked.fit_eq_ok hsmall] at hfit ⊢
    rw [ok_bind]
    by_cases hfits : room
    · obtain ⟨table, htable, hshows⟩ := hroom hfits
      have hs : (Shape.mk buckets entries width).Usable :=
        ⟨bucketsFor_paired hfit, hentries, hpos, hle⟩
      have hends := fill_stops settings entropy defaultKicks keys hs hsmall hshows
      rw [htable, ok_bind]
      refine ⟨fun hlarge => absurd hsmall (Nat.not_lt.2 hlarge), fun _ hnone => absurd hfits hnone,
        fun _ _ => ⟨table, rfl, hends⟩, fun hfew _ => ?_⟩
      rwa [propext (iff_false_intro (not_stops hfew))] at hends
    · rw [hroomless hfits]
      exact ⟨fun hlarge => absurd hsmall (Nat.not_lt.2 hlarge), fun _ _ => rfl,
        fun _ hroom => absurd hroom hfits, fun _ hroom => absurd hroom hfits⟩
  · rw [Checked.fit_eq_overflow (Nat.not_lt.1 hsmall)]
    exact ⟨fun _ => rfl, fun hsmall' => absurd hsmall' hsmall, fun hsmall' => absurd hsmall' hsmall,
      fun hfew => absurd (Nat.lt_of_le_of_lt hfew (by decide)) hsmall⟩

theorem Packed.empty_eq_overflow {buckets entries width : Nat}
    (hlarge : ¬buckets * entries * width + 63 < 2 ^ 64) :
    Packed.empty buckets entries width = violate .overflow := by
  by_cases hcount : buckets * entries < 2 ^ 64
  · rw [Packed.empty, Checked.mul_eq_ok hcount, ok_bind]
    by_cases hbits : buckets * entries * width < 2 ^ 64
    · rw [Checked.mul_eq_ok hbits, ok_bind, Store.zeros_eq_overflow (Nat.le_of_not_lt hlarge)]
      rfl
    · rw [Checked.mul_eq_overflow (Nat.le_of_not_lt hbits)]
      rfl
  · rw [Packed.empty, Checked.mul_eq_overflow (Nat.le_of_not_lt hcount)]
    rfl

theorem sizeDecides_buildPacked {settings : Settings} (entropy : Random)
    (hload : 0 < settings.loadFactor ∧ settings.loadFactor ≤ 1) (hpos : 0 < settings.width)
    (hle : settings.width ≤ 32) (hentries : 0 < settings.entries)
    (hbuckets : exactBuckets keys.length settings.entries settings.loadFactor = buckets) :
    SizeDecides ⟨buckets, settings.entries, settings.width⟩
      (buckets * settings.entries * settings.width + 63 < 2 ^ 64) .overflow
      (Packed.empty buckets settings.entries settings.width) (settings.generator entropy)
      (settings.kicks.getD 10000) keys (buildPacked settings entropy keys).outcome := by
  rw [buildPacked_outcome hpos hle hentries]
  exact sizeDecides (fun buckets => Packed.empty buckets settings.entries settings.width)
    hload hentries hpos hle hbuckets Packed.empty_eq_overflow (Packed.empty_eq_ok hpos (by omega))

theorem sizeDecides_buildLanes {empty : Nat → Outcome τ} {octets width : Nat}
    (hkind : LaneKind empty octets width) {settings : Settings} (entropy : Random)
    (hload : 0 < settings.loadFactor ∧ settings.loadFactor ≤ 1)
    (hbuckets : exactBuckets keys.length laneCount settings.loadFactor = buckets) :
    SizeDecides ⟨buckets, laneCount, width⟩ (octets * buckets < 2 ^ 63) .capacity (empty buckets)
      (settings.generator entropy) (settings.kicks.getD 1000) keys
      (buildLanes empty width settings entropy keys).outcome := by
  rw [buildLanes_outcome]
  exact sizeDecides empty hload (by decide) hkind.width_pos hkind.width_le hbuckets
    hkind.empty_eq_capacity hkind.empty_eq_ok

end ApproxSet.Cuckoo
