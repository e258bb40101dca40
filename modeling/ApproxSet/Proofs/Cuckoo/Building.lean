import ApproxSet.Cuckoo.Build
import ApproxSet.Proofs.Cuckoo.Cells

/-!
# What a construction leaves in its table

An eviction carries one homeless fingerprint from bucket to bucket. At each step the table and the
hand together hold the same kinds, each once: the swap exchanges the kind in the hand with that of
the evicted entry, which is not empty, as only full buckets are swapped. So a chain of evictions
that ends has added the one kind it started with, and a construction leaves just the kinds of its
keys.
-/

namespace ApproxSet.Cuckoo

open Bits Outcome

/-! ### The number of buckets -/

section Keeps

variable {τ : Type} [Buckets τ] [LawfulBuckets τ] {state state' : State τ} {home : Home}
  {kicks : Nat}

theorem evict_keeps (h : evict kicks state home = .ok (some state')) :
    Buckets.bucketCount state'.table = Buckets.bucketCount state.table := by
  induction kicks generalizing state home with
  | zero => cases h
  | succ kicks ih =>
    rw [evict] at h
    obtain ⟨⟨entry, random⟩, -, h⟩ := bind_eq_ok_iff.1 h
    obtain ⟨⟨print, table⟩, hswap, h⟩ := bind_eq_ok_iff.1 h
    obtain ⟨bucket, -, h⟩ := bind_eq_ok_iff.1 h
    obtain ⟨result, hinsert, h⟩ := bind_eq_ok_iff.1 h
    rw [← LawfulBuckets.swap_keeps hswap]
    cases result with
    | none => exact ih h
    | some table' =>
      cases h
      exact LawfulBuckets.insert_keeps hinsert

theorem place_keeps (h : place kicks state home = .ok (some state')) :
    Buckets.bucketCount state'.table = Buckets.bucketCount state.table := by
  rw [place] at h
  generalize state.random.coin = toss at h
  obtain ⟨stay, random⟩ := toss
  obtain ⟨other, -, h⟩ := bind_eq_ok_iff.1 h
  obtain ⟨held, -, h⟩ := bind_eq_ok_iff.1 h
  cases held with
  | true =>
    cases h
    rfl
  | false =>
    obtain ⟨held, -, h⟩ := bind_eq_ok_iff.1 h
    cases held with
    | true =>
      cases h
      rfl
    | false =>
      obtain ⟨first, hfirst, h⟩ := bind_eq_ok_iff.1 h
      cases first with
      | some table =>
        cases h
        exact LawfulBuckets.insert_keeps hfirst
      | none =>
        obtain ⟨second, hsecond, h⟩ := bind_eq_ok_iff.1 h
        cases second with
        | some table =>
          cases h
          exact LawfulBuckets.insert_keeps hsecond
        | none =>
          dsimp only at h
          have hkeeps := evict_keeps h
          exact hkeeps

theorem insertAll_keeps {width total : Nat} {keys : List UInt64}
    (h : (insertAll width kicks total keys state).outcome = .ok state') :
    Buckets.bucketCount state'.table = Buckets.bucketCount state.table := by
  induction keys generalizing state with
  | nil =>
    cases h
    rfl
  | cons key keys ih =>
    rw [insertAll, Traced.outcome_bind_eq_ok_iff] at h
    obtain ⟨home, -, h⟩ := h
    obtain ⟨placed, hplaced, h⟩ := Traced.outcome_bind_eq_ok_iff.1 h
    cases placed with
    | none =>
      obtain ⟨-, -, h⟩ := Traced.outcome_bind_eq_ok_iff.1 h
      exact absurd h refuse_ne_ok
    | some next => exact (ih h).trans (place_keeps hplaced)

theorem fill_keeps {settings : Settings} {entropy : Random} {width defaultKicks : Nat}
    {keys : List UInt64} {empty table : τ}
    (h : (fill settings entropy width defaultKicks keys empty).outcome = .ok table) :
    Buckets.bucketCount table = Buckets.bucketCount empty := by
  obtain ⟨last, hlast, h⟩ := Traced.outcome_bind_eq_ok_iff.1 h
  cases h
  exact insertAll_keeps hlast

end Keeps

/-! ### Draws -/

theorem Random.drawBelow_lt {bound : Nat} (h : 0 < bound) (zone draws : Nat) (r : Random) :
    (Random.drawBelow bound zone draws r).1 < bound := by
  have hquotient : ∀ bits : UInt64, bits.toNat * bound / 2 ^ 64 < bound := by
    intro bits
    apply Nat.div_lt_of_lt_mul
    exact Nat.mul_lt_mul_of_pos_right bits.toNat_lt h
  induction draws generalizing r with
  | zero => exact hquotient _
  | succ draws ih =>
    rw [Random.drawBelow]
    dsimp only
    split
    · exact hquotient _
    · exact ih _

/-- Below a positive bound there is always a number to draw. -/
theorem Random.below_eq_ok (r : Random) {bound : Nat} (h : 0 < bound) :
    ∃ entry r', r.below bound = .ok (entry, r') ∧ entry < bound := by
  refine ⟨_, _, require_bind _ h, ?_⟩
  exact Random.drawBelow_lt h (bound * 2 ^ (63 - bound.log2) - 1) (2 ^ 128) r

theorem Random.below_lt {bound entry : Nat} {r r' : Random} (h : r.below bound = .ok (entry, r')) :
    entry < bound := by
  obtain ⟨hpos, h⟩ := require_bind_eq_ok_iff.1 h
  rw [pure_eq_ok, Except.ok.injEq] at h
  have hlt := Random.drawBelow_lt hpos (bound * 2 ^ (63 - bound.log2) - 1) (2 ^ 128) r
  rw [h] at hlt
  exact hlt

variable {τ : Type} [Buckets τ] [LawfulBuckets τ] {s : Shape} {cells : Cells}
  {kinds : Kind → Prop} {state state' : State τ} {home : Home} {kicks : Nat}

/-- The table of a state has each of the given kinds once, and no other kind. -/
def State.Stores (state : State τ) (s : Shape) (kinds : Kind → Prop) : Prop :=
  ∃ cells : Cells, LawfulBuckets.Shows state.table s cells ∧ cells.Stores s kinds

/-- A fingerprint of the right width with one of its two buckets. -/
structure Home.Valid (home : Home) (s : Shape) : Prop where
  bucket_lt : home.bucket < s.buckets
  fits : Fits s.width home.print
  ne_zero : home.print ≠ 0

theorem Home.Valid.partner (hs : s.Usable) (h : home.Valid s) :
    Home.Valid ⟨home.print, partnerOf s.buckets home.print home.bucket⟩ s :=
  ⟨partnerOf_lt hs.paired _ h.bucket_lt, h.fits, h.ne_zero⟩

/-- Evictions that end have added the kind of the homeless fingerprint. -/
theorem evict_stores (hs : s.Usable) (hshows : LawfulBuckets.Shows state.table s cells)
    (hstores : cells.Stores s kinds) (hvalid : home.Valid s)
    (hnew : ¬kinds (home.kind s.buckets)) (hfull : ∀ e < s.entries, cells home.bucket e ≠ 0)
    (h : evict kicks state home = .ok (some state')) :
    state'.Stores s fun kind => kind = home.kind s.buckets ∨ kinds kind := by
  induction kicks generalizing state home cells kinds with
  | zero => cases h
  | succ kicks ih =>
    rw [evict] at h
    obtain ⟨⟨entry, random⟩, hdraw, h⟩ := bind_eq_ok_iff.1 h
    have he : entry < s.entries := by
      rw [← LawfulBuckets.entriesPerBucket_eq hshows]
      exact Random.below_lt hdraw
    obtain ⟨table, hswap, hshows'⟩ :=
      LawfulBuckets.swap_eq_ok hshows hvalid.bucket_lt he hvalid.fits
    dsimp only at h
    rw [hswap, ok_bind] at h
    dsimp only at h
    rw [LawfulBuckets.bucketCount_eq hshows'] at h
    obtain ⟨other, hpartner, h⟩ := bind_eq_ok_iff.1 h
    obtain rfl := partner_eq_partnerOf hpartner
    obtain ⟨result, hinsert, h⟩ := bind_eq_ok_iff.1 h
    have hocc : cells.Occupied s home.bucket entry := ⟨hvalid.bucket_lt, he, hfull entry he⟩
    have hstores' := hstores.put_over hvalid.ne_zero hnew hocc
    -- from here on the hand holds what was evicted, bound for the other bucket of its kind
    have hhand : Home.Valid ⟨cells home.bucket entry, home.bucket⟩ s :=
      ⟨hvalid.bucket_lt, LawfulBuckets.fits hshows hvalid.bucket_lt he, hocc.ne_zero⟩
    have hhand' := hhand.partner hs
    have hkind : Home.kind s.buckets ⟨cells home.bucket entry,
        partnerOf s.buckets (cells home.bucket entry) home.bucket⟩ =
        cells.kind s home.bucket entry := Home.kind_partner hs.paired hhand.bucket_lt
    have hold := hstores.known _ _ hocc
    have hfresh : ∀ kind, kind = cells.kind s home.bucket entry →
        ¬(kind = home.kind s.buckets ∨ kinds kind ∧ kind ≠ cells.kind s home.bucket entry) := by
      intro kind heq hkinds
      rcases hkinds with hhome | ⟨-, hne⟩
      · exact hnew (hhome ▸ heq ▸ hold)
      · exact hne heq
    have hsame : ∀ kind, (kind = cells.kind s home.bucket entry ∨
        (kind = home.kind s.buckets ∨ kinds kind ∧ kind ≠ cells.kind s home.bucket entry)) ↔
        (kind = home.kind s.buckets ∨ kinds kind) := by
      intro kind
      by_cases heq : kind = cells.kind s home.bucket entry
      · simp [heq, hold]
      · simp [heq]
    rcases insert?_spec hshows' hhand'.bucket_lt hhand'.fits hinsert with
      ⟨rfl, hfull'⟩ | ⟨table', e, rfl, he', hzero, hshows''⟩
    · obtain ⟨cells', hshown, hdone⟩ := ih hshows' hstores' hhand' (hfresh _ hkind) hfull' h
      refine ⟨cells', hshown, hdone.congr fun kind => ?_⟩
      rw [hkind]
      exact hsame kind
    · cases h
      refine ⟨_, hshows'', (hstores'.put_free hhand'.bucket_lt he' hhand'.ne_zero
        (hfresh _ hkind) hzero).congr fun kind => ?_⟩
      rw [hkind]
      exact hsame kind

/-! ### One key -/

/-- A bucket that holds a fingerprint has its kind. -/
theorem kinds_of_held (hstores : cells.Stores s kinds) (hvalid : home.Valid s)
    (hheld : ∃ e < s.entries, cells home.bucket e = home.print) : kinds (home.kind s.buckets) := by
  obtain ⟨e, he, heq⟩ := hheld
  have hocc : cells.Occupied s home.bucket e := ⟨hvalid.bucket_lt, he, heq ▸ hvalid.ne_zero⟩
  have hknown := hstores.known _ _ hocc
  rw [Cells.kind, heq] at hknown
  exact hknown

/-- A kind is in the table just if one of its two buckets holds its fingerprint. -/
theorem kinds_iff_held (hs : s.Usable) (hstores : cells.Stores s kinds) (hvalid : home.Valid s) :
    kinds (home.kind s.buckets) ↔ (∃ e < s.entries, cells home.bucket e = home.print) ∨
      ∃ e < s.entries, cells (partnerOf s.buckets home.print home.bucket) e = home.print := by
  constructor
  · intro hkinds
    obtain ⟨b, e, hocc, hkind⟩ := hstores.present _ hkinds
    obtain ⟨hprint, hbucket⟩ := (Home.kind_eq_iff hs.paired hvalid.bucket_lt).1 hkind
    rcases hbucket with rfl | rfl
    · exact .inl ⟨e, hocc.entry_lt, hprint⟩
    · exact .inr ⟨e, hocc.entry_lt, hprint⟩
  · intro hheld
    rcases hheld with hheld | hheld
    · exact kinds_of_held hstores hvalid hheld
    · rw [← Home.kind_partner hs.paired hvalid.bucket_lt]
      exact kinds_of_held hstores (hvalid.partner hs) hheld

/-- Storing a fingerprint leaves its kind in the table, and all others as they were. -/
theorem place_stores (hs : s.Usable) (hstate : state.Stores s kinds) (hvalid : home.Valid s)
    (h : place kicks state home = .ok (some state')) :
    state'.Stores s fun kind => kind = home.kind s.buckets ∨ kinds kind := by
  obtain ⟨cells, hshows, hstores⟩ := hstate
  have hother := hvalid.partner hs
  have hkind := Home.kind_partner hs.paired hvalid.bucket_lt
  have stored : kinds (home.kind s.buckets) →
      state.Stores s fun kind => kind = home.kind s.buckets ∨ kinds kind := by
    intro hkinds
    refine ⟨cells, hshows, hstores.congr fun kind => ⟨.inr, fun hor => ?_⟩⟩
    exact hor.elim (fun heq => heq ▸ hkinds) id
  rw [place] at h
  generalize state.random.coin = toss at h
  obtain ⟨stay, random⟩ := toss
  dsimp only at h
  rw [LawfulBuckets.bucketCount_eq hshows] at h
  obtain ⟨partner, hpartner, h⟩ := bind_eq_ok_iff.1 h
  obtain rfl := partner_eq_partnerOf hpartner
  rw [LawfulBuckets.holds_eq_ok hshows hvalid.bucket_lt hvalid.fits, ok_bind] at h
  split at h
  case isTrue hheld =>
    cases h
    exact stored (kinds_of_held hstores hvalid (of_decide_eq_true hheld))
  case isFalse hhome =>
  rw [LawfulBuckets.holds_eq_ok hshows hother.bucket_lt hother.fits, ok_bind] at h
  split at h
  case isTrue hheld =>
    cases h
    exact stored (hkind ▸ kinds_of_held hstores hother (of_decide_eq_true hheld))
  case isFalse hpartner =>
  have hnew : ¬kinds (home.kind s.buckets) := by
    rw [kinds_iff_held hs hstores hvalid]
    simp only [decide_eq_true_eq] at hhome hpartner
    exact not_or.2 ⟨hhome, hpartner⟩
  obtain ⟨first, hfirst, h⟩ := bind_eq_ok_iff.1 h
  rcases insert?_spec hshows hvalid.bucket_lt hvalid.fits hfirst with
    ⟨rfl, hfull⟩ | ⟨table, e, rfl, he, hzero, hshows'⟩
  case inr =>
    cases h
    exact ⟨_, hshows', hstores.put_free hvalid.bucket_lt he hvalid.ne_zero hnew hzero⟩
  obtain ⟨second, hsecond, h⟩ := bind_eq_ok_iff.1 h
  rcases insert?_spec hshows hother.bucket_lt hother.fits hsecond with
    ⟨rfl, hfull'⟩ | ⟨table, e, rfl, he, hzero, hshows'⟩
  case inr =>
    cases h
    rw [← hkind] at hnew ⊢
    exact ⟨_, hshows', hstores.put_free hother.bucket_lt he hother.ne_zero hnew hzero⟩
  -- both buckets are full, and the coin decides from which of them an entry is evicted
  have htossed : LawfulBuckets.Shows (State.mk state.table random).table s cells := hshows
  dsimp only at h
  cases stay with
  | true =>
    rw [if_pos rfl] at h
    exact evict_stores hs htossed hstores hvalid hnew hfull h
  | false =>
    rw [if_neg Bool.false_ne_true] at h
    rw [← hkind] at hnew ⊢
    exact evict_stores hs htossed hstores hother hnew hfull' h

/-! ### All keys -/

theorem Home.valid_at (hs : s.Usable) (key : UInt64) : (Home.at key s.width s.buckets).Valid s := by
  have hwidth := hs.width_le
  exact ⟨Home.at_bucket_lt hs.paired key s.width,
    Home.fits_at_print hs.width_pos (by omega) key s.buckets,
    Home.at_print_ne_zero key s.width s.buckets⟩

/-- The kinds of a list of keys. -/
def KindAmong (s : Shape) (keys : List UInt64) (kind : Kind) : Prop :=
  ∃ key ∈ keys, (Home.at key s.width s.buckets).kind s.buckets = kind

theorem insertAll_stores (hs : s.Usable) {total : Nat} {keys : List UInt64}
    (hstate : state.Stores s kinds)
    (h : (insertAll s.width kicks total keys state).outcome = .ok state') :
    state'.Stores s fun kind => KindAmong s keys kind ∨ kinds kind := by
  induction keys generalizing state kinds with
  | nil =>
    cases h
    obtain ⟨cells, hshows, hstores⟩ := hstate
    refine ⟨cells, hshows, hstores.congr fun kind => ?_⟩
    simp [KindAmong]
  | cons key keys ih =>
    have hcount : Buckets.bucketCount state.table = s.buckets := by
      obtain ⟨cells, hshows, -⟩ := hstate
      exact LawfulBuckets.bucketCount_eq hshows
    have hvalid := Home.valid_at hs key
    rw [insertAll, Traced.outcome_bind_eq_ok_iff] at h
    obtain ⟨home, hhome, h⟩ := h
    rw [hcount] at hhome
    obtain rfl := Home.of_eq_at hhome
    obtain ⟨placed, hplaced, h⟩ := Traced.outcome_bind_eq_ok_iff.1 h
    cases placed with
    | none =>
      obtain ⟨-, -, h⟩ := Traced.outcome_bind_eq_ok_iff.1 h
      exact absurd h refuse_ne_ok
    | some next =>
      obtain ⟨cells, hshows, hstores⟩ := ih (place_stores hs hstate hvalid hplaced) h
      refine ⟨cells, hshows, hstores.congr fun kind => ?_⟩
      constructor
      · intro hor
        rcases hor with ⟨other, hmem, rfl⟩ | rfl | hkinds
        · exact .inl ⟨other, List.mem_cons_of_mem _ hmem, rfl⟩
        · exact .inl ⟨key, List.mem_cons_self, rfl⟩
        · exact .inr hkinds
      · intro hor
        rcases hor with ⟨other, hmem, rfl⟩ | hkinds
        · rcases List.mem_cons.1 hmem with rfl | hmem
          · exact .inr (.inl rfl)
          · exact .inl ⟨other, hmem, rfl⟩
        · exact .inr (.inr hkinds)

/-- A filled table has the kinds of its keys, each once, and no other kind. -/
theorem fill_stores (hs : s.Usable) {settings : Settings} {entropy : Random} {defaultKicks : Nat}
    {keys : List UInt64} {empty table : τ} (hempty : LawfulBuckets.Shows empty s fun _ _ => 0)
    (h : (fill settings entropy s.width defaultKicks keys empty).outcome = .ok table) :
    ∃ cells : Cells, LawfulBuckets.Shows table s cells ∧ cells.Stores s (KindAmong s keys) := by
  obtain ⟨last, hlast, h⟩ := Traced.outcome_bind_eq_ok_iff.1 h
  cases h
  have hstart : (State.mk empty (settings.generator entropy)).Stores s fun _ => False :=
    ⟨_, hempty, Cells.stores_nothing s⟩
  obtain ⟨cells, hshows, hstores⟩ := insertAll_stores hs hstart hlast
  exact ⟨cells, hshows, hstores.congr fun kind => by simp⟩

end ApproxSet.Cuckoo
