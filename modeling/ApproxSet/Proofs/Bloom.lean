import ApproxSet.Proofs.Bits.Rows
import ApproxSet.Proofs.Hash.Scale
import ApproxSet.Proofs.Numbers.Sizes

/-!
# The bits of a Bloom filter

Up to `2 ^ 32` bits, every hash has a place among the bits. In a longer row the product that maps a
hash onto the bits can overrun its word, and a key with such a hash cannot be added. Turning on the
bits of keys, one after the other, leaves a row with just the bits that some key takes, so the order
of the keys does not matter, and a query is answered by whether its bits are among them.

A filter with keys and with a row of this length has fewer hash functions than a 32-bit counter can
tell. Only a filter without keys can have so many that the counter comes back to zero. It then looks
at no bit at all, and takes every query for a key.
-/

namespace ApproxSet.Bloom

open Bits Outcome

/-- The bit is the place of one of the hashes of the key. -/
def Takes (filter : Bloom) (key : UInt64) (i : Nat) : Prop :=
  ∃ index < filter.hashers, position filter.bits.length (Hash.mix key) index = .ok i

/-- The place of a hash. -/
def placeOf (length : Nat) (hash : UInt64) (index : Nat) : Nat :=
  Hash.place (hashAt hash index) length

/-- The product that maps a hash onto the bits does not fit into a word. -/
def Overruns (length : Nat) (hash : UInt64) (index : Nat) : Prop :=
  2 ^ 64 ≤ (hashAt hash index).toNat * length

variable {filter : Bloom} {bits : Store} {keys keys' : List UInt64} {hash key : UInt64}
  {length count index i bitsPerKey : Nat}

/-! ### Positions -/

theorem position_eq_ok (hash : UInt64) (index : Nat) (h : length ≤ 2 ^ 32) :
    position length hash index = .ok (placeOf length hash index) :=
  Hash.scale_eq_ok _ h

theorem position_eq_ok_of_fits (h : ¬Overruns length hash index) :
    position length hash index = .ok (placeOf length hash index) :=
  Hash.scale_eq_ok_iff.2 ⟨Nat.lt_of_not_le h, rfl⟩

theorem position_eq_overflow (h : Overruns length hash index) :
    position length hash index = violate .overflow :=
  Hash.scale_eq_overflow h

theorem not_overruns (h : length ≤ 2 ^ 32) : ¬Overruns length hash index :=
  Nat.not_le_of_lt (Hash.scale_eq_ok_iff.1 (Hash.scale_eq_ok (hashAt hash index) h)).1

theorem takes_iff (h : filter.bits.length ≤ 2 ^ 32) :
    filter.Takes key i ↔
      ∃ index < filter.hashers, placeOf filter.bits.length (Hash.mix key) index = i := by
  simp only [Takes, position_eq_ok _ _ h, Except.ok.injEq]

/-- The places of hashes from one on are its own and those from the next one on. -/
theorem exists_place_succ (reached : Nat → Prop) :
    (∃ k < count + 1, reached (index + k)) ↔
      reached index ∨ ∃ k < count, reached (index + 1 + k) := by
  constructor
  · rintro ⟨k, hk, h⟩
    cases k with
    | zero => exact .inl h
    | succ k => exact .inr ⟨k, by omega, by rwa [Nat.add_right_comm, Nat.add_assoc]⟩
  · rintro (h | ⟨k, hk, h⟩)
    · exact ⟨0, by omega, h⟩
    · exact ⟨k + 1, by omega, by rwa [Nat.add_right_comm, Nat.add_assoc] at h⟩

/-! ### Turning bits on -/

/-- The store `marked` has the bits of `bits`, and in addition those that are reached. -/
structure Marks (bits marked : Store) (reached : Nat → Prop) : Prop where
  tidy : marked.Tidy
  length : marked.length = bits.length
  bit : ∀ i, marked.bit i = true ↔ bits.bit i = true ∨ reached i

theorem marks_nothing (hbits : bits.Tidy) {reached : Nat → Prop} (hnone : ∀ i, ¬reached i) :
    Marks bits bits reached :=
  ⟨hbits, rfl, fun i => by simp [hnone i]⟩

theorem Marks.trans {mid marked : Store} {first second both : Nat → Prop}
    (h : Marks bits mid first) (h' : Marks mid marked second)
    (hboth : ∀ i, both i ↔ first i ∨ second i) : Marks bits marked both := by
  refine ⟨h'.tidy, h'.length.trans h.length, fun i => ?_⟩
  rw [h'.bit, h.bit, hboth, or_assoc]

theorem setBit_marks (hbits : bits.Tidy) (h : i < bits.length) :
    ∃ marked, bits.setBit i = .ok marked ∧ Marks bits marked (i = ·) := by
  obtain ⟨marked, hmarked, hover, htidy⟩ := Store.setBit_eq_ok hbits h
  refine ⟨marked, hmarked, htidy, hover.length, fun j => ?_⟩
  rw [hover.bit]
  by_cases hj : i = j
  · subst hj
    simp
  · rw [if_neg (by omega)]
    simp [hj]

/-- The first of several hashes turns on its bit, and the others follow. -/
theorem markFrom_succ (hbits : bits.Tidy) (hpos : 0 < bits.length)
    (hfits : ¬Overruns bits.length hash index) (count : Nat) :
    ∃ mid, markFrom hash (count + 1) index bits = markFrom hash count (index + 1) mid ∧
      Marks bits mid (placeOf bits.length hash index = ·) := by
  obtain ⟨mid, hmid, hmarks⟩ := setBit_marks hbits (Hash.place_lt (hashAt hash index) hpos)
  refine ⟨mid, ?_, hmarks⟩
  rw [markFrom, position_eq_ok_of_fits hfits, ok_bind, placeOf, hmid, ok_bind]

theorem markFrom_marks (hbits : bits.Tidy) (hpos : 0 < bits.length)
    (hfits : ∀ k < count, ¬Overruns bits.length hash (index + k)) :
    ∃ marked, markFrom hash count index bits = .ok marked ∧
      Marks bits marked fun i => ∃ k < count, placeOf bits.length hash (index + k) = i := by
  induction count generalizing index bits with
  | zero => exact ⟨bits, rfl, marks_nothing hbits fun i ⟨k, hk, _⟩ => absurd hk (Nat.not_lt_zero k)⟩
  | succ count ih =>
    obtain ⟨mid, hmid, hfirst⟩ := markFrom_succ hbits hpos (hfits 0 (by omega)) count
    have hlength := hfirst.length
    have hlater : ∀ k < count, ¬Overruns mid.length hash (index + 1 + k) := by
      intro k hk
      rw [hlength, Nat.add_assoc, Nat.add_comm 1]
      exact hfits (k + 1) (by omega)
    obtain ⟨marked, hmarked, hrest⟩ := ih hfirst.tidy (by omega) hlater
    refine ⟨marked, hmid.trans hmarked, hfirst.trans hrest fun i => ?_⟩
    rw [hlength]
    exact exists_place_succ fun index => placeOf bits.length hash index = i

theorem markFrom_eq_overflow (hbits : bits.Tidy) (hpos : 0 < bits.length)
    (hoverrun : ∃ k < count, Overruns bits.length hash (index + k)) :
    markFrom hash count index bits = violate .overflow := by
  induction count generalizing index bits with
  | zero => simp at hoverrun
  | succ count ih =>
    -- Bits that are turned on before the overrun leave the length as it is, which is all that
    -- decides about an overrun.
    by_cases hfirst : Overruns bits.length hash index
    · rw [markFrom, position_eq_overflow hfirst]
      rfl
    · obtain ⟨mid, hmid, hmarks⟩ := markFrom_succ hbits hpos hfirst count
      have hlength := hmarks.length
      have hlater := ((exists_place_succ _).1 hoverrun).resolve_left hfirst
      rw [hmid]
      exact ih hmarks.tidy (by omega) (hlength ▸ hlater)

/-- The bit is one of those that the counter lets a key turn on. -/
def Counted (filter : Bloom) (key : UInt64) (i : Nat) : Prop :=
  ∃ index < filter.hashCount, placeOf filter.bits.length (Hash.mix key) index = i

/-- A hash of the key that the counter reaches cannot be mapped onto the bits. -/
def Rejects (filter : Bloom) (key : UInt64) : Prop :=
  ∃ index < filter.hashCount, Overruns filter.bits.length (Hash.mix key) index

theorem insert_marks (hbits : filter.bits.Tidy) (hpos : 0 < filter.bits.length)
    (hfits : ¬filter.Rejects key) :
    ∃ marked, filter.insert key = .ok ⟨marked, filter.hashers⟩ ∧
      Marks filter.bits marked (filter.Counted key) := by
  have hfits : ∀ k < filter.hashCount, ¬Overruns filter.bits.length (Hash.mix key) (0 + k) := by
    intro k hk hoverrun
    exact hfits ⟨0 + k, by omega, hoverrun⟩
  obtain ⟨marked, hmarked, hmarks⟩ := markFrom_marks hbits hpos hfits
  simp only [Nat.zero_add] at hmarks
  rw [insert, hmarked]
  exact ⟨marked, rfl, hmarks⟩

theorem insert_eq_overflow (hbits : filter.bits.Tidy) (hpos : 0 < filter.bits.length)
    (hrejects : filter.Rejects key) : filter.insert key = violate .overflow := by
  have hoverrun : ∃ k < filter.hashCount,
      Overruns filter.bits.length (Hash.mix key) (0 + k) := by simpa [Rejects] using hrejects
  rw [insert, markFrom_eq_overflow hbits hpos hoverrun]
  rfl

/-- Only the length of the row and the number of hash functions decide where hashes go. -/
theorem counted_congr (filter filter' : Bloom) (hlength : filter'.bits.length = filter.bits.length)
    (hhashers : filter'.hashers = filter.hashers) :
    filter'.Counted key i ↔ filter.Counted key i := by
  rw [Counted, Counted, hashCount, hashCount, hlength, hhashers]

theorem rejects_congr (filter filter' : Bloom) (hlength : filter'.bits.length = filter.bits.length)
    (hhashers : filter'.hashers = filter.hashers) : filter'.Rejects key ↔ filter.Rejects key := by
  rw [Rejects, Rejects, hashCount, hashCount, hlength, hhashers]

theorem insertAll_marks (hbits : filter.bits.Tidy) (hpos : 0 < filter.bits.length)
    (hfits : ∀ key ∈ keys, ¬filter.Rejects key) :
    ∃ marked, keys.foldlM insert filter = .ok ⟨marked, filter.hashers⟩ ∧
      Marks filter.bits marked fun i => ∃ key ∈ keys, filter.Counted key i := by
  induction keys generalizing filter with
  | nil => exact ⟨filter.bits, rfl, marks_nothing hbits fun i ⟨key, hkey, _⟩ => nomatch hkey⟩
  | cons key keys ih =>
    obtain ⟨hkey, hkeys⟩ := List.forall_mem_cons.1 hfits
    obtain ⟨mid, hmid, hfirst⟩ := insert_marks hbits hpos hkey
    have hlength := hfirst.length
    have hrest : ∀ other ∈ keys, ¬Rejects ⟨mid, filter.hashers⟩ other := by
      intro other hother
      rw [rejects_congr filter ⟨mid, filter.hashers⟩ hlength rfl]
      exact hkeys other hother
    obtain ⟨marked, hmarked, hmarks⟩ :=
      @ih ⟨mid, filter.hashers⟩ hfirst.tidy (by dsimp only; omega) hrest
    rw [List.foldlM_cons, hmid, ok_bind]
    refine ⟨marked, hmarked, hfirst.trans hmarks fun i => ?_⟩
    have hsame : ∀ other, Counted ⟨mid, filter.hashers⟩ other i ↔ filter.Counted other i :=
      fun other => counted_congr filter ⟨mid, filter.hashers⟩ hlength rfl
    simp only [List.exists_mem_cons_iff, hsame]

theorem insertAll_eq_overflow (hbits : filter.bits.Tidy) (hpos : 0 < filter.bits.length)
    (hrejects : ∃ key ∈ keys, filter.Rejects key) :
    keys.foldlM insert filter = violate .overflow := by
  induction keys generalizing filter with
  | nil => simp at hrejects
  | cons key keys ih =>
    rw [List.foldlM_cons]
    by_cases hkey : filter.Rejects key
    · rw [insert_eq_overflow hbits hpos hkey]
      rfl
    · obtain ⟨mid, hmid, hmarks⟩ := insert_marks hbits hpos hkey
      have hlength := hmarks.length
      obtain ⟨other, hother, hrejected⟩ :=
        ((List.exists_mem_cons_iff ..).1 hrejects).resolve_left hkey
      rw [← rejects_congr filter ⟨mid, filter.hashers⟩ hlength rfl] at hrejected
      rw [hmid, ok_bind]
      exact ih hmarks.tidy (by dsimp only; omega) ⟨other, hother, hrejected⟩

/-! ### Looking bits up -/

theorem getBit_eq_ok (hbits : bits.Tidy) (h : i < bits.length) :
    bits.getBit i = .ok (bits.bit i) :=
  (Store.getBit_iff hbits).2 (Store.getElem?_row h)

theorem markedFrom_eq_ok (hbits : bits.Tidy) (hpos : 0 < bits.length)
    (hle : bits.length ≤ 2 ^ 32) (hash : UInt64) (count index : Nat) :
    ∃ answer, markedFrom bits hash count index = .ok answer ∧
      (answer = true ↔
        ∀ k < count, bits.bit (placeOf bits.length hash (index + k)) = true) := by
  induction count generalizing index with
  | zero => exact ⟨true, rfl, by simp⟩
  | succ count ih =>
    obtain ⟨answer, hanswer, hrest⟩ := ih (index + 1)
    have hplace : placeOf bits.length hash index < bits.length := Hash.place_lt _ hpos
    rw [markedFrom, position_eq_ok hash index hle, ok_bind, getBit_eq_ok hbits hplace, ok_bind]
    split
    case isTrue hon =>
      refine ⟨answer, hanswer, hrest.trans ⟨fun h k hk => ?_, fun h k hk => ?_⟩⟩
      · cases k with
        | zero => exact hon
        | succ k =>
          rw [← Nat.add_assoc, Nat.add_right_comm]
          exact h k (by omega)
      · rw [Nat.add_right_comm]
        exact h (k + 1) (by omega)
    case isFalse hoff =>
      exact ⟨false, rfl, ⟨nofun, fun h => absurd (h 0 (by omega)) hoff⟩⟩

/-- A query is accepted if all bits are on that the counter lets it look at. -/
theorem mayContain_eq_ok (query : UInt64) (hbits : filter.bits.Tidy)
    (hpos : 0 < filter.bits.length) (hle : filter.bits.length ≤ 2 ^ 32) :
    ∃ answer, filter.mayContain query = .ok answer ∧
      (answer = true ↔ ∀ i, filter.Counted query i → filter.bits.bit i = true) := by
  obtain ⟨answer, hanswer, hiff⟩ :=
    markedFrom_eq_ok hbits hpos hle (Hash.mix query) filter.hashCount 0
  refine ⟨answer, hanswer, hiff.trans ⟨fun h i hi => ?_, fun h k hk => ?_⟩⟩
  · obtain ⟨k, hk, rfl⟩ := hi
    simpa using h k hk
  · exact h _ ⟨0 + k, by omega, rfl⟩

/-! ### Whole filters -/

/-- A row that is short enough for its bits to be mapped onto has few hash functions, if there are
keys. -/
theorem hashCount_eq (hkeys : keys ≠ [])
    (hsize : keys.length * bitsPerKey ≤ 2 ^ 32) :
    (⟨bits, hashersFor bitsPerKey⟩ : Bloom).hashCount = hashersFor bitsPerKey := by
  have hlength : 0 < keys.length := List.length_pos_iff.2 hkeys
  have hle : bitsPerKey ≤ keys.length * bitsPerKey := Nat.le_mul_of_pos_left _ hlength
  exact Nat.mod_eq_of_lt (hashersFor_lt (hle.trans hsize))

/-- The row, in whole words, or the place of a hash in it leaves the machine word. -/
def Overflows (keys : List UInt64) (bitsPerKey : Nat) : Prop :=
  2 ^ 64 ≤ keys.length * bitsPerKey + 63 ∨
    ∃ key ∈ keys, ∃ index < hashersFor bitsPerKey % 2 ^ 32,
      Overruns (max 64 (keys.length * bitsPerKey)) (Hash.mix key) index

theorem not_overflows (h : max 64 (keys.length * bitsPerKey) ≤ 2 ^ 32) :
    ¬Overflows keys bitsPerKey := by
  rintro (hrow | ⟨key, -, index, -, hoverrun⟩)
  · omega
  · exact not_overruns h hoverrun

/-- The row of a filter without keys, if it fits into its word. -/
theorem ofSize_eq_ok (h : keys.length * bitsPerKey + 63 < 2 ^ 64) :
    ∃ row, ofSize keys.length bitsPerKey = .ok ⟨row, hashersFor bitsPerKey⟩ ∧ row.Tidy ∧
      row.length = max 64 (keys.length * bitsPerKey) ∧ ∀ i, row.bit i = false := by
  obtain ⟨row, hrow⟩ : ∃ row, Store.zeros (max 64 (keys.length * bitsPerKey)) = .ok row :=
    ⟨_, Store.zeros_eq_ok_iff.2 ⟨by omega, rfl⟩⟩
  rw [ofSize, Checked.mul_eq_ok (by omega), ok_bind, hrow, ok_bind]
  exact ⟨row, rfl, Store.zeros_spec hrow⟩

theorem build_of_fits (hpos : 0 < bitsPerKey) (hfits : ¬Overflows keys bitsPerKey) :
    ∃ filter, build keys bitsPerKey = .ok filter ∧ filter.bits.Tidy ∧
      filter.bits.length = max 64 (keys.length * bitsPerKey) ∧
      filter.hashers = hashersFor bitsPerKey ∧
      ∀ i, filter.bits.bit i = true ↔ ∃ key ∈ keys, filter.Counted key i := by
  obtain ⟨hsize, hplaces⟩ := not_or.1 hfits
  obtain ⟨row, hrow, htidy, hlength, hzero⟩ := ofSize_eq_ok (Nat.lt_of_not_le hsize)
  have hkeys : ∀ key ∈ keys, ¬Rejects ⟨row, hashersFor bitsPerKey⟩ key := by
    rintro key hkey ⟨index, hindex, hoverrun⟩
    exact hplaces ⟨key, hkey, index, hindex, hlength ▸ hoverrun⟩
  obtain ⟨marked, hmarked, hmarks⟩ := insertAll_marks htidy (by dsimp only; omega) hkeys
  rw [build, demand_bind _ hpos, hrow, ok_bind]
  refine ⟨_, hmarked, hmarks.tidy, hmarks.length.trans hlength, rfl, fun i => ?_⟩
  simp only [hmarks.bit, hzero, Bool.false_eq_true, false_or,
    counted_congr ⟨row, hashersFor bitsPerKey⟩ ⟨marked, hashersFor bitsPerKey⟩ hmarks.length rfl]

theorem build_of_overflows (hpos : 0 < bitsPerKey) (hoverflows : Overflows keys bitsPerKey) :
    build keys bitsPerKey = violate .overflow := by
  rw [build, demand_bind _ hpos]
  by_cases hsize : 2 ^ 64 ≤ keys.length * bitsPerKey + 63
  · by_cases hproduct : 2 ^ 64 ≤ keys.length * bitsPerKey
    · rw [ofSize, Checked.mul_eq_overflow hproduct]
      rfl
    · rw [ofSize, Checked.mul_eq_ok (by omega), ok_bind, Store.zeros_eq_overflow (by omega)]
      rfl
  · obtain ⟨row, hrow, htidy, hlength, -⟩ := ofSize_eq_ok (Nat.lt_of_not_le hsize)
    obtain ⟨key, hkey, index, hindex, hoverrun⟩ := hoverflows.resolve_left hsize
    rw [hrow, ok_bind]
    exact insertAll_eq_overflow htidy (by dsimp only; omega)
      ⟨key, hkey, index, hindex, hlength.symm ▸ hoverrun⟩

theorem overflows_perm (hperm : keys.Perm keys') :
    Overflows keys bitsPerKey ↔ Overflows keys' bitsPerKey := by
  simp only [Overflows, hperm.length_eq, hperm.mem_iff]

/-- Filters that are built from the same keys are the same, whether there is one or not. -/
theorem build_perm (hperm : keys.Perm keys') : build keys bitsPerKey = build keys' bitsPerKey := by
  rcases Nat.eq_zero_or_pos bitsPerKey with rfl | hpos
  · rw [build, build, demand_eq_refuse (Nat.lt_irrefl 0)]
    rfl
  by_cases hoverflows : Overflows keys bitsPerKey
  · rw [build_of_overflows hpos hoverflows,
      build_of_overflows hpos ((overflows_perm hperm).1 hoverflows)]
  obtain ⟨⟨bits, hashers⟩, hfilter, htidy, hlength, hhashers, hbit⟩ :=
    build_of_fits hpos hoverflows
  obtain ⟨⟨bits', hashers'⟩, hfilter', htidy', hlength', hhashers', hbit'⟩ :=
    build_of_fits hpos (mt (overflows_perm hperm).2 hoverflows)
  obtain rfl : hashers = hashers' := hhashers.trans hhashers'.symm
  have hrow : bits.length = bits'.length := by
    rw [hlength, hlength', hperm.length_eq]
  -- Tidy rows of one length are equal if they have the same bits. Both have those of the keys.
  have hbits : bits = bits' := by
    refine htidy.ext htidy' hrow fun i => Bool.eq_iff_iff.2 ?_
    simp only [hbit, hbit', hperm.mem_iff, counted_congr ⟨bits', hashers⟩ ⟨bits, hashers⟩ hrow rfl]
  rw [hfilter, hfilter', hbits]

/-- A filter of keys has just the bits that they take. -/
theorem counted_iff_takes (hkeys : keys ≠ [])
    (hsize : keys.length * bitsPerKey ≤ 2 ^ 32) (hlength : filter.bits.length ≤ 2 ^ 32)
    (hhashers : filter.hashers = hashersFor bitsPerKey) :
    filter.Counted key i ↔ filter.Takes key i := by
  have hcount := @hashCount_eq filter.bits keys bitsPerKey hkeys hsize
  rw [takes_iff hlength, Counted, hhashers, ← hcount, ← hhashers]

/-- No bit is looked at just if the counter stays at zero. It does so in particular if there is no
hash function. -/
theorem none_counted_iff (hle : filter.bits.length ≤ 2 ^ 32) :
    (∀ i, filter.Counted key i → False) ↔
      (∀ i, filter.Takes key i → False) ∨ 2 ^ 32 ∣ filter.hashers := by
  have hcounted : (∀ i, filter.Counted key i → False) ↔ 2 ^ 32 ∣ filter.hashers := by
    rw [Nat.dvd_iff_mod_eq_zero]
    constructor
    · intro h
      by_contra hcount
      exact h _ ⟨0, Nat.pos_of_ne_zero hcount, rfl⟩
    · rintro h i ⟨index, hindex, -⟩
      rw [hashCount, h] at hindex
      exact Nat.not_lt_zero index hindex
  -- Nothing is taken only if there is no hash function at all, and zero is a multiple, too.
  have htakes : (∀ i, filter.Takes key i → False) → 2 ^ 32 ∣ filter.hashers := by
    intro h
    by_cases hhashers : filter.hashers = 0
    · rw [hhashers]
      exact Nat.dvd_zero _
    · exact absurd ((takes_iff hle).2 ⟨0, Nat.pos_of_ne_zero hhashers, rfl⟩) (h _)
  rw [hcounted]
  exact ⟨.inr, fun h => h.elim htakes id⟩

/-- For all keys and all numbers of bits for each key that make a row of at most `2 ^ 32` bits:
there is a filter, every hash has a place in it, and its bits that are on are those that some key
takes. A query is accepted if some key takes each of its bits, so all keys are accepted, and the
order of the keys does not matter. Beyond that, all queries are accepted if there are no keys and
the number of hash functions is a multiple of `2 ^ 32`. -/
theorem bits_are_those_of_the_keys (keys : List UInt64) {bitsPerKey : Nat} (hpos : 1 ≤ bitsPerKey)
    (hsize : max 64 (keys.length * bitsPerKey) ≤ 2 ^ 32) :
    ∃ filter, build keys bitsPerKey = .ok filter ∧
      filter.bits.length = max 64 (keys.length * bitsPerKey) ∧
      filter.hashers = hashersFor bitsPerKey ∧
      (∀ key index, ∃ i < filter.bits.length,
        position filter.bits.length (Hash.mix key) index = .ok i) ∧
      (∀ i, filter.bits.bit i = true ↔ ∃ key ∈ keys, filter.Takes key i) ∧
      (∀ query, ∃ answer, filter.mayContain query = .ok answer ∧ (answer = true ↔
        (∀ i, filter.Takes query i → ∃ key ∈ keys, filter.Takes key i) ∨
          keys = [] ∧ 2 ^ 32 ∣ filter.hashers)) ∧
      (∀ key ∈ keys, filter.mayContain key = .ok true) ∧
      ∀ keys', keys.Perm keys' → build keys' bitsPerKey = .ok filter := by
  obtain ⟨filter, hfilter, htidy, hlength, hhashers, hbit⟩ :=
    build_of_fits hpos (not_overflows hsize)
  have hle : filter.bits.length ≤ 2 ^ 32 := by omega
  have hlong : 0 < filter.bits.length := by omega
  have hproduct : keys.length * bitsPerKey ≤ 2 ^ 32 := by omega
  have htakes : ∀ i, filter.bits.bit i = true ↔ ∃ key ∈ keys, filter.Takes key i := by
    intro i
    rw [hbit]
    by_cases hkeys : keys = []
    · simp [hkeys]
    · simp only [counted_iff_takes hkeys hproduct hle hhashers]
  have hquery : ∀ query, ∃ answer, filter.mayContain query = .ok answer ∧ (answer = true ↔
      (∀ i, filter.Takes query i → ∃ key ∈ keys, filter.Takes key i) ∨
        keys = [] ∧ 2 ^ 32 ∣ filter.hashers) := by
    intro query
    obtain ⟨answer, hanswer, hiff⟩ := mayContain_eq_ok query htidy hlong hle
    refine ⟨answer, hanswer, hiff.trans ?_⟩
    by_cases hkeys : keys = []
    · simp only [hbit, hkeys, List.not_mem_nil, false_and, exists_false, true_and]
      exact none_counted_iff hle
    · simp only [htakes, counted_iff_takes hkeys hproduct hle hhashers, hkeys, false_and, or_false]
  refine ⟨filter, hfilter, hlength, hhashers, fun key index => ?_, htakes, hquery, ?_, ?_⟩
  · exact ⟨_, Hash.place_lt _ hlong, position_eq_ok _ index hle⟩
  · intro key hkey
    obtain ⟨answer, hanswer, hiff⟩ := hquery key
    rw [hanswer, hiff.2 (.inl fun i hi => ⟨key, hkey, hi⟩)]
  · intro keys' hperm
    rw [← build_perm hperm, hfilter]

/-- Three keys with ten bits each, in two orders. -/
theorem three_keys_take_their_bits :
    ∃ filter, build [1, 2, 3] 10 = .ok filter ∧ build [3, 1, 2] 10 = .ok filter ∧
      filter.bits.length = 64 ∧ filter.mayContain 2 = .ok true ∧
      ∀ i, filter.bits.bit i = true ↔ ∃ key ∈ [1, 2, 3], filter.Takes key i := by
  obtain ⟨filter, hfilter, hlength, -, -, hbit, -, hfound, hperm⟩ :=
    bits_are_those_of_the_keys [1, 2, 3] (show 1 ≤ 10 by decide) (by decide)
  exact ⟨filter, hfilter, hperm [3, 1, 2] (by decide), hlength, hfound 2 (by decide), hbit⟩

/-- A filter without keys that is made for more than six thousand million bits for each key has
`2 ^ 32` hash functions. It accepts zero, although none of the bits that zero takes is on. -/
theorem zero_is_accepted_without_keys :
    build [] 6196328018 = .ok ⟨⟨#[0], 64⟩, 2 ^ 32⟩ ∧
      mayContain ⟨⟨#[0], 64⟩, 2 ^ 32⟩ 0 = .ok true ∧
      Takes ⟨⟨#[0], 64⟩, 2 ^ 32⟩ 0 0 ∧ Store.getBit ⟨#[0], 64⟩ 0 = .ok false := by
  have hbuild : build [] 6196328018 = .ok ⟨⟨#[0], 64⟩, 2 ^ 32⟩ := by decide +kernel
  exact ⟨hbuild, rfl, ⟨0, by decide, by decide +kernel⟩, by decide +kernel⟩

end ApproxSet.Bloom
