import ApproxSet.Cuckoo.Lanes
import ApproxSet.Proofs.Bits.Lanes
import ApproxSet.Proofs.Cuckoo.Cells

/-!
# Buckets in a word as cells

The two tables with a bucket in a word obey the laws of tables: a search for a zero lane finds the
first empty entry, the search for a zero lane after an exclusive or finds a fingerprint, and the
words that shifts and masks make differ in one lane. The test of both buckets at once agrees with
the scan of their entries.
-/

namespace ApproxSet.Cuckoo

open Bits Outcome

/-! ### Lanes of an array of words -/

/-- The lanes of the words are the cells of a table. -/
structure ShowsLanes {ε : Type} (value : ε → Nat) (k : Nat) (words : Array ε) (s : Shape)
    (cells : Cells) : Prop where
  buckets_eq : words.size = s.buckets
  entries_eq : s.entries = laneCount
  width_eq : s.width = k
  lane_eq : ∀ b (h : b < words.size), ∀ e < laneCount, lane k (value words[b]) e = (cells b e).toNat

section ShowsLanes

variable {ε : Type} {value : ε → Nat} {k : Nat} {words : Array ε} {s : Shape} {cells : Cells}
  {b e : Nat} {print : UInt64} {word : ε}

theorem ShowsLanes.fits (h : ShowsLanes value k words s cells) (hb : b < s.buckets)
    (he : e < s.entries) : Fits s.width (cells b e) := by
  have hb' : b < words.size := h.buckets_eq ▸ hb
  rw [fits_iff_lt, h.width_eq, ← h.lane_eq b hb' e (h.entries_eq ▸ he)]
  exact lane_lt _ _ _

theorem ShowsLanes.print_lt (h : ShowsLanes value k words s cells) (hfits : Fits s.width print) :
    print.toNat < 2 ^ k := by
  rw [← h.width_eq]
  exact fits_iff_lt.1 hfits

/-- A word that differs in one lane shows one changed cell. -/
theorem ShowsLanes.put (h : ShowsLanes value k words s cells) (hb : b < words.size)
    (hword : ∀ j < laneCount, lane k (value word) j =
      if j = e then print.toNat else lane k (value words[b]) j) :
    ShowsLanes value k (words.set b word) s (cells.put b e print) := by
  refine ⟨(Array.size_set hb).trans h.buckets_eq, h.entries_eq, h.width_eq, fun b' hb' j hj => ?_⟩
  rw [Array.size_set] at hb'
  by_cases hbb : b' = b
  · subst hbb
    rw [Array.getElem_set_self, hword j hj]
    by_cases hje : j = e
    · rw [if_pos hje, hje, Cells.put_self]
    · rw [if_neg hje, h.lane_eq b' hb j hj, Cells.put_other fun hsame => hje hsame.2]
  · rw [Array.getElem_set_ne hb hb' (Ne.symm hbb), h.lane_eq b' hb' j hj,
      Cells.put_other fun hsame => hbb hsame.1]

theorem showsLanes_replicate {zero : ε} (hzero : value zero = 0) (buckets k : Nat) :
    ShowsLanes value k (Array.replicate buckets zero) ⟨buckets, laneCount, k⟩ fun _ _ => 0 := by
  refine ⟨Array.size_replicate, rfl, rfl, fun b hb e _ => ?_⟩
  rw [Array.getElem_replicate, hzero, lane, Nat.zero_div, Nat.zero_mod]
  rfl

/-- What a search over the lanes of a bucket finds are its cells. -/
theorem ShowsLanes.ne_iff (h : ShowsLanes value k words s cells) (hb : b < words.size)
    (print : UInt64) :
    (∀ j < laneCount, lane k (value words[b]) j ≠ print.toNat) ↔
      ¬∃ e < s.entries, cells b e = print := by
  rw [h.entries_eq]
  constructor
  · intro hne hsome
    obtain ⟨e, he, heq⟩ := hsome
    exact hne e he (by rw [h.lane_eq b hb e he, heq])
  · intro hnone j hj heq
    rw [h.lane_eq b hb j hj] at heq
    exact hnone ⟨j, hj, UInt64.toNat_inj.1 heq⟩

end ShowsLanes

/-! ### Operations on an array of words -/

section Words

variable {ω τ : Type} {value : ω → Nat} {words words' : Array ω} {zero : ω} {width total b e : Nat}

/-- An array that has room is there, and its lanes are empty cells. -/
theorem emptyWords_eq_ok {octets buckets : Nat} (hzero : value zero = 0)
    (hroom : octets * buckets < 2 ^ 63) (k : Nat) :
    ∃ words, emptyWords zero octets buckets = .ok words ∧
      ShowsLanes value k words ⟨buckets, laneCount, k⟩ fun _ _ => 0 :=
  ⟨_, require_bind _ hroom, showsLanes_replicate hzero buckets k⟩

theorem emptyWords_eq_capacity {octets buckets : Nat} (hroom : ¬octets * buckets < 2 ^ 63) :
    emptyWords zero octets buckets = violate .capacity := by
  rw [emptyWords, requireRoom, require, if_neg hroom]
  rfl

theorem wordAt_eq_ok (hb : b < words.size) : wordAt words b = .ok words[b] := dif_pos hb

theorem changeWord_eq_ok {change : ω → ω} (hb : b < words.size) :
    changeWord words b change = .ok (words.set b (change words[b])) := dif_pos hb

theorem size_of_changeWord {change : ω → ω} (h : changeWord words b change = .ok words') :
    words'.size = words.size := by
  unfold changeWord at h
  split at h
  case isTrue hb =>
    cases h
    exact Array.size_set hb
  case isFalse => cases h

theorem shiftOf_eq_ok (h : e * width < total) : shiftOf width total e = .ok (width * e) := by
  rw [shiftOf, require_bind _ h, pure_eq_ok, Nat.mul_comm]

/-- An insertion into one of the words keeps their number. -/
theorem insert_keeps_size {make : Array ω → τ} {size : τ → Nat} {t : τ} {read : Outcome UInt64}
    {flags : UInt64 → UInt64} {shift : UInt64 → Outcome Nat} {change : Nat → ω → ω}
    (hmake : ∀ words, size (make words) = words.size)
    (h : (do
      let word ← read
      if flags word = 0 then return none
      let shift ← shift word
      require (shift < total) .overflow
      return some (make (← changeWord words b (change shift)))) = .ok (some t)) :
    size t = words.size := by
  obtain ⟨word, -, h⟩ := bind_eq_ok_iff.1 h
  split at h
  case isTrue => cases h
  case isFalse =>
    obtain ⟨shift, -, h⟩ := bind_eq_ok_iff.1 h
    obtain ⟨-, h⟩ := require_bind_eq_ok_iff.1 h
    obtain ⟨changed, hchanged, h⟩ := bind_eq_ok_iff.1 h
    cases h
    exact (hmake changed).trans (size_of_changeWord hchanged)

/-- A swap in one of the words keeps their number. -/
theorem swap_keeps_size {make : Array ω → τ} {size : τ → Nat} {t : τ} {read : Outcome UInt64}
    {shift : Outcome Nat} {change : Nat → ω → ω} {old : UInt64}
    (hmake : ∀ words, size (make words) = words.size)
    (h : (do
      let evicted ← read
      let shift ← shift
      let words ← changeWord words b (change shift)
      return (evicted, make words)) = .ok (old, t)) :
    size t = words.size := by
  obtain ⟨evicted, -, h⟩ := bind_eq_ok_iff.1 h
  obtain ⟨shift, -, h⟩ := bind_eq_ok_iff.1 h
  obtain ⟨changed, hchanged, h⟩ := bind_eq_ok_iff.1 h
  cases h
  exact (hmake changed).trans (size_of_changeWord hchanged)

end Words

/-! ### Masks -/

theorem octetMasks : LaneMasks 8 8 0x0101010101010101 0x8080808080808080 where
  pos := by decide
  total := by decide
  one := by decide +kernel
  low := by decide +kernel
  top := by decide +kernel

theorem quarterMasks : LaneMasks 16 4 0x0001000100010001 0x8000800080008000 where
  pos := by decide
  total := by decide
  one := by decide +kernel
  low := by decide +kernel
  top := by decide +kernel

/-! ### Four octets -/

namespace ByteBuckets

/-- The octets of the words are the cells of the table. -/
def Shows (t : ByteBuckets) (s : Shape) (cells : Cells) : Prop :=
  ShowsLanes UInt32.toNat 8 t.words s cells

variable {t : ByteBuckets} {s : Shape} {cells : Cells} {b e : Nat} {print : UInt64}

theorem toNat_shift (he : e < laneCount) : (UInt32.ofNat (8 * e)).toNat % 32 = 8 * e := by
  have hlt : e < 4 := he
  rw [UInt32.toNat_ofNat', Nat.mod_eq_of_lt (a := 8 * e) (by omega), Nat.mod_eq_of_lt (by omega)]

/-- The lower lanes are the bucket, and the upper ones are not zero. -/
theorem lane_padded (word : UInt32) {j : Nat} (hj : j < 8) :
    lane 8 (word.toUInt64 ||| 0xffffffff00000000).toNat j =
      if j < 4 then lane 8 word.toNat j else 255 := by
  have hpad : ∀ j < 8, lane 8 (0xffffffff00000000 : UInt64).toNat j = if j < 4 then 0 else 255 := by
    decide +kernel
  have hword : word.toNat < 2 ^ 32 := word.toNat_lt
  rw [UInt64.toNat_or, lane_or, UInt32.toNat_toUInt64, hpad j hj]
  by_cases hlow : j < 4
  · rw [if_pos hlow, if_pos hlow, Nat.or_zero]
  · have hpow : 2 ^ 32 ≤ 2 ^ (8 * j) := Nat.pow_le_pow_right (by omega) (by omega)
    rw [if_neg hlow, if_neg hlow, lane, Nat.div_eq_of_lt (by omega), Nat.zero_mod, Nat.zero_or]

theorem entry_eq_ok (h : t.Shows s cells) (hb : b < s.buckets) (he : e < s.entries) :
    t.entry b e = .ok (cells b e) := by
  have hb' : b < t.words.size := h.buckets_eq ▸ hb
  have he' : e < laneCount := h.entries_eq ▸ he
  have hlt : e < 4 := he'
  rw [entry, wordAt_eq_ok hb', ok_bind, shiftOf_eq_ok (by omega), ok_bind, pure_eq_ok,
    Except.ok.injEq]
  apply UInt64.toNat_inj.1
  rw [← h.lane_eq b hb' e he', UInt32.toNat_toUInt64, UInt32.toNat_and, UInt32.toNat_shiftRight,
    toNat_shift he', Nat.shiftRight_eq_div_pow, lane]
  exact Nat.and_two_pow_sub_one_eq_mod _ 8

/-- The zero lanes of a padded bucket are its empty entries. -/
theorem zeroOctets_padded_eq_zero_iff (h : t.Shows s cells) (hb : b < t.words.size) :
    zeroOctets (t.words[b].toUInt64 ||| 0xffffffff00000000) = 0 ↔
      ∀ e < s.entries, cells b e ≠ 0 := by
  have hempty := h.ne_iff hb 0
  rw [zeroOctets, ← zeroFlags, octetMasks.zeroFlags_eq_zero_iff]
  constructor
  · intro hlanes e he hzero
    refine hempty.1 (fun j hj => ?_) ⟨e, he, hzero⟩
    have hlt : j < 4 := hj
    have hlane := hlanes j (by omega)
    rw [lane_padded _ (by omega), if_pos hlt] at hlane
    exact hlane
  · intro hfull j hj
    rw [lane_padded _ hj]
    split
    · refine hempty.2 (fun hany => ?_) j ‹_›
      obtain ⟨e, he, hzero⟩ := hany
      exact hfull e he hzero
    · decide

/-- A fingerprint is compared with all entries of a bucket at once. -/
theorem holds_eq_ok (h : t.Shows s cells) (hb : b < s.buckets) (hfits : Fits s.width print) :
    t.holds b print = .ok (decide (∃ e < s.entries, cells b e = print)) := by
  have hb' : b < t.words.size := h.buckets_eq ▸ hb
  have hprint := h.print_lt hfits
  have hone : ∀ j < 8, lane 8 (0x01010101 : UInt64).toNat j = if j < 4 then 1 else 0 := by
    decide +kernel
  have hlow : ∀ j < 8, (2 ^ 8 - 1) * ((0x01010101 : UInt64).toNat % 2 ^ (8 * j)) < 2 ^ (8 * j) := by
    decide +kernel
  have hspread : ∀ j < 8, lane 8 (print * 0x01010101).toNat j =
      if j < 4 then print.toNat else 0 := by
    intro j hj
    have hle : lane 8 (0x01010101 : UInt64).toNat j ≤ 1 := by
      rw [hone j hj]
      split <;> omega
    rw [UInt64.toNat_mul, lane_mod _ (by omega), lane_mul hprint hle (hlow j hj), hone j hj]
    split <;> omega
  have hflags :
      zeroOctets ((t.words[b].toUInt64 ||| 0xffffffff00000000) ^^^ print * 0x01010101) = 0 ↔
        ¬∃ e < s.entries, cells b e = print := by
    rw [← h.ne_iff hb', zeroOctets, ← zeroFlags, octetMasks.zeroFlags_eq_zero_iff]
    constructor
    · intro hlanes j hj heq
      have hlt : j < 4 := hj
      apply hlanes j (by omega)
      rw [UInt64.toNat_xor, lane_xor, lane_padded _ (by omega), if_pos hlt, hspread j (by omega),
        if_pos hlt, heq, Nat.xor_self]
    · intro hne j hj heq
      rw [UInt64.toNat_xor, lane_xor, lane_padded _ hj, hspread j hj, xor_eq_zero_iff_eq] at heq
      by_cases hlt : j < 4
      · rw [if_pos hlt, if_pos hlt] at heq
        exact hne j hlt heq
      · rw [if_neg hlt, if_neg hlt] at heq
        omega
  rw [holds, padded, wordAt_eq_ok hb', ok_bind, pure_eq_ok, ok_bind, pure_eq_ok, Except.ok.injEq,
    Bool.eq_iff_iff, bne_iff_ne, ne_eq, hflags, not_not, decide_eq_true_iff]

theorem insert_full (h : t.Shows s cells) (hb : b < s.buckets)
    (hfull : ∀ e < s.entries, cells b e ≠ 0) : t.insert? b print = .ok none := by
  have hb' : b < t.words.size := h.buckets_eq ▸ hb
  rw [insert?, padded, wordAt_eq_ok hb', ok_bind, pure_eq_ok, ok_bind]
  dsimp only
  rw [if_pos ((zeroOctets_padded_eq_zero_iff h hb').2 hfull), pure_eq_ok]

theorem toNat_toUInt32 (h : t.Shows s cells) (hfits : Fits s.width print) :
    print.toUInt32.toNat = print.toNat := by
  have hprint := h.print_lt hfits
  rw [UInt64.toNat_toUInt32, Nat.mod_eq_of_lt (by omega)]

theorem insert_free (h : t.Shows s cells) (hb : b < s.buckets) (hfits : Fits s.width print)
    (he : e < s.entries) (hzero : cells b e = 0) (hfirst : ∀ e' < e, cells b e' ≠ 0) :
    ∃ t', t.insert? b print = .ok (some t') ∧ t'.Shows s (cells.put b e print) := by
  have hb' : b < t.words.size := h.buckets_eq ▸ hb
  have he' : e < laneCount := h.entries_eq ▸ he
  have hlt : e < 4 := he'
  have hlane : ∀ j < 4, lane 8 t.words[b].toNat j = (cells b j).toNat := h.lane_eq b hb'
  have hlowest : lowestOne (zeroOctets (t.words[b].toUInt64 ||| 0xffffffff00000000)) =
      8 * e + 7 := by
    refine octetMasks.lowestOne_zeroFlags (by omega) ?_ fun i hi hz => ?_
    · rw [lane_padded _ (by omega), if_pos hlt, hlane e hlt, hzero, UInt64.toNat_zero]
    · rw [lane_padded _ (by omega), if_pos (by omega), hlane i (by omega)] at hz
      exact hfirst i hi (UInt64.toNat_inj.1 hz)
  have hsome : zeroOctets (t.words[b].toUInt64 ||| 0xffffffff00000000) ≠ 0 :=
    fun hnone => (zeroOctets_padded_eq_zero_iff h hb').1 hnone e he hzero
  refine ⟨⟨t.words.set b (t.words[b] ||| print.toUInt32 <<< UInt32.ofNat (8 * e))⟩, ?_, ?_⟩
  · rw [insert?, padded, wordAt_eq_ok hb', ok_bind, pure_eq_ok, ok_bind]
    dsimp only
    rw [if_neg hsome, hlowest, Checked.sub_eq_ok (by omega), ok_bind,
      require_bind _ (by omega), changeWord_eq_ok hb']
    rfl
  · refine ShowsLanes.put h hb' fun j hj => ?_
    have hj' : j < 4 := hj
    rw [UInt32.toNat_or, UInt32.toNat_shiftLeft, toNat_shift he', toNat_toUInt32 h hfits]
    refine lane_insert 32 ?_ (h.print_lt hfits) (by omega)
    rw [hlane e hlt, hzero, UInt64.toNat_zero]

theorem swap_eq_ok (h : t.Shows s cells) (hb : b < s.buckets) (he : e < s.entries)
    (hfits : Fits s.width print) :
    ∃ t', t.swap b e print = .ok (cells b e, t') ∧ t'.Shows s (cells.put b e print) := by
  have hb' : b < t.words.size := h.buckets_eq ▸ hb
  have he' : e < laneCount := h.entries_eq ▸ he
  have hlt : e < 4 := he'
  refine ⟨⟨t.words.set b (t.words[b] &&& ~~~(0xff <<< UInt32.ofNat (8 * e)) |||
    print.toUInt32 <<< UInt32.ofNat (8 * e))⟩, ?_, ?_⟩
  · rw [swap, entry_eq_ok h hb he, ok_bind, shiftOf_eq_ok (by omega), ok_bind]
    dsimp only
    rw [changeWord_eq_ok hb']
    rfl
  · refine ShowsLanes.put h hb' fun j hj => ?_
    have hj' : j < 4 := hj
    rw [UInt32.toNat_or, UInt32.toNat_and, UInt32.toNat_not, UInt32.toNat_shiftLeft,
      UInt32.toNat_shiftLeft, toNat_shift he', toNat_toUInt32 h hfits]
    exact lane_exchange 32 (by omega) (h.print_lt hfits) (by omega)

instance : LawfulBuckets ByteBuckets where
  Shows := Shows
  bucketCount_eq h := h.buckets_eq
  entriesPerBucket_eq h := h.entries_eq.symm
  fits := ShowsLanes.fits
  entry_eq_ok := entry_eq_ok
  holds_eq_ok := holds_eq_ok
  insert_full := insert_full
  insert_free := insert_free
  swap_eq_ok := swap_eq_ok
  insert_keeps := insert_keeps_size fun _ => rfl
  swap_keeps := swap_keeps_size fun _ => rfl

/-- Both buckets of a query side by side: the lanes of the one and then those of the other. -/
theorem lane_both (lower upper : UInt32) {j : Nat} (hj : j < 8) :
    lane 8 (lower.toUInt64 ||| upper.toUInt64 <<< 32).toNat j =
      if j < 4 then lane 8 lower.toNat j else lane 8 upper.toNat (j - 4) := by
  have hlower : lower.toNat < 2 ^ 32 := lower.toNat_lt
  have hshift : lane 8 (upper.toUInt64 <<< 32).toNat j =
      if j < 4 then 0 else lane 8 upper.toNat (j - 4) := by
    rw [UInt64.toNat_shiftLeft, UInt32.toNat_toUInt64, lane_mod _ (by omega)]
    exact lane_shiftLeft 8 upper.toNat 4 j
  rw [UInt64.toNat_or, lane_or, UInt32.toNat_toUInt64, hshift]
  by_cases hlow : j < 4
  · rw [if_pos hlow, if_pos hlow, Nat.or_zero]
  · have hpow : 2 ^ 32 ≤ 2 ^ (8 * j) := Nat.pow_le_pow_right (by omega) (by omega)
    rw [if_neg hlow, if_neg hlow, lane, Nat.div_eq_of_lt (by omega), Nat.zero_mod, Nat.zero_or]

/-- One test finds a fingerprint in either of two buckets. -/
theorem zeroOctets_both_eq_zero_iff {other : Nat} (h : t.Shows s cells) (hb : b < t.words.size)
    (hother : other < t.words.size) (hfits : Fits s.width print) :
    zeroOctets ((t.words[b].toUInt64 ||| t.words[other].toUInt64 <<< 32) ^^^
        print * 0x0101010101010101) = 0 ↔
      ¬((∃ e < s.entries, cells b e = print) ∨ ∃ e < s.entries, cells other e = print) := by
  rw [not_or, ← h.ne_iff hb, ← h.ne_iff hother, zeroOctets, ← zeroFlags,
    octetMasks.zeroFlags_xor_eq_zero_iff (h.print_lt hfits)]
  constructor
  · intro hlanes
    constructor
    · intro j hj
      have hlt : j < 4 := hj
      have hlane := hlanes j (by omega)
      rw [lane_both _ _ (by omega), if_pos hlt] at hlane
      exact hlane
    · intro j hj
      have hlt : j < 4 := hj
      have hlane := hlanes (j + 4) (by omega)
      rw [lane_both _ _ (by omega), if_neg (by omega), Nat.add_sub_cancel] at hlane
      exact hlane
  · intro hboth j hj
    obtain ⟨hlower, hupper⟩ := hboth
    rw [lane_both _ _ hj]
    by_cases hlt : j < 4
    · rw [if_pos hlt]
      exact hlower j hlt
    · rw [if_neg hlt]
      exact hupper (j - 4) (show j - 4 < 4 by omega)

end ByteBuckets

/-! ### Four 16-bit parts -/

namespace WordBuckets

/-- The parts of the words are the cells of the table. -/
def Shows (t : WordBuckets) (s : Shape) (cells : Cells) : Prop :=
  ShowsLanes UInt64.toNat 16 t.words s cells

variable {t : WordBuckets} {s : Shape} {cells : Cells} {b e : Nat} {print : UInt64}

theorem toNat_shift (he : e < laneCount) : (UInt64.ofNat (16 * e)).toNat % 64 = 16 * e := by
  have hlt : e < 4 := he
  rw [toNat_ofNat_of_lt (by omega), Nat.mod_eq_of_lt (by omega)]

theorem entry_eq_ok (h : t.Shows s cells) (hb : b < s.buckets) (he : e < s.entries) :
    t.entry b e = .ok (cells b e) := by
  have hb' : b < t.words.size := h.buckets_eq ▸ hb
  have he' : e < laneCount := h.entries_eq ▸ he
  have hlt : e < 4 := he'
  rw [entry, wordAt_eq_ok hb', ok_bind, shiftOf_eq_ok (by omega), ok_bind, pure_eq_ok,
    Except.ok.injEq]
  apply UInt64.toNat_inj.1
  rw [← h.lane_eq b hb' e he', UInt64.toNat_and, UInt64.toNat_shiftRight, toNat_shift he',
    Nat.shiftRight_eq_div_pow, lane]
  exact Nat.and_two_pow_sub_one_eq_mod _ 16

theorem holds_eq_ok (h : t.Shows s cells) (hb : b < s.buckets) (hfits : Fits s.width print) :
    t.holds b print = .ok (decide (∃ e < s.entries, cells b e = print)) := by
  have hb' : b < t.words.size := h.buckets_eq ▸ hb
  rw [holds, wordAt_eq_ok hb', ok_bind, pure_eq_ok, Except.ok.injEq, Bool.eq_iff_iff, bne_iff_ne,
    ne_eq, zeroQuarters, ← zeroFlags, quarterMasks.zeroFlags_xor_eq_zero_iff (h.print_lt hfits),
    decide_eq_true_iff]
  exact (not_congr (h.ne_iff hb' print)).trans not_not

/-- The zero lanes of a bucket are its empty entries. -/
theorem zeroQuarters_eq_zero_iff (h : t.Shows s cells) (hb : b < t.words.size) :
    zeroQuarters t.words[b] = 0 ↔ ∀ e < s.entries, cells b e ≠ 0 := by
  rw [zeroQuarters, ← zeroFlags, quarterMasks.zeroFlags_eq_zero_iff]
  have hempty := h.ne_iff hb 0
  rw [not_exists] at hempty
  exact hempty.trans (forall_congr' fun e => not_and)

theorem insert_full (h : t.Shows s cells) (hb : b < s.buckets)
    (hfull : ∀ e < s.entries, cells b e ≠ 0) : t.insert? b print = .ok none := by
  have hb' : b < t.words.size := h.buckets_eq ▸ hb
  rw [insert?, wordAt_eq_ok hb', ok_bind]
  dsimp only
  rw [if_pos ((zeroQuarters_eq_zero_iff h hb').2 hfull), pure_eq_ok]

theorem insert_free (h : t.Shows s cells) (hb : b < s.buckets) (hfits : Fits s.width print)
    (he : e < s.entries) (hzero : cells b e = 0) (hfirst : ∀ e' < e, cells b e' ≠ 0) :
    ∃ t', t.insert? b print = .ok (some t') ∧ t'.Shows s (cells.put b e print) := by
  have hb' : b < t.words.size := h.buckets_eq ▸ hb
  have he' : e < laneCount := h.entries_eq ▸ he
  have hlt : e < 4 := he'
  have hlane : ∀ j < 4, lane 16 t.words[b].toNat j = (cells b j).toNat := h.lane_eq b hb'
  have hlowest : lowestOne (zeroQuarters t.words[b]) = 16 * e + 15 := by
    refine quarterMasks.lowestOne_zeroFlags hlt ?_ fun i hi hz => ?_
    · rw [hlane e hlt, hzero, UInt64.toNat_zero]
    · rw [hlane i (by omega)] at hz
      exact hfirst i hi (UInt64.toNat_inj.1 hz)
  have hsome : zeroQuarters t.words[b] ≠ 0 :=
    fun hnone => (zeroQuarters_eq_zero_iff h hb').1 hnone e he hzero
  refine ⟨⟨t.words.set b (t.words[b] ||| print <<< UInt64.ofNat (16 * e))⟩, ?_, ?_⟩
  · rw [insert?, wordAt_eq_ok hb', ok_bind]
    dsimp only
    rw [if_neg hsome, hlowest, Checked.sub_eq_ok (by omega), ok_bind,
      require_bind _ (by omega), changeWord_eq_ok hb']
    rfl
  · refine ShowsLanes.put h hb' fun j hj => ?_
    have hj' : j < 4 := hj
    rw [UInt64.toNat_or, UInt64.toNat_shiftLeft, toNat_shift he']
    refine lane_insert 64 ?_ (h.print_lt hfits) (by omega)
    rw [hlane e hlt, hzero, UInt64.toNat_zero]

theorem swap_eq_ok (h : t.Shows s cells) (hb : b < s.buckets) (he : e < s.entries)
    (hfits : Fits s.width print) :
    ∃ t', t.swap b e print = .ok (cells b e, t') ∧ t'.Shows s (cells.put b e print) := by
  have hb' : b < t.words.size := h.buckets_eq ▸ hb
  have he' : e < laneCount := h.entries_eq ▸ he
  have hlt : e < 4 := he'
  refine ⟨⟨t.words.set b (t.words[b] &&& ~~~(0xffff <<< UInt64.ofNat (16 * e)) |||
    print <<< UInt64.ofNat (16 * e))⟩, ?_, ?_⟩
  · rw [swap, entry_eq_ok h hb he, ok_bind, shiftOf_eq_ok (by omega), ok_bind]
    dsimp only
    rw [changeWord_eq_ok hb']
    rfl
  · refine ShowsLanes.put h hb' fun j hj => ?_
    have hj' : j < 4 := hj
    rw [UInt64.toNat_or, UInt64.toNat_and, UInt64.toNat_not, UInt64.toNat_shiftLeft,
      UInt64.toNat_shiftLeft, toNat_shift he']
    exact lane_exchange 64 (by omega) (h.print_lt hfits) (by omega)

instance : LawfulBuckets WordBuckets where
  Shows := Shows
  bucketCount_eq h := h.buckets_eq
  entriesPerBucket_eq h := h.entries_eq.symm
  fits := ShowsLanes.fits
  entry_eq_ok := entry_eq_ok
  holds_eq_ok := holds_eq_ok
  insert_full := insert_full
  insert_free := insert_free
  swap_eq_ok := swap_eq_ok
  insert_keeps := insert_keeps_size fun _ => rfl
  swap_keeps := swap_keeps_size fun _ => rfl

end WordBuckets

/-! ### Both kinds -/

/-- What a construction has to know of a kind of tables with a bucket in a word: the empty table
shows empty cells, and it is there if its words have room. -/
structure LaneKind {τ : Type} [Buckets τ] [LawfulBuckets τ] (empty : (buckets : Nat) → Outcome τ)
    (octets width : Nat) : Prop where
  width_pos : 0 < width
  width_le : width ≤ 32
  empty_eq_ok : ∀ {buckets}, octets * buckets < 2 ^ 63 → ∃ t, empty buckets = .ok t ∧
    LawfulBuckets.Shows t ⟨buckets, laneCount, width⟩ fun _ _ => 0
  empty_eq_capacity : ∀ {buckets}, ¬octets * buckets < 2 ^ 63 → empty buckets = violate .capacity

section Kinds

variable {τ : Type} [Buckets τ] [LawfulBuckets τ] {empty : Nat → Outcome τ}
  {octets width buckets : Nat}

theorem LaneKind.empty_shows {t : τ} (h : LaneKind empty octets width)
    (ht : empty buckets = .ok t) :
    LawfulBuckets.Shows t ⟨buckets, laneCount, width⟩ fun _ _ => 0 := by
  by_cases hroom : octets * buckets < 2 ^ 63
  · obtain ⟨t', ht', hshows⟩ := h.empty_eq_ok hroom
    rw [ht, Except.ok.injEq] at ht'
    exact ht' ▸ hshows
  · rw [h.empty_eq_capacity hroom] at ht
    exact absurd ht violate_ne_ok

/-- Tables that are made of an array of words, whose lanes are their cells. -/
theorem laneKind_of_words {ω : Type} {value : ω → Nat} {zero : ω} {make : Array ω → τ}
    (hzero : value zero = 0) (hpos : 0 < width) (hle : width ≤ 32)
    (hshows : ∀ {words s cells}, ShowsLanes value width words s cells →
      LawfulBuckets.Shows (make words) s cells) :
    LaneKind (fun buckets => do return make (← emptyWords zero octets buckets)) octets width where
  width_pos := hpos
  width_le := hle
  empty_eq_ok hroom := by
    obtain ⟨words, hwords, hlanes⟩ := emptyWords_eq_ok hzero hroom width
    rw [hwords]
    exact ⟨_, rfl, hshows hlanes⟩
  empty_eq_capacity hroom := by
    rw [emptyWords_eq_capacity hroom]
    rfl

end Kinds

theorem ByteBuckets.laneKind : LaneKind ByteBuckets.empty 4 8 :=
  laneKind_of_words UInt32.toNat_zero (by decide) (by decide) id

theorem WordBuckets.laneKind : LaneKind WordBuckets.empty 8 16 :=
  laneKind_of_words UInt64.toNat_zero (by decide) (by decide) id

end ApproxSet.Cuckoo
