import ApproxSet.Proofs.XorSet.Searching

/-!
# Filters of other kinds and widths

The salt and the peeling order do not depend on how the slots are kept, nor on the width of the
fingerprints. So octets and 16-bit words hold the very values of packed slots of the same width. And
since all values are combined from fingerprints, bit by bit, the values of a narrow filter are the
low bits of those of a wide one. If the bits of an equation agree in the wide filter, its low bits
do: a narrow filter answers yes whenever a wide one does.
-/

namespace ApproxSet.XorSet

open Bits Outcome

variable {third width narrow wide index : Nat} {salt query : UInt64} {order : List Peeled}

/-! ### Low bits of a solution -/

theorem mask_and_mask (hle : narrow ≤ wide) (hwide : wide ≤ 64) :
    mask wide &&& mask narrow = mask narrow := by
  apply word_ext
  intro i _
  rw [testBit_and, testBit_mask hwide, testBit_mask (Nat.le_trans hle hwide)]
  by_cases hi : i < narrow
  · simp [hi, Nat.lt_of_lt_of_le hi hle]
  · simp [hi]

theorem fingerprint_and_mask (hle : narrow ≤ wide) (hwide : wide ≤ 64) (hash : UInt64) :
    fingerprint hash (mask wide) &&& mask narrow = fingerprint hash (mask narrow) := by
  rw [fingerprint, fingerprint, UInt64.and_assoc, mask_and_mask hle hwide]

theorem Edge.total_and_mask (e : Edge) (f : Nat → UInt64) :
    e.total f &&& mask narrow = e.total fun slot => f slot &&& mask narrow := by
  simp only [Edge.total, xor_and]

/-- Solving with narrow fingerprints gives the low bits of the wide solution. -/
theorem solution_and_mask (hle : narrow ≤ wide) (hwide : wide ≤ 64) :
    (fun slot => solution third salt (mask wide) order slot &&& mask narrow) =
      solution third salt (mask narrow) order := by
  induction order with
  | nil => exact funext fun slot => UInt64.zero_and
  | cons p order ih =>
    funext slot
    rw [solution, solution]
    by_cases hslot : slot = p.slot
    · rw [hslot, Function.update_self, Function.update_self, xor_and,
        fingerprint_and_mask hle hwide, Edge.total_and_mask, ih]
    · rw [Function.update_of_ne hslot, Function.update_of_ne hslot]
      exact congrFun ih slot

/-! ### What a solved table answers -/

section Arrays

variable {σ τ : Type} [SlotArray σ] [SlotArray τ] [LawfulSlots σ] [LawfulSlots τ]

theorem Table.Solves.slot_eq_ok {t : Table σ} (h : t.Solves salt third width order)
    (hindex : index < 3 * third) :
    t.slot index = .ok (solution third salt (mask width) order index) := by
  obtain ⟨rfl, rfl, -, hshows⟩ := h
  exact Table.slot_eq_ok hshows hindex

/-- The difference between the fingerprint of a query and the total of its edge. -/
def gap (salt : UInt64) (third width : Nat) (order : List Peeled) (query : UInt64) : UInt64 :=
  fingerprint (Hash.salted query salt) (mask width) ^^^
    (Edge.at (Hash.salted query salt) third).total (solution third salt (mask width) order)

theorem gap_and_mask (hle : narrow ≤ wide) (hwide : wide ≤ 64) :
    gap salt third wide order query &&& mask narrow = gap salt third narrow order query := by
  rw [gap, gap, xor_and, fingerprint_and_mask hle hwide, Edge.total_and_mask,
    solution_and_mask hle hwide]

/-- A query is answered with yes if there is no gap. -/
theorem Table.Solves.mayContain_eq_ok {t : Table σ} (hpos : 0 < third) (hle : third ≤ 2 ^ 32)
    (h : t.Solves salt third width order) (query : UInt64) :
    t.mayContain query = .ok (gap salt third width order query == 0) := by
  obtain ⟨rfl, rfl, rfl, hshows⟩ := h
  exact Table.mayContain_eq_ok hshows (Edge.of_eq_ok _ hpos hle) (Edge.slots_lt hpos _)

/-! ### Tables of the same width -/

/-- Two tables that cannot be told apart by their salts, their slots or their answers. -/
structure SameTable (t : Table σ) (u : Table τ) : Prop where
  salt : t.salt = u.salt
  slotCount : t.slotCount = u.slotCount
  slot : ∀ index < t.slotCount, ∃ value, t.slot index = .ok value ∧ u.slot index = .ok value
  answer : ∀ query, ∃ found, t.mayContain query = .ok found ∧ u.mayContain query = .ok found

theorem Table.Solves.sameTable {t : Table σ} {u : Table τ} (hpos : 0 < third)
    (hle : third ≤ 2 ^ 32) (ht : t.Solves salt third width order)
    (hu : u.Solves salt third width order) : SameTable t u := by
  have hthird : u.third = t.third := hu.third_eq.trans ht.third_eq.symm
  refine ⟨ht.salt_eq.trans hu.salt_eq.symm, ?_, ?_, ?_⟩
  · rw [Table.slotCount, Table.slotCount, hthird]
  · intro index hindex
    rw [Table.slotCount, ht.third_eq] at hindex
    exact ⟨_, ht.slot_eq_ok hindex, hu.slot_eq_ok hindex⟩
  · intro query
    exact ⟨_, ht.mayContain_eq_ok hpos hle query, hu.mayContain_eq_ok hpos hle query⟩

/-! ### Tables of two widths -/

/-- The slots of a narrow table are the low bits of those of a wide one, and it answers yes whenever
the wide one does. -/
structure Narrows (width : Nat) (wide narrow : Table σ) : Prop where
  salt : narrow.salt = wide.salt
  third : narrow.third = wide.third
  slot : ∀ index < wide.slotCount, ∃ value low, wide.slot index = .ok value ∧
    narrow.slot index = .ok low ∧ low.toNat = value.toNat % 2 ^ width
  answer : ∀ query, ∃ found found', wide.mayContain query = .ok found ∧
    narrow.mayContain query = .ok found' ∧ (found = true → found' = true)

theorem Table.Solves.narrows {t u : Table σ} (hpos : 0 < third) (hthird : third ≤ 2 ^ 32)
    (hle : narrow ≤ wide) (hwide : wide ≤ 64) (ht : t.Solves salt third wide order)
    (hu : u.Solves salt third narrow order) : Narrows narrow t u := by
  refine ⟨hu.salt_eq.trans ht.salt_eq.symm, hu.third_eq.trans ht.third_eq.symm, ?_, ?_⟩
  · intro index hindex
    rw [Table.slotCount, ht.third_eq] at hindex
    refine ⟨_, _, ht.slot_eq_ok hindex, hu.slot_eq_ok hindex, ?_⟩
    rw [← solution_and_mask hle hwide, toNat_and_mask (Nat.le_trans hle hwide)]
  · intro query
    refine ⟨_, _, ht.mayContain_eq_ok hpos hthird query, hu.mayContain_eq_ok hpos hthird query, ?_⟩
    intro hfound
    have hgap : gap salt third wide order query = 0 := eq_of_beq hfound
    rw [← gap_and_mask hle hwide, hgap, UInt64.zero_and]
    rfl

end Arrays

/-! ### The constructions -/

variable {s : Settings} {keys : List UInt64}

theorem buildPacked_withWidth (hpos : 0 < width) (hle : width ≤ 32) :
    (buildPacked (s.withWidth width) keys).outcome =
      (buildTable s keys width : Traced Packed).outcome :=
  buildPacked_outcome (s := s.withWidth width) ⟨hpos, hle⟩

/-- Slots of any lawful kind make the same filter as packed slots of the same width. -/
theorem buildTable_alike_packed {σ : Type} [SlotArray σ] [LawfulSlots σ] {empty : σ}
    (hthird : thirdFor keys.length = .ok third) (hle : third ≤ 2 ^ 32)
    (hadmits : LawfulSlots.Admits σ width)
    (hempty : SlotArray.zeros (3 * third) width = .ok empty) (hpos : 0 < width)
    (hwidth : width ≤ 32) :
    Alike (FailAlike Eq (s.Endless keys third)) SameTable
      (buildTable s keys width : Traced (Table σ)).outcome
      (buildPacked (s.withWidth width) keys).outcome := by
  obtain ⟨slots, hslots⟩ := PackedArray.zeros_of_third_le hle hwidth
  have hadmits' : LawfulSlots.Admits PackedArray width := ⟨hpos, by omega⟩
  rw [buildPacked_withWidth hpos hwidth]
  refine (buildTable_alike hthird hle hadmits (by omega) hempty hadmits' (by omega)
    hslots).imp (fun t u _ _ hsolve => ?_) fun f g _ hfg => hfg
  obtain ⟨salt, order, ht, hu⟩ := hsolve
  exact ht.sameTable (thirdFor_pos hthird) hle hu

/-- Under a bound on the attempts that fits into 32 bits, they make the same filter as packed slots,
or both constructions are turned down for the same reason. -/
theorem buildTable_alike_packed_of_bounded {σ : Type} [SlotArray σ] [LawfulSlots σ] {empty : σ}
    {limit : Nat} (hlimit : limit ∈ s.maxAttempts) (hfits : limit < 2 ^ 32)
    (hthird : thirdFor keys.length = .ok third) (hle : third ≤ 2 ^ 32)
    (hadmits : LawfulSlots.Admits σ width)
    (hempty : SlotArray.zeros (3 * third) width = .ok empty) (hpos : 0 < width)
    (hwidth : width ≤ 32) :
    Alike (FailAlike Eq False) SameTable (buildTable s keys width : Traced (Table σ)).outcome
      (buildPacked (s.withWidth width) keys).outcome :=
  Settings.alike_of_bounded hlimit hfits
    (buildTable_alike_packed hthird hle hadmits hempty hpos hwidth)

/-- For all keys, first salts and bounds on the attempts, in tables with thirds of up to `2 ^ 32`
slots: octets, and 16-bit words, make the same filter as packed slots of the same width, or both
constructions are turned down for the same reason. The third case is that of an endless search,
which there is not under a bound below `2 ^ 32`. -/
theorem fixed_slots_hold_the_packed_values (s : Settings) (keys : List UInt64)
    (hthird : thirdFor keys.length = .ok third) (hle : third ≤ 2 ^ 32) :
    Alike (FailAlike Eq (s.Endless keys third)) SameTable (buildBytes s keys).outcome
      (buildPacked (s.withWidth 8) keys).outcome ∧
    Alike (FailAlike Eq (s.Endless keys third)) SameTable (buildWords s keys).outcome
      (buildPacked (s.withWidth 16) keys).outcome := by
  constructor
  · exact buildTable_alike_packed hthird hle rfl rfl (by decide) (by decide)
  · exact buildTable_alike_packed hthird hle rfl rfl (by decide) (by decide)

/-- Three keys in octets after a failed attempt, and in 16-bit words under the largest salt, beside
their packed forms. With a single attempt they are turned down. -/
theorem three_keys_have_the_packed_values :
    ((buildBytes { salt := 7, maxAttempts := some 3 } [1, 2, 3]).outcome =
        .ok ⟨8, 2, 8, #[0, 87, 0, 0, 96, 122]⟩ ∧
      (buildPacked { width := 8, salt := 7, maxAttempts := some 3 } [1, 2, 3]).outcome =
        .ok ⟨8, 2, 8, ⟨⟨#[134552735471360], 48⟩, 8⟩⟩ ∧
      SameTable (Table.mk 8 2 8 (#[0, 87, 0, 0, 96, 122] : Array UInt8))
        (Table.mk 8 2 8 (PackedArray.mk ⟨#[134552735471360], 48⟩ 8))) ∧
    ((buildWords { salt := 0xffffffffffffffff } [1, 2, 3]).outcome =
        .ok ⟨0xffffffffffffffff, 2, 16, #[0, 0, 0, 55484, 28102, 29485]⟩ ∧
      (buildPacked { width := 16, salt := 0xffffffffffffffff } [1, 2, 3]).outcome =
        .ok ⟨0xffffffffffffffff, 2, 16, ⟨⟨#[15617357607814037504, 1932357062], 96⟩, 16⟩⟩ ∧
      SameTable (Table.mk 0xffffffffffffffff 2 16
          (#[0, 0, 0, 55484, 28102, 29485] : Array UInt16))
        (Table.mk 0xffffffffffffffff 2 16
          (PackedArray.mk ⟨#[15617357607814037504, 1932357062], 96⟩ 16))) ∧
    (buildBytes { salt := 7, maxAttempts := some 1 } [1, 2, 3]).outcome =
      refuse (.attemptsExhausted 1) := by
  have hthird : thirdFor [(1 : UInt64), 2, 3].length = .ok 2 := by decide +kernel
  have hbytes : (buildBytes { salt := 7, maxAttempts := some 3 } [1, 2, 3]).outcome =
      .ok ⟨8, 2, 8, #[0, 87, 0, 0, 96, 122]⟩ := by decide +kernel
  have hpacked : (buildPacked { width := 8, salt := 7, maxAttempts := some 3 } [1, 2, 3]).outcome =
      .ok ⟨8, 2, 8, ⟨⟨#[134552735471360], 48⟩, 8⟩⟩ := by decide +kernel
  have hwords : (buildWords { salt := 0xffffffffffffffff } [1, 2, 3]).outcome =
      .ok ⟨0xffffffffffffffff, 2, 16, #[0, 0, 0, 55484, 28102, 29485]⟩ := by decide +kernel
  have hpacked' : (buildPacked { width := 16, salt := 0xffffffffffffffff } [1, 2, 3]).outcome =
      .ok ⟨0xffffffffffffffff, 2, 16, ⟨⟨#[15617357607814037504, 1932357062], 96⟩, 16⟩⟩ := by
    decide +kernel
  have hnone : (buildBytes { salt := 7, maxAttempts := some 1 } [1, 2, 3]).outcome =
      refuse (.attemptsExhausted 1) := by decide +kernel
  have hsame := (fixed_slots_hold_the_packed_values { salt := 7, maxAttempts := some 3 } [1, 2, 3]
    hthird (by decide)).1
  have hsame' := (fixed_slots_hold_the_packed_values { salt := 0xffffffffffffffff } [1, 2, 3]
    hthird (by decide)).2
  rw [hbytes, Settings.withWidth, hpacked, alike_ok_iff] at hsame
  rw [hwords, Settings.withWidth, hpacked', alike_ok_iff] at hsame'
  exact ⟨⟨hbytes, hpacked, hsame⟩, ⟨hwords, hpacked', hsame'⟩, hnone⟩

/-- Packed slots of two widths hold bits of the same values. -/
theorem buildPacked_narrows (hthird : thirdFor keys.length = .ok third) (hle : third ≤ 2 ^ 32)
    (hpos : 0 < narrow) (hnarrow : narrow ≤ wide) (hwide : wide ≤ 32) :
    Alike (FailAlike Eq (s.Endless keys third)) (Narrows narrow)
      (buildTable s keys wide : Traced Packed).outcome
      (buildTable s keys narrow : Traced Packed).outcome := by
  obtain ⟨slots, hslots⟩ := PackedArray.zeros_of_third_le hle hwide
  obtain ⟨slots', hslots'⟩ := PackedArray.zeros_of_third_le hle (Nat.le_trans hnarrow hwide)
  have hadmits : LawfulSlots.Admits PackedArray wide := ⟨by omega, by omega⟩
  have hadmits' : LawfulSlots.Admits PackedArray narrow := ⟨hpos, by omega⟩
  refine (buildTable_alike hthird hle hadmits (by omega) hslots hadmits' (by omega)
    hslots').imp (fun t u _ _ hsolve => ?_) fun f g _ hfg => hfg
  obtain ⟨salt, order, ht, hu⟩ := hsolve
  exact ht.narrows (thirdFor_pos hthird) hle hnarrow (by omega) hu

/-- Under a bound on the attempts that fits into 32 bits, filters of both widths are built, or both
are turned down for the same reason. -/
theorem buildPacked_narrows_of_bounded {limit : Nat} (hlimit : limit ∈ s.maxAttempts)
    (hfits : limit < 2 ^ 32) (hthird : thirdFor keys.length = .ok third) (hle : third ≤ 2 ^ 32)
    (hpos : 0 < narrow) (hnarrow : narrow ≤ wide) (hwide : wide ≤ 32) :
    Alike (FailAlike Eq False) (Narrows narrow) (buildTable s keys wide : Traced Packed).outcome
      (buildTable s keys narrow : Traced Packed).outcome :=
  Settings.alike_of_bounded hlimit hfits (buildPacked_narrows hthird hle hpos hnarrow hwide)

/-- For all keys, first salts and bounds on the attempts, in tables with thirds of up to `2 ^ 32`
slots, and for all widths: packed filters of two widths are both turned down for the same reason, or
both are built under the same salt, and then the narrow one has the low bits of the wide one and
answers yes whenever that does. The third case is that of an endless search, which there is not
under a bound below `2 ^ 32`. -/
theorem narrow_slots_are_low_bits (s : Settings) (keys : List UInt64)
    (hthird : thirdFor keys.length = .ok third) (hle : third ≤ 2 ^ 32) (hpos : 0 < narrow)
    (hnarrow : narrow ≤ wide) (hwide : wide ≤ 32) :
    Alike (FailAlike Eq (s.Endless keys third)) (Narrows narrow)
      (buildPacked (s.withWidth wide) keys).outcome
      (buildPacked (s.withWidth narrow) keys).outcome := by
  rw [buildPacked_withWidth (by omega) hwide, buildPacked_withWidth hpos (by omega)]
  exact buildPacked_narrows hthird hle hpos hnarrow hwide

/-- Slots of 32 bits, each read off a single word, and of 29 bits, which may cross from one word to
the next, for three keys that two salts do not peel. With two attempts they are turned down. -/
theorem three_keys_are_narrowed :
    ((buildPacked { width := 32 } [1, 2, 3]).outcome =
        .ok ⟨2, 2, 32, ⟨⟨#[0, 9003714150773293056, 12076120478214243843], 192⟩, 32⟩⟩ ∧
      (buildPacked { width := 29 } [1, 2, 3]).outcome =
        .ok ⟨2, 2, 29, ⟨⟨#[0, 6935114406841810944, 16690229185660], 174⟩, 29⟩⟩ ∧
      Narrows 29
        (Table.mk 2 2 32 (PackedArray.mk ⟨#[0, 9003714150773293056, 12076120478214243843], 192⟩ 32))
        (Table.mk 2 2 29 (PackedArray.mk ⟨#[0, 6935114406841810944, 16690229185660], 174⟩ 29))) ∧
    (buildPacked { width := 29, maxAttempts := some 2 } [1, 2, 3]).outcome =
      refuse (.attemptsExhausted 2) := by
  have hthird : thirdFor [(1 : UInt64), 2, 3].length = .ok 2 := by decide +kernel
  have hwide : (buildPacked { width := 32 } [1, 2, 3]).outcome =
      .ok ⟨2, 2, 32, ⟨⟨#[0, 9003714150773293056, 12076120478214243843], 192⟩, 32⟩⟩ := by
    decide +kernel
  have hnarrow : (buildPacked { width := 29 } [1, 2, 3]).outcome =
      .ok ⟨2, 2, 29, ⟨⟨#[0, 6935114406841810944, 16690229185660], 174⟩, 29⟩⟩ := by
    decide +kernel
  have hnone : (buildPacked { width := 29, maxAttempts := some 2 } [1, 2, 3]).outcome =
      refuse (.attemptsExhausted 2) := by decide +kernel
  have hsame := narrow_slots_are_low_bits {} [1, 2, 3] hthird (by decide)
    (show 0 < 29 by decide) (show 29 ≤ 32 by decide) (by decide)
  rw [Settings.withWidth, Settings.withWidth, hwide, hnarrow, alike_ok_iff] at hsame
  exact ⟨⟨hwide, hnarrow, hsame⟩, hnone⟩

end ApproxSet.XorSet
