import ApproxSet.Proofs.XorSet.Solving
import ApproxSet.XorSet.Build

/-!
# No key of a filter is missed

Whatever the salt was that peeled the keys, and whatever the width and the kind of the slots, the
finished table satisfies the equation of every key: its three slots combine to its fingerprint. So a
query for the key finds it.
-/

namespace ApproxSet.XorSet

open Bits Outcome

variable {σ : Type} [SlotArray σ]

/-- The three slots of a key combine to its fingerprint. -/
def Table.Balances (t : Table σ) (key : UInt64) : Prop :=
  ∃ e a b c, Edge.of (Hash.salted key t.salt) t.third = .ok e ∧
    t.slot e.first = .ok a ∧ t.slot e.second = .ok b ∧ t.slot e.third = .ok c ∧
    fingerprint (Hash.salted key t.salt) (Bits.mask t.width) = a ^^^ b ^^^ c

/-- The search ends with a salt that peels the keys. -/
theorem search_peels {keys : List UInt64} {third : Nat} {bound : Option Nat} {solution : Solution} :
    ∀ {room attempts : Nat} {salt : UInt64},
      (search keys third bound room attempts salt).outcome = .ok solution →
      peel keys third solution.salt = .ok (.nothing solution.order) := by
  intro room
  induction room with
  | zero =>
    intro attempts salt h
    exact absurd h violate_ne_ok
  | succ room ih =>
    intro attempts salt h
    rw [search, Traced.outcome_bind_eq_ok_iff] at h
    obtain ⟨remainder, hpeel, h⟩ := h
    rw [Traced.outcome_lift] at hpeel
    cases remainder with
    | nothing order =>
      cases h
      exact hpeel
    | core peeled =>
      obtain ⟨-, -, h⟩ := Traced.outcome_bind_eq_ok_iff.1 h
      obtain ⟨-, -, h⟩ := Traced.outcome_bind_eq_ok_iff.1 h
      obtain ⟨-, -, h⟩ := Traced.outcome_bind_eq_ok_iff.1 h
      exact ih h

/-- A finished table has as many slots as could be allotted. -/
theorem zeros_of_buildTable {t : Table σ} {s : Settings} {keys : List UInt64} {width : Nat}
    (h : (buildTable s keys width : Traced (Table σ)).outcome = .ok t) :
    ∃ empty : σ, SlotArray.zeros (3 * t.third) width = .ok empty := by
  obtain ⟨third, -, h⟩ := Traced.outcome_bind_eq_ok_iff.1 h
  obtain ⟨found, -, h⟩ := Traced.outcome_bind_eq_ok_iff.1 h
  obtain ⟨empty, hempty, h⟩ := Traced.outcome_bind_eq_ok_iff.1 h
  obtain ⟨slots, -, h⟩ := Traced.outcome_bind_eq_ok_iff.1 h
  cases h
  exact ⟨empty, hempty⟩

section Arrays

variable [LawfulSlots σ] {t : Table σ} {s : Settings} {keys : List UInt64} {width : Nat}

/-- A finished table shows the solution of the order in which its keys peeled. -/
theorem buildTable_spec (hadmits : LawfulSlots.Admits σ width) (hwidth : width ≤ 64)
    (h : (buildTable s keys width : Traced (Table σ)).outcome = .ok t) :
    t.width = width ∧ thirdFor keys.length = .ok t.third ∧
      ∃ order, peel keys t.third t.salt = .ok (.nothing order) ∧
        LawfulSlots.Shows t.slots (3 * t.third) width
          (solution t.third t.salt (Bits.mask width) order) := by
  obtain ⟨third, hthird, h⟩ := Traced.outcome_bind_eq_ok_iff.1 h
  obtain ⟨found, hfound, h⟩ := Traced.outcome_bind_eq_ok_iff.1 h
  obtain ⟨empty, hempty, h⟩ := Traced.outcome_bind_eq_ok_iff.1 h
  obtain ⟨slots, hslots, h⟩ := Traced.outcome_bind_eq_ok_iff.1 h
  rw [Traced.outcome_lift] at hthird hempty hslots
  cases h
  have hpeel := search_peels hfound
  obtain ⟨slots', hsolve, hshows⟩ :=
    solve_of_peeled (thirdFor_pos hthird) hwidth hpeel (LawfulSlots.zeros_shows hadmits hempty)
  rw [hsolve, Except.ok.injEq] at hslots
  subst hslots
  exact ⟨rfl, hthird, found.order, hpeel, hshows⟩

theorem Table.slot_eq_ok {f : Nat → UInt64} {index : Nat}
    (hshows : LawfulSlots.Shows t.slots (3 * t.third) width f) (hindex : index < 3 * t.third) :
    t.slot index = .ok (f index) := by
  rw [Table.slot, require_bind _ (show index < t.slotCount from hindex),
    LawfulSlots.slot_eq_ok hshows hindex]

/-- A query compares the fingerprint with the combined slots. -/
theorem Table.mayContain_eq_ok {f : Nat → UInt64} {key : UInt64} {e : Edge}
    (hshows : LawfulSlots.Shows t.slots (3 * t.third) width f)
    (hedge : Edge.of (Hash.salted key t.salt) t.third = .ok e)
    (hinside : ∀ slot ∈ e.slots, slot < 3 * t.third) :
    t.mayContain key =
      .ok (fingerprint (Hash.salted key t.salt) (Bits.mask t.width) ^^^ e.total f == 0) := by
  rw [Table.mayContain, Table.target, hedge]
  simp only [ok_bind, pure_eq_ok, Table.agrees]
  rw [residue_eq_ok hshows hinside]
  rfl

/-- Every key of a built table balances and is found. -/
theorem buildTable_holds (hadmits : LawfulSlots.Admits σ width) (hwidth : width ≤ 64)
    (h : (buildTable s keys width : Traced (Table σ)).outcome = .ok t) :
    t.width = width ∧ ∀ key ∈ keys, t.Balances key ∧ t.mayContain key = .ok true := by
  obtain ⟨rfl, hthird, order, hpeel, hshows⟩ := buildTable_spec hadmits hwidth h
  have hpos := thirdFor_pos hthird
  refine ⟨rfl, fun key hkey => ?_⟩
  have hsolved := solution_of_peeled hpos (Bits.mask t.width) hpeel key hkey
  have hedge : Edge.of (Hash.salted key t.salt) t.third =
    .ok (Edge.at (Hash.salted key t.salt) t.third) := (peel_eq_nothing hpos hpeel).2.2 key hkey
  have hinside := Edge.slots_lt hpos (Hash.salted key t.salt)
  constructor
  · refine ⟨_, _, _, _, hedge, Table.slot_eq_ok hshows (hinside _ (by simp [Edge.slots])),
      Table.slot_eq_ok hshows (hinside _ (by simp [Edge.slots])),
      Table.slot_eq_ok hshows (hinside _ (by simp [Edge.slots])), hsolved.symm⟩
  · rw [Table.mayContain_eq_ok hshows hedge hinside, hsolved, UInt64.xor_self]
    rfl

end Arrays

theorem buildPacked_spec {s : Settings} {keys : List UInt64} {t : Packed}
    (h : (buildPacked s keys).outcome = .ok t) :
    (0 < s.width ∧ s.width ≤ 32) ∧
      (buildTable s keys s.width : Traced Packed).outcome = .ok t := by
  obtain ⟨⟨⟩, hwidth, h⟩ := Traced.outcome_bind_eq_ok_iff.1 h
  exact ⟨demand_eq_ok_iff.1 hwidth, h⟩

/-- Filters of all three kinds satisfy the equations of their keys and find every one of them, for
all keys, widths, first salts and bounds on the attempts. -/
theorem keys_balance_and_are_found (s : Settings) (keys : List UInt64) :
    (∀ t, (buildPacked s keys).outcome = .ok t → t.width = s.width ∧
      ∀ key ∈ keys, t.Balances key ∧ t.mayContain key = .ok true) ∧
    (∀ t, (buildBytes s keys).outcome = .ok t → t.width = 8 ∧
      ∀ key ∈ keys, t.Balances key ∧ t.mayContain key = .ok true) ∧
    (∀ t, (buildWords s keys).outcome = .ok t → t.width = 16 ∧
      ∀ key ∈ keys, t.Balances key ∧ t.mayContain key = .ok true) := by
  refine ⟨fun t h => ?_, fun t h => ?_, fun t h => ?_⟩
  · obtain ⟨⟨hpos, hle⟩, h⟩ := buildPacked_spec h
    have hadmits : LawfulSlots.Admits PackedArray s.width := ⟨hpos, by omega⟩
    exact buildTable_holds hadmits (by omega) h
  · exact buildTable_holds rfl (by omega) h
  · exact buildTable_holds rfl (by omega) h

/-- Three keys that two salts do not peel, in packed slots of five bits; in octets after a failed
attempt; and in 16-bit words under the largest salt. -/
theorem three_keys_balance_and_are_found :
    ((buildPacked { width := 5 } [1, 2, 3]).outcome =
        .ok ⟨2, 2, 5, ⟨⟨#[775454720], 30⟩, 5⟩⟩ ∧
      (Table.mk 2 2 5 (PackedArray.mk ⟨#[775454720], 30⟩ 5)).mayContain 3 = .ok true) ∧
    ((buildBytes { salt := 7, maxAttempts := some 3 } [1, 2, 3]).outcome =
        .ok ⟨8, 2, 8, #[0, 87, 0, 0, 96, 122]⟩ ∧
      (Table.mk 8 2 8 (#[0, 87, 0, 0, 96, 122] : Array UInt8)).mayContain 1 = .ok true) ∧
    ((buildWords { salt := 0xffffffffffffffff } [1, 2, 3]).outcome =
        .ok ⟨0xffffffffffffffff, 2, 16, #[0, 0, 0, 55484, 28102, 29485]⟩ ∧
      (Table.mk 0xffffffffffffffff 2 16
        (#[0, 0, 0, 55484, 28102, 29485] : Array UInt16)).mayContain 2 = .ok true) := by
  have hpacked : (buildPacked { width := 5 } [1, 2, 3]).outcome =
      .ok ⟨2, 2, 5, ⟨⟨#[775454720], 30⟩, 5⟩⟩ := by decide +kernel
  have hbytes : (buildBytes { salt := 7, maxAttempts := some 3 } [1, 2, 3]).outcome =
      .ok ⟨8, 2, 8, #[0, 87, 0, 0, 96, 122]⟩ := by decide +kernel
  have hwords : (buildWords { salt := 0xffffffffffffffff } [1, 2, 3]).outcome =
      .ok ⟨0xffffffffffffffff, 2, 16, #[0, 0, 0, 55484, 28102, 29485]⟩ := by decide +kernel
  refine ⟨⟨hpacked, ?_⟩, ⟨hbytes, ?_⟩, ⟨hwords, ?_⟩⟩
  · exact (((keys_balance_and_are_found _ _).1 _ hpacked).2 3 (by decide)).2
  · exact (((keys_balance_and_are_found _ _).2.1 _ hbytes).2 1 (by decide)).2
  · exact (((keys_balance_and_are_found _ _).2.2 _ hwords).2 2 (by decide)).2

end ApproxSet.XorSet
