import ApproxSet.Proofs.Hash.Scale
import ApproxSet.XorSet.Edge

/-!
# The edges of keys

The edge of a key is given by plain arithmetic whenever it is given at all, and it always is if a
third has at most `2 ^ 32` slots. In longer thirds it is given just if the three products that lead
to its slots fit into a word. The three slots lie in different thirds, so they differ.
-/

namespace ApproxSet.XorSet

open Outcome

/-- The edge of a hash, without the checks of `Edge.of`. -/
def Edge.at (hash : UInt64) (third : Nat) : Edge where
  first := Hash.place (Hash.low hash) third
  second := third + Hash.place (Hash.window hash 21) third
  third := 2 * third + Hash.place (Hash.window hash 42) third

theorem Edge.of_eq_at {hash : UInt64} {third : Nat} {e : Edge} (h : Edge.of hash third = .ok e) :
    e = Edge.at hash third := by
  obtain ⟨first, hfirst, h⟩ := bind_eq_ok_iff.1 h
  obtain ⟨second, hsecond, h⟩ := bind_eq_ok_iff.1 h
  obtain ⟨second', hsecond', h⟩ := bind_eq_ok_iff.1 h
  obtain ⟨double, hdouble, h⟩ := bind_eq_ok_iff.1 h
  obtain ⟨last, hlast, h⟩ := bind_eq_ok_iff.1 h
  obtain ⟨last', hlast', h⟩ := bind_eq_ok_iff.1 h
  cases h
  rw [Edge.at, ← Hash.scale_eq_place hfirst, ← Hash.scale_eq_place hsecond,
    ← Hash.scale_eq_place hlast, (Checked.add_eq_ok_iff.1 hsecond').2,
    (Checked.mul_eq_ok_iff.1 hdouble).2, (Checked.add_eq_ok_iff.1 hlast').2]

/-- The three products that lead to the slots of a hash fit into a word. -/
structure Edge.Fits (hash : UInt64) (third : Nat) : Prop where
  first : (Hash.low hash).toNat * third < 2 ^ 64
  second : (Hash.window hash 21).toNat * third < 2 ^ 64
  last : (Hash.window hash 42).toNat * third < 2 ^ 64

theorem Edge.fits_of_le {third : Nat} (h : third ≤ 2 ^ 32) (hash : UInt64) :
    Edge.Fits hash third := by
  have hproduct : ∀ part : UInt32, part.toNat * third < 2 ^ 64 := fun part =>
    (Hash.scale_eq_ok_iff.1 (Hash.scale_eq_ok part h)).1
  exact ⟨hproduct _, hproduct _, hproduct _⟩

/-- The sums fit into a word as soon as the number of all slots does. -/
theorem Edge.of_eq_ok_of_fits {hash : UInt64} {third : Nat} (hpos : 0 < third)
    (hsmall : 3 * third < 2 ^ 64) (h : Edge.Fits hash third) :
    Edge.of hash third = .ok (Edge.at hash third) := by
  have hsecond := Hash.place_lt (Hash.window hash 21) hpos
  have hlast := Hash.place_lt (Hash.window hash 42) hpos
  rw [Edge.of, Hash.scale_eq_ok_iff.2 ⟨h.first, rfl⟩, ok_bind,
    Hash.scale_eq_ok_iff.2 ⟨h.second, rfl⟩, ok_bind, Checked.add_eq_ok (by omega), ok_bind,
    Checked.mul_eq_ok (by omega), ok_bind, Hash.scale_eq_ok_iff.2 ⟨h.last, rfl⟩, ok_bind,
    Checked.add_eq_ok (by omega), ok_bind]
  rfl

theorem Edge.of_eq_overflow {hash : UInt64} {third : Nat} (hpos : 0 < third)
    (hsmall : 3 * third < 2 ^ 64) (h : ¬Edge.Fits hash third) :
    Edge.of hash third = violate .overflow := by
  have hplace := Hash.place_lt (Hash.window hash 21) hpos
  rw [Edge.of]
  by_cases hfirst : (Hash.low hash).toNat * third < 2 ^ 64
  · rw [Hash.scale_eq_ok_iff.2 ⟨hfirst, rfl⟩, ok_bind]
    by_cases hsecond : (Hash.window hash 21).toNat * third < 2 ^ 64
    · have hlast := Nat.le_of_not_lt fun hlast => h ⟨hfirst, hsecond, hlast⟩
      rw [Hash.scale_eq_ok_iff.2 ⟨hsecond, rfl⟩, ok_bind, Checked.add_eq_ok (by omega), ok_bind,
        Checked.mul_eq_ok (by omega), ok_bind, Hash.scale_eq_overflow hlast]
      rfl
    · rw [Hash.scale_eq_overflow (Nat.le_of_not_lt hsecond)]
      rfl
  · rw [Hash.scale_eq_overflow (Nat.le_of_not_lt hfirst)]
    rfl

theorem Edge.of_eq_ok (hash : UInt64) {third : Nat} (hpos : 0 < third) (h : third ≤ 2 ^ 32) :
    Edge.of hash third = .ok (Edge.at hash third) :=
  Edge.of_eq_ok_of_fits hpos (by omega) (Edge.fits_of_le h hash)

/-- Each third has one slot of an edge, so no slot comes twice. -/
theorem Edge.slots_nodup {third : Nat} (hpos : 0 < third) (hash : UInt64) :
    (Edge.at hash third).slots.Nodup := by
  have hfirst := Hash.place_lt (Hash.low hash) hpos
  have hsecond := Hash.place_lt (Hash.window hash 21) hpos
  simp only [Edge.slots, Edge.at, List.nodup_cons, List.mem_cons, List.not_mem_nil, or_false,
    not_false_eq_true, List.nodup_nil, and_true]
  omega

/-- The slots of an edge lie within a table of three thirds. -/
theorem Edge.slots_lt {third : Nat} (hpos : 0 < third) (hash : UInt64) :
    ∀ slot ∈ (Edge.at hash third).slots, slot < 3 * third := by
  have hfirst := Hash.place_lt (Hash.low hash) hpos
  have hsecond := Hash.place_lt (Hash.window hash 21) hpos
  have hlast := Hash.place_lt (Hash.window hash 42) hpos
  intro slot hslot
  simp only [Edge.slots, Edge.at, List.mem_cons, List.not_mem_nil, or_false] at hslot
  omega

/-- The three slots of a key under a salt. -/
def slotsOf (third : Nat) (salt key : UInt64) : List Nat :=
  (Edge.at (Hash.salted key salt) third).slots

/-! ### The number of slots -/

/-- The number of slots for a number of keys, whether it fits into a word or not. -/
def exactSlots (keys : Nat) : Nat :=
  3 + Numbers.ceiling (1.23 * Numbers.ofCount keys)

theorem thirdFor_eq_ok_iff {keys third : Nat} :
    thirdFor keys = .ok third ↔ exactSlots keys < 2 ^ 64 ∧ exactSlots keys / 3 = third := by
  simp only [thirdFor, bind_eq_ok_iff, Checked.add_eq_ok_iff]
  constructor
  · rintro ⟨slots, ⟨hsmall, rfl⟩, h⟩
    exact ⟨hsmall, Except.ok.inj h⟩
  · rintro ⟨hsmall, rfl⟩
    exact ⟨_, ⟨hsmall, rfl⟩, rfl⟩

theorem thirdFor_eq_overflow {keys : Nat} (h : 2 ^ 64 ≤ exactSlots keys) :
    thirdFor keys = violate .overflow := by
  rw [thirdFor, Checked.add_eq_overflow h]
  rfl

/-- A table has at least one slot in each third. -/
theorem thirdFor_pos {keys third : Nat} (h : thirdFor keys = .ok third) : 0 < third := by
  obtain ⟨-, rfl⟩ := thirdFor_eq_ok_iff.1 h
  unfold exactSlots
  omega

end ApproxSet.XorSet
