import ApproxSet.Proofs.XorSet.Loading
import ApproxSet.Proofs.XorSet.Solving

/-!
# Peeling and solving keep their promises

Neither the counts of a mesh nor its indices ever leave their bounds, for any keys and whether or
not all of them peel. If they do, then their order is an elimination order. So every turn of solving
it in an array of zeros finds a slot that no turn before has written, and the value for that slot is
made of a fingerprint and of other slots, none of them wider than a slot.
-/

namespace ApproxSet.XorSet

open Bits Outcome

variable {third width : Nat} {salt : UInt64} {before order : List Peeled} {keys rest : List UInt64}

/-- Solving an order in a new array takes turn after turn. In each of them the slot of the key is
still zero, its value is no wider than a slot, and it is assigned. -/
def SolvesFreely (σ : Type) [SlotArray σ] (third : Nat) (salt : UInt64) (width : Nat)
    (order : List Peeled) : Prop :=
  ∃ fresh solved : σ, SlotArray.zeros (3 * third) width = .ok fresh ∧
    solve third salt width order fresh = .ok solved ∧
    ∀ before p after, order = before ++ p :: after → ∃ mid edge value next,
      solve third salt width after fresh = .ok mid ∧
      Edge.ofKey third salt p.key = .ok edge ∧
      residue mid edge (fingerprint (Hash.salted p.key salt) (Bits.mask width)) = .ok value ∧
      value.toNat < 2 ^ width ∧ SlotArray.slot mid p.slot = .ok 0 ∧
      SlotArray.assign mid p.slot value = .ok next ∧
      solve third salt width (p :: after) fresh = .ok next

/-- What is put aside last is an elimination order of its own. -/
theorem Elimination.suffix (h : Elimination third salt (before ++ order) rest) :
    Elimination third salt order rest := by
  induction before with
  | nil => exact h
  | cons p before ih => exact ih h.tail

/-- No two keys have the same slot as their own. -/
theorem Elimination.slots_nodup (h : Elimination third salt order rest) :
    (order.map Peeled.slot).Nodup := by
  induction order with
  | nil => exact List.nodup_nil
  | cons p order ih =>
    refine List.nodup_cons.2 ⟨fun hmem => ?_, ih h.tail⟩
    obtain ⟨q, hq, heq⟩ := List.mem_map.1 hmem
    exact h.slot_ne q hq heq

/-- The loop of solving ends with the turn of the first key. -/
theorem solve_cons {σ : Type} [SlotArray σ] (third : Nat) (salt : UInt64) (width : Nat)
    (p : Peeled) (order : List Peeled) (slots : σ) : solve third salt width (p :: order) slots =
      solve third salt width order slots >>= fun mid =>
        solveKey third salt (Bits.mask width) mid p := by
  rw [solve, List.reverse_cons, List.foldlM_append]
  simp [solve]

theorem Elimination.solvesFreely {σ : Type} [SlotArray σ] [LawfulSlots σ] {fresh : σ}
    (hpos : 0 < third) (hle : third ≤ 2 ^ 32) (hwidth : width ≤ 64)
    (hadmits : LawfulSlots.Admits σ width) (h : Elimination third salt order rest)
    (hfresh : SlotArray.zeros (3 * third) width = .ok fresh) :
    SolvesFreely σ third salt width order := by
  have hzeros := LawfulSlots.zeros_shows hadmits hfresh
  have hedge : ∀ key, Edge.ofKey third salt key = .ok (Edge.at (Hash.salted key salt) third) :=
    fun key => Edge.of_eq_ok _ hpos hle
  obtain ⟨solved, hsolved, -⟩ := solve_eq_ok hpos hwidth h (fun p _ => hedge p.key) hzeros
  refine ⟨fresh, solved, hfresh, hsolved, ?_⟩
  rintro before p after rfl
  obtain ⟨mid, hmid, hshows⟩ :=
    solve_eq_ok hpos hwidth h.suffix.tail (fun q _ => hedge q.key) hzeros
  obtain ⟨value, next, hvalue, hfits, hzero, hassign, -⟩ :=
    turn_eq_ok hpos hwidth h.suffix hshows
  refine ⟨mid, _, value, next, hmid, hedge p.key, hvalue, fits_iff_lt.1 hfits, hzero, hassign, ?_⟩
  rw [solve_cons, hmid, ok_bind, solveKey, ← Edge.ofKey, hedge, ok_bind, hvalue, ok_bind, hassign]

/-- For all keys and salts, with thirds of one to `2 ^ 32` slots: peeling keeps all promises of its
arithmetic. If it puts all keys aside, then their order holds each of them as often as it was given,
with one of its own three slots; no slot is recorded twice, and no later key touches a slot recorded
before it. So in arrays of octets, of 16-bit words and of packed slots of up to 32 bits, solving
finds every slot zero and never writes a value wider than a slot. -/
theorem peeling_and_solving_keep_promises (hpos : 0 < third) (hle : third ≤ 2 ^ 32)
    (keys : List UInt64) (salt : UInt64) :
    (∀ breach, peel keys third salt ≠ violate breach) ∧
    ∀ order, peel keys third salt = .ok (.nothing order) →
      (order.map Peeled.key).Perm keys ∧
      (∀ p ∈ order, p.slot ∈ slotsOf third salt p.key) ∧
      (order.map Peeled.slot).Nodup ∧
      (order.Pairwise fun p later => p.slot ∉ slotsOf third salt later.key) ∧
      SolvesFreely (Array UInt8) third salt 8 order ∧
      SolvesFreely (Array UInt16) third salt 16 order ∧
      ∀ width, 0 < width → width ≤ 32 → SolvesFreely PackedArray third salt width order := by
  constructor
  · intro breach hbroken
    rcases peel_cases hpos hle keys salt with ⟨-, remainder, hok⟩ | ⟨-, slot, hrefused⟩
    · rw [hok] at hbroken
      cases hbroken
    · rw [hrefused] at hbroken
      cases hbroken
  · intro order hpeel
    obtain ⟨hperm, helim, -⟩ := peel_eq_nothing hpos hpeel
    refine ⟨hperm.symm, helim.own, helim.slots_nodup, helim.apart, ?_, ?_, ?_⟩
    · exact helim.solvesFreely hpos hle (by decide) rfl rfl
    · exact helim.solvesFreely hpos hle (by decide) rfl rfl
    · intro width hwidth hwide
      have hroom : 3 * third * width ≤ 3 * 2 ^ 32 * 32 :=
        Nat.mul_le_mul (Nat.mul_le_mul_left 3 hle) hwide
      have hadmits : LawfulSlots.Admits PackedArray width := ⟨hwidth, by omega⟩
      obtain ⟨fresh, hfresh⟩ :=
        PackedArray.zeros_eq_ok (show 3 * third * width + 63 < 2 ^ 64 by omega)
      exact helim.solvesFreely hpos hle (by omega) hadmits hfresh

/-- The three keys take three slots, and each of them is solved in a slot that is zero. -/
theorem three_keys_are_solved : peel [1, 2, 3] 2 2 = .ok (.nothing [⟨1, 5⟩, ⟨2, 3⟩, ⟨3, 4⟩]) ∧
    [5, 3, 4].Nodup ∧ SolvesFreely PackedArray 2 2 5 [⟨1, 5⟩, ⟨2, 3⟩, ⟨3, 4⟩] := by
  have hpeel : peel [1, 2, 3] 2 2 = .ok (.nothing [⟨1, 5⟩, ⟨2, 3⟩, ⟨3, 4⟩]) := by decide +kernel
  have hthird : 0 < 2 ∧ 2 ≤ 2 ^ 32 := by decide
  obtain ⟨-, hpeeled⟩ := peeling_and_solving_keep_promises hthird.1 hthird.2 [1, 2, 3] 2
  obtain ⟨-, -, hnodup, -, -, -, hpacked⟩ := hpeeled _ hpeel
  exact ⟨hpeel, hnodup, hpacked 5 (by decide) (by decide)⟩

end ApproxSet.XorSet
