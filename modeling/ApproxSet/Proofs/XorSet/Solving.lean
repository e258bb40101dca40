import ApproxSet.Proofs.XorSet.Peeling
import ApproxSet.Proofs.XorSet.SlotArray

/-!
# Solving in reverse

`solution` is the table that solving an elimination order yields, as a plain function from slots to
values. It satisfies the equation of every key of the order: when a key is solved its own slot is
still zero, so the value given to it settles the equation, and the keys solved after it stay away
from its slots' values by the order. Every lawful array of slots ends up showing this function.
-/

namespace ApproxSet.XorSet

open Bits Outcome

/-- The exclusive or of the values at the three slots of an edge. -/
def Edge.total (e : Edge) (f : Nat → UInt64) : UInt64 :=
  f e.first ^^^ f e.second ^^^ f e.third

/-- The values of all slots after the keys of an order are solved, the last one first. -/
def solution (third : Nat) (salt mask : UInt64) : List Peeled → Nat → UInt64
  | [] => fun _ => 0
  | p :: order =>
    let hash := Hash.salted p.key salt
    let later := solution third salt mask order
    Function.update later p.slot (fingerprint hash mask ^^^ (Edge.at hash third).total later)

variable {third width count : Nat} {salt : UInt64} {order : List Peeled} {p : Peeled}

/-! ### Equations -/

theorem Edge.total_congr {e : Edge} {f g : Nat → UInt64} (h : ∀ slot ∈ e.slots, f slot = g slot) :
    e.total f = e.total g := by
  rw [Edge.total, Edge.total, h e.first (by simp [Edge.slots]), h e.second (by simp [Edge.slots]),
    h e.third (by simp [Edge.slots])]

theorem Edge.total_update_of_not_mem {e : Edge} {f : Nat → UInt64} {slot : Nat} {value : UInt64}
    (h : slot ∉ e.slots) : e.total (Function.update f slot value) = e.total f := by
  simp only [Edge.slots, List.mem_cons, List.not_mem_nil, or_false, not_or] at h
  simp only [Edge.total, Function.update_of_ne (Ne.symm h.1),
    Function.update_of_ne (Ne.symm h.2.1), Function.update_of_ne (Ne.symm h.2.2)]

/-- A value given to a zero slot of an edge is added to its total. -/
theorem Edge.total_update_of_mem {e : Edge} {f : Nat → UInt64} {slot : Nat} {value : UInt64}
    (hnodup : e.slots.Nodup) (h : slot ∈ e.slots) (hzero : f slot = 0) :
    e.total (Function.update f slot value) = value ^^^ e.total f := by
  simp only [Edge.slots, List.nodup_cons, List.mem_cons, List.not_mem_nil, or_false, not_or,
    not_false_eq_true, List.nodup_nil, and_true] at hnodup h
  obtain ⟨⟨hab, hac⟩, hbc⟩ := hnodup
  rcases h with rfl | rfl | rfl
  · simp only [Edge.total, Function.update_self, Function.update_of_ne (Ne.symm hab),
      Function.update_of_ne (Ne.symm hac), hzero, UInt64.zero_xor, UInt64.xor_assoc]
  · simp only [Edge.total, Function.update_self, Function.update_of_ne hab,
      Function.update_of_ne (Ne.symm hbc), hzero, UInt64.xor_zero]
    rw [UInt64.xor_comm _ value, UInt64.xor_assoc]
  · simp only [Edge.total, Function.update_self, Function.update_of_ne hac,
      Function.update_of_ne hbc, hzero, UInt64.xor_zero]
    rw [UInt64.xor_comm _ value]

theorem Elimination.tail {rest : List UInt64} (h : Elimination third salt (p :: order) rest) :
    Elimination third salt order rest :=
  ⟨fun q hq => h.own q (List.mem_cons_of_mem _ hq), h.apart.of_cons,
    fun q hq => h.clear q (List.mem_cons_of_mem _ hq)⟩

/-- The slot of a key is not the slot of a later key. -/
theorem Elimination.slot_ne {rest : List UInt64} (h : Elimination third salt (p :: order) rest) :
    ∀ q ∈ order, q.slot ≠ p.slot := by
  intro q hq heq
  have hown := h.own q (List.mem_cons_of_mem _ hq)
  exact List.rel_of_pairwise_cons h.apart hq (heq ▸ hown)

/-- Only slots of solved keys are ever given a value. -/
theorem solution_eq_zero (mask : UInt64) {slot : Nat} (h : ∀ q ∈ order, q.slot ≠ slot) :
    solution third salt mask order slot = 0 := by
  induction order with
  | nil => rfl
  | cons p order ih =>
    rw [solution, Function.update_of_ne (Ne.symm (h p (by simp)))]
    exact ih fun q hq => h q (by simp [hq])

/-- The table satisfies the equation of every key. -/
theorem solution_solves (hpos : 0 < third) (mask : UInt64) {rest : List UInt64}
    (h : Elimination third salt order rest) :
    ∀ p ∈ order, (Edge.at (Hash.salted p.key salt) third).total (solution third salt mask order) =
      fingerprint (Hash.salted p.key salt) mask := by
  induction order with
  | nil => simp
  | cons p order ih =>
    intro q hq
    rcases List.mem_cons.1 hq with rfl | hin
    · rw [solution, Edge.total_update_of_mem (Edge.slots_nodup hpos _) (h.own q (by simp))
        (solution_eq_zero mask h.slot_ne), UInt64.xor_assoc, UInt64.xor_self, UInt64.xor_zero]
    · rw [solution, Edge.total_update_of_not_mem (List.rel_of_pairwise_cons h.apart hin)]
      exact ih h.tail q hin

/-- The table of a peeling order satisfies the equation of every key. -/
theorem solution_of_peeled (hpos : 0 < third) (mask : UInt64) {keys : List UInt64}
    (h : peel keys third salt = .ok (.nothing order)) :
    ∀ key ∈ keys, (Edge.at (Hash.salted key salt) third).total (solution third salt mask order) =
      fingerprint (Hash.salted key salt) mask := by
  intro key hkey
  obtain ⟨hperm, helim, -⟩ := peel_eq_nothing hpos h
  obtain ⟨p, hp, rfl⟩ := List.mem_map.1 (hperm.mem_iff.1 hkey)
  exact solution_solves hpos mask helim p hp

/-- A fingerprint has no bits outside its mask. -/
theorem fits_fingerprint (hwidth : width ≤ 64) (hash : UInt64) :
    Fits width (fingerprint hash (Bits.mask width)) :=
  fits_and_mask hwidth _

theorem solution_fits (hwidth : width ≤ 64) (slot : Nat) :
    Fits width (solution third salt (Bits.mask width) order slot) := by
  induction order generalizing slot with
  | nil => exact fits_zero width
  | cons p order ih =>
    rw [solution]
    by_cases hslot : slot = p.slot
    · rw [hslot, Function.update_self]
      exact (fits_fingerprint hwidth _).xor (((ih _).xor (ih _)).xor (ih _))
    · rw [Function.update_of_ne hslot]
      exact ih slot

/-! ### Arrays of slots -/

section Arrays

variable {σ : Type} [SlotArray σ] [LawfulSlots σ] {slots : σ} {f : Nat → UInt64}

theorem residue_eq_ok {e : Edge} (hshows : LawfulSlots.Shows slots count width f)
    (hinside : ∀ slot ∈ e.slots, slot < count) (print : UInt64) :
    residue slots e print = .ok (print ^^^ e.total f) := by
  have hlookup : ∀ slot ∈ e.slots, SlotArray.slot slots slot = .ok (f slot) :=
    fun slot hslot => LawfulSlots.slot_eq_ok hshows (hinside slot hslot)
  rw [residue, hlookup e.first (by simp [Edge.slots]), ok_bind,
    hlookup e.second (by simp [Edge.slots]), ok_bind, hlookup e.third (by simp [Edge.slots]),
    ok_bind, pure_eq_ok, Edge.total, UInt64.xor_assoc, UInt64.xor_assoc, UInt64.xor_assoc]

/-- When the turn of a key comes, its slot is zero and its value fits. -/
theorem turn_eq_ok (hpos : 0 < third) (hwidth : width ≤ 64) {rest : List UInt64}
    (helim : Elimination third salt (p :: order) rest)
    (hshows : LawfulSlots.Shows slots (3 * third) width
      (solution third salt (Bits.mask width) order)) :
    ∃ value slots', residue slots (Edge.at (Hash.salted p.key salt) third)
        (fingerprint (Hash.salted p.key salt) (Bits.mask width)) = .ok value ∧
      Fits width value ∧ SlotArray.slot slots p.slot = .ok 0 ∧
      SlotArray.assign slots p.slot value = .ok slots' ∧
      LawfulSlots.Shows slots' (3 * third) width
        (solution third salt (Bits.mask width) (p :: order)) := by
  have hinside : p.slot < 3 * third :=
    Edge.slots_lt hpos _ _ (helim.own p (by simp))
  have hzero : solution third salt (Bits.mask width) order p.slot = 0 :=
    solution_eq_zero _ helim.slot_ne
  have hslot := LawfulSlots.slot_eq_ok hshows hinside
  have hfits : Fits width (solution third salt (Bits.mask width) (p :: order) p.slot) :=
    solution_fits hwidth p.slot
  rw [solution, Function.update_self] at hfits
  obtain ⟨slots', hassign, hlast⟩ := LawfulSlots.assign_eq_ok hshows hinside hzero hfits
  rw [hzero] at hslot
  exact ⟨_, slots', residue_eq_ok hshows (Edge.slots_lt hpos _) _, hfits, hslot, hassign, hlast⟩

/-- Solving an elimination order in an array of zeros succeeds, and the array shows the solution. -/
theorem solve_eq_ok (hpos : 0 < third) (hwidth : width ≤ 64) {rest : List UInt64}
    (helim : Elimination third salt order rest)
    (hedges : ∀ p ∈ order, Edge.ofKey third salt p.key =
      .ok (Edge.at (Hash.salted p.key salt) third))
    (hshows : LawfulSlots.Shows slots (3 * third) width fun _ => 0) :
    ∃ slots', solve third salt width order slots = .ok slots' ∧
      LawfulSlots.Shows slots' (3 * third) width
        (solution third salt (Bits.mask width) order) := by
  induction order with
  | nil => exact ⟨slots, rfl, hshows⟩
  | cons p order ih =>
    obtain ⟨mid, hmid, hmidshows⟩ := ih helim.tail fun q hq => hedges q (by simp [hq])
    obtain ⟨value, slots', hvalue, -, -, hassign, hlast⟩ := turn_eq_ok hpos hwidth helim hmidshows
    refine ⟨slots', ?_, hlast⟩
    have hedge : Edge.of (Hash.salted p.key salt) third =
      .ok (Edge.at (Hash.salted p.key salt) third) := hedges p (by simp)
    rw [solve] at hmid ⊢
    rw [List.reverse_cons, List.foldlM_append, hmid, ok_bind, List.foldlM_cons, solveKey, hedge,
      ok_bind, hvalue, ok_bind, hassign]
    rfl

/-- The same for the order in which keys have peeled. -/
theorem solve_of_peeled (hpos : 0 < third) (hwidth : width ≤ 64) {keys : List UInt64}
    (hpeel : peel keys third salt = .ok (.nothing order))
    (hshows : LawfulSlots.Shows slots (3 * third) width fun _ => 0) :
    ∃ slots', solve third salt width order slots = .ok slots' ∧
      LawfulSlots.Shows slots' (3 * third) width
        (solution third salt (Bits.mask width) order) := by
  obtain ⟨hperm, helim, hedges⟩ := peel_eq_nothing hpos hpeel
  refine solve_eq_ok hpos hwidth helim (fun p hp => ?_) hshows
  exact hedges p.key (hperm.mem_iff.2 (List.mem_map_of_mem hp))

end Arrays

end ApproxSet.XorSet
