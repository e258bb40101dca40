import ApproxSet.Proofs.XorSet.Overflow
import ApproxSet.Proofs.XorSet.Solving
import Mathlib.Data.Multiset.AddSub
import Mathlib.Order.Bounds.Defs

/-!
# The core of a hypergraph

How peeling ends is decided by the keys and their slots, whatever order the loop takes. Some of the
keys are tangled if each slot that one of them touches is touched by at least two. A lone slot
cannot belong to tangled keys, so no tangled key is ever put aside; and when the loop ends the keys
that are left are tangled themselves. So they are the greatest tangled part of all keys, the core.

That the loop only ends there needs the stack: every slot that is lone is on it, although slots may
lose their last key, or come up twice, before their turn.
-/

namespace ApproxSet.XorSet

open Outcome

/-- The number of keys on a slot. A repeated key counts as often as it is repeated. -/
def load (third : Nat) (salt : UInt64) (slot : Nat) (keys : Multiset UInt64) : Nat :=
  keys.countP fun key => slot ∈ slotsOf third salt key

/-- Every slot that some of the keys touch is touched by at least two of them. -/
def Tangled (third : Nat) (salt : UInt64) (keys : Multiset UInt64) : Prop :=
  ∀ slot, 0 < load third salt slot keys → 2 ≤ load third salt slot keys

variable {third : Nat} {salt : UInt64} {slot left : Nat} {keys rest : List UInt64}
  {order : List Peeled} {part : Multiset UInt64}

theorem load_coe (third : Nat) (salt : UInt64) (slot : Nat) (keys : List UInt64) :
    load third salt slot keys = (onSlot third salt slot keys).length := by
  simp [load, onSlot, List.countP_eq_length_filter]

theorem load_cons (third : Nat) (salt : UInt64) (slot : Nat) (key : UInt64)
    (keys : Multiset UInt64) : load third salt slot (key ::ₘ keys) =
      load third salt slot keys + if slot ∈ slotsOf third salt key then 1 else 0 :=
  Multiset.countP_cons _ _ _

theorem load_mono {parts : Multiset UInt64} (h : part ≤ parts) :
    load third salt slot part ≤ load third salt slot parts :=
  Multiset.countP_le_of_le _ h

/-- Tangled keys are those that do not touch any slot exactly once. -/
theorem tangled_iff : Tangled third salt part ↔ ∀ slot, load third salt slot part ≠ 1 := by
  constructor
  · intro h slot hone
    have htwo := h slot (by omega)
    omega
  · intro h slot hpos
    have hone := h slot
    omega

/-- No tangled key is ever put aside. -/
theorem Elimination.tangled_le (h : Elimination third salt order rest)
    (htangled : Tangled third salt part)
    (hpart : part ≤ ↑(order.map Peeled.key ++ rest)) : part ≤ ↑rest := by
  induction order with
  | nil => exact hpart
  | cons p order ih =>
    have hothers : load third salt p.slot ↑(order.map Peeled.key ++ rest) = 0 := by
      refine Multiset.countP_eq_zero.2 fun key hkey => ?_
      rcases List.mem_append.1 hkey with hlater | hrest
      · obtain ⟨q, hq, rfl⟩ := List.mem_map.1 hlater
        exact List.rel_of_pairwise_cons h.apart hq
      · exact h.clear p List.mem_cons_self key hrest
    have hown : p.slot ∈ slotsOf third salt p.key := h.own p List.mem_cons_self
    have hpart' : part ≤ p.key ::ₘ ↑(order.map Peeled.key ++ rest) := hpart
    have hone : load third salt p.slot part ≤ 1 := by
      refine (load_mono hpart').trans (le_of_eq ?_)
      rw [load_cons, if_pos hown, hothers]
    have hnew : p.key ∉ part := by
      intro hmem
      have hpos : 0 < load third salt p.slot part := Multiset.countP_pos_of_mem hmem hown
      have htwo := htangled p.slot hpos
      omega
    exact ih h.tail ((Multiset.le_cons_of_notMem hnew).1 hpart')

/-! ### The end of the loop -/

/-- All lone slots of the mesh are on the stack. -/
def Mesh.Listed (m : Mesh) (stack : List Nat) : Prop :=
  ∀ slot, m.degree slot = 1 → slot ∈ stack

/-- Lone slots stay on the stack until it is their turn, and slots that become lone are pushed. -/
theorem Mesh.Listed.removeKey {m m' : Mesh} {passed below stack' : List Nat} (hpos : 0 < third)
    (h : m.Listed (passed ++ slot :: below)) (hpassed : ∀ other ∈ passed, m.degree other ≠ 1)
    (hmesh : m.Describes third salt keys) (hlone : m.degree slot = 1)
    (hremove : m.removeKey third salt below (m.sumAt slot) = .ok (m', stack')) :
    m'.Listed stack' := by
  obtain ⟨hmem, hown, -⟩ := hmesh.lone hlone
  have hperm := hmesh.perm (List.perm_cons_erase hmem)
  have hmesh' := hperm.removeKey hpos hremove
  intro other hother
  rw [Mesh.removeKey_stack hpos hremove]
  by_cases htouch : other ∈ slotsOf third salt (m.sumAt slot)
  · exact .inr ⟨htouch, hother⟩
  · -- the key that was taken off does not touch this slot, so it was lone before
    have hbefore : m.degree other = 1 := by
      rw [hperm.degree, length_onSlot_cons, if_neg htouch, ← hmesh'.degree, hother]
    rcases List.mem_append.1 (h other hbefore) with hin | hin
    · exact absurd hbefore (hpassed other hin)
    · rcases List.mem_cons.1 hin with rfl | hbelow
      · exact absurd hown htouch
      · exact .inl hbelow

/-- The loop ends with tangled keys, if all lone slots were on the stack at its start. -/
theorem drain_leaves_tangled (hpos : 0 < third) {mesh : Mesh} {stack : List Nat}
    (hmesh : mesh.Describes third salt keys) (hlisted : mesh.Listed stack)
    (hleft : keys.length ≤ left) (h : drain third salt left mesh stack = .ok order)
    (hperm : keys.Perm (order.map Peeled.key ++ rest)) : Tangled third salt ↑rest := by
  rw [tangled_iff]
  intro slot
  rw [load_coe]
  induction left generalizing mesh stack keys order with
  | zero =>
    obtain rfl : keys = [] := List.length_eq_zero_iff.1 (by omega)
    obtain rfl : rest = [] := (List.append_eq_nil_iff.1 (List.nil_perm.1 hperm)).2
    simp [onSlot]
  | succ left ih =>
    rcases drain_succ_cases h with
      ⟨rfl, hnone⟩ | ⟨passed, top, below, mesh', stack', order', rfl, hpassed, hlone, hremove,
        horder, rfl⟩
    · intro hone
      have hdegree : mesh.degree slot = 1 := by
        rw [hmesh.degree, ← hone]
        exact (hperm.filter _).length_eq
      exact hnone slot (hlisted slot hdegree) hdegree
    · have herase := List.perm_cons_erase (hmesh.lone hlone).1
      have hrest := (herase.symm.trans hperm).cons_inv
      have hlength := herase.length_eq
      rw [List.length_cons] at hlength
      exact ih ((hmesh.perm herase).removeKey hpos hremove)
        (hlisted.removeKey hpos hpassed hmesh hlone hremove) (by omega) horder hrest

/-- Keys that no slot is too full of are put aside but for their core. -/
theorem peel_eq_ok (hpos : 0 < third) (hle : third ≤ 2 ^ 32) (hlight : Light third salt keys) :
    ∃ order rest, keys.Perm (order.map Peeled.key ++ rest) ∧ Elimination third salt order rest ∧
      Tangled third salt ↑rest ∧ peel keys third salt =
        .ok (if rest = [] then .nothing order else .core order.length) := by
  have hmul : Checked.mul 64 3 third = .ok (3 * third) := Checked.mul_eq_ok (by omega)
  rcases peel_cases hpos hle keys salt with ⟨-, remainder, hok⟩ | ⟨hheavy, -⟩
  · have hpeel := hok
    rw [peel, hmul, ok_bind] at hpeel
    obtain ⟨mesh, hmesh, hpeel⟩ := bind_eq_ok_iff.1 hpeel
    obtain ⟨order, horder, hpeel⟩ := bind_eq_ok_iff.1 hpeel
    obtain ⟨hdescribes, -⟩ := Mesh.describes_addKeys hpos hmesh
    obtain ⟨rest, hperm, helim⟩ := drain_eliminates hpos hdescribes horder
    have hlisted : mesh.Listed mesh.loneSlots := fun _ => Mesh.mem_loneSlots.2
    have htangled := drain_leaves_tangled hpos hdescribes hlisted (le_refl _) horder hperm
    refine ⟨order, rest, hperm, helim, htangled, ?_⟩
    have hall : order.length = keys.length ↔ rest = [] := by
      rw [hperm.length_eq, List.length_append, List.length_map, ← List.length_eq_zero_iff]
      omega
    rw [hok, ← hpeel, pure_eq_ok]
    simp only [hall]
  · exact absurd hlight hheavy

theorem light_iff : Light third salt keys ↔ ∀ slot, load third salt slot ↑keys ≤ 120 := by
  simp only [load_coe]
  rfl

/-- Keys are refused just if some slot is too full. -/
theorem refused_iff (hpos : 0 < third) (hle : third ≤ 2 ^ 32) :
    (∃ slot degree, peel keys third salt = refuse (.degenerateSlot slot degree)) ↔
      ∃ slot, 120 < load third salt slot ↑keys := by
  have hheavy : ¬Light third salt keys ↔ ∃ slot, 120 < load third salt slot ↑keys := by
    rw [light_iff]
    simp only [not_forall, not_le]
  rw [← hheavy]
  rcases peel_cases hpos hle keys salt with ⟨hlight, remainder, hok⟩ | ⟨hheavy, slot, hrefused⟩
  · refine iff_of_false ?_ (not_not.2 hlight)
    rintro ⟨slot, degree, h⟩
    rw [hok] at h
    cases h
  · exact iff_of_true ⟨slot, _, hrefused⟩ hheavy

/-- The keys that are left are the greatest tangled part of all keys. -/
theorem Elimination.isGreatest (h : Elimination third salt order rest)
    (hperm : keys.Perm (order.map Peeled.key ++ rest)) (htangled : Tangled third salt ↑rest) :
    IsGreatest {part | part ≤ (keys : Multiset UInt64) ∧ Tangled third salt part} ↑rest := by
  have hrest : (rest : Multiset UInt64) ≤ keys :=
    Multiset.coe_le.2 ((List.sublist_append_right _ _).subperm.trans hperm.symm.subperm)
  refine ⟨⟨hrest, htangled⟩, ?_⟩
  rintro part ⟨hpart, hpartTangled⟩
  rw [Multiset.coe_eq_coe.2 hperm] at hpart
  exact h.tangled_le hpartTangled hpart

/-- For all keys and salts, with thirds of one to `2 ^ 32` slots: the keys are refused just if some
slot has more than 120 of them, and then the first slot to get that many is named. Otherwise they
are all put aside just if each of their parts, the empty one apart, touches some slot once; and if
they are not, those that are left are the greatest part that touches every slot of its own at least
twice. -/
theorem hypergraph_decides_peeling (hpos : 0 < third) (hle : third ≤ 2 ^ 32) (keys : List UInt64)
    (salt : UInt64) :
    ((∃ slot degree, peel keys third salt = refuse (.degenerateSlot slot degree)) ↔
      ∃ slot, 120 < load third salt slot keys) ∧
    (∀ slot degree, peel keys third salt = refuse (.degenerateSlot slot degree) ↔
      degree = 121 ∧ Overflows (keys.flatMap (slotsOf third salt)) slot) ∧
    ((∀ slot, load third salt slot keys ≤ 120) →
      ((∃ order, peel keys third salt = .ok (.nothing order)) ↔
        ∀ part ≤ (keys : Multiset UInt64), part ≠ 0 → ∃ slot, load third salt slot part = 1) ∧
      ((¬∃ order, peel keys third salt = .ok (.nothing order)) → ∃ core : Multiset UInt64,
        IsGreatest {part | part ≤ (keys : Multiset UInt64) ∧ Tangled third salt part} core ∧
        peel keys third salt = .ok (.core (keys.length - core.card)))) := by
  refine ⟨refused_iff hpos hle, fun slot degree => peel_eq_refuse_iff hpos hle, fun hload => ?_⟩
  obtain ⟨order, rest, hperm, helim, htangled, hpeel⟩ := peel_eq_ok hpos hle (light_iff.2 hload)
  have hgreatest := helim.isGreatest hperm htangled
  by_cases hnil : rest = []
  · rw [if_pos hnil] at hpeel
    refine ⟨iff_of_true ⟨order, hpeel⟩ fun part hpart hne => ?_, fun h => absurd ⟨order, hpeel⟩ h⟩
    by_contra hnone
    have hzero : part ≤ ↑rest := hgreatest.2 ⟨hpart, tangled_iff.2 (not_exists.1 hnone)⟩
    rw [hnil] at hzero
    exact hne (Multiset.le_zero.1 hzero)
  · rw [if_neg hnil] at hpeel
    refine ⟨iff_of_false ?_ fun h => ?_, fun _ => ⟨rest, hgreatest, ?_⟩⟩
    · rintro ⟨order', h⟩
      rw [hpeel] at h
      cases h
    · obtain ⟨slot, hone⟩ := h rest hgreatest.1.1 (by simpa using hnil)
      exact tangled_iff.1 htangled slot hone
    · have hlength := hperm.length_eq
      rw [List.length_append, List.length_map] at hlength
      rw [hpeel, Multiset.coe_card]
      congr 2
      omega

/-- Of these three keys, two have the same slots and stay, and 121 copies of a key are too many. -/
theorem core_of_three_keys :
    peel [1, 2, 5] 2 0 = .ok (.core 1) ∧
    (∃ core : Multiset UInt64, core.card = 2 ∧
      IsGreatest {part | part ≤ ↑[(1 : UInt64), 2, 5] ∧ Tangled 2 0 part} core) ∧
    peel (List.replicate 121 7) 2 0 = refuse (.degenerateSlot 0 121) ∧
    (∃ slot, 120 < load 2 0 slot ↑(List.replicate 121 (7 : UInt64))) ∧
    Overflows ((List.replicate 121 7).flatMap (slotsOf 2 0)) 0 := by
  have hthird : 0 < 2 ∧ 2 ≤ 2 ^ 32 := by decide
  have hstuck : peel [1, 2, 5] 2 0 = .ok (.core 1) := by decide +kernel
  have hfull : peel (List.replicate 121 7) 2 0 = refuse (.degenerateSlot 0 121) := by
    decide +kernel
  have hload : ∀ slot, load 2 0 slot ↑[(1 : UInt64), 2, 5] ≤ 120 := fun slot =>
    (Multiset.countP_le_card _ _).trans (by simp)
  obtain ⟨-, -, hends⟩ := hypergraph_decides_peeling hthird.1 hthird.2 [1, 2, 5] 0
  obtain ⟨hheavy, hfirst, -⟩ :=
    hypergraph_decides_peeling hthird.1 hthird.2 (List.replicate 121 7) 0
  refine ⟨hstuck, ?_, hfull, hheavy.1 ⟨0, 121, hfull⟩, ((hfirst 0 121).1 hfull).2⟩
  obtain ⟨core, hgreatest, hcore⟩ := (hends hload).2 (by rw [hstuck]; rintro ⟨order, h⟩; cases h)
  have hcard : core.card ≤ 3 := Multiset.card_le_card hgreatest.1.1
  rw [hstuck] at hcore
  have hleft : 1 = 3 - core.card := by simpa using hcore
  exact ⟨core, by omega, hgreatest⟩

end ApproxSet.XorSet
