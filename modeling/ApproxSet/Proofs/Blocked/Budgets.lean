import ApproxSet.Proofs.Blocked.Loads
import Mathlib.Algebra.Order.Floor.Div

/-!
# The split under the greatest budget

A budget leaves room in all blocks if none of them is routed more hashes than a block may have.
Other numbers of blocks change the routes of all hashes, so a budget may leave room although a
smaller one does not, and the loads are counted again for each. The blocks of the split are what the
routes say, in the order of the keys, and together they are the hashes of all keys.

If no budget leaves room, the block that is named is the last of the fullest ones under the budget
that was tried last, with one key wanted per block.
-/

namespace ApproxSet.Blocked

open Outcome

variable {keys hashes : List UInt64} {seed : UInt64} {blocks budget block : Nat}

/-- The hashes that are routed to a block, in the order of their keys. -/
def routed (keys : List UInt64) (seed : UInt64) (blocks block : Nat) : List UInt64 :=
  (keys.map (Hash.salted · seed)).filter fun hash => blockOf hash blocks = .ok block

/-- The number of hashes that each block is routed with so many keys wanted per block. -/
def loadsUnder (keys : List UInt64) (seed : UInt64) (budget : Nat) : List Nat :=
  (List.range (blocksFor keys.length budget)).map fun block =>
    (routed keys seed (blocksFor keys.length budget) block).length

/-- With so many keys wanted per block, no block is routed too many hashes. -/
def LeavesRoom (keys : List UInt64) (seed : UInt64) (budget : Nat) : Prop :=
  ∀ load ∈ loadsUnder keys seed budget, load ≤ maxLoad

/-- The parts are what the routes under a budget say, and no hash is lost. -/
structure SplitsUnder (keys : List UInt64) (seed : UInt64) (budget : Nat)
    (result : List (List UInt64)) : Prop where
  length_eq : result.length = max 1 (keys.length ⌈/⌉ budget)
  part_eq : ∀ block < result.length, result[block]? = some (routed keys seed result.length block)
  small : ∀ part ∈ result, part.length ≤ maxLoad
  perm : result.flatten.Perm (keys.map (Hash.salted · seed))

/-! ### Parts and routes -/

/-- Blocks are counted by a quotient that is rounded up. -/
theorem blocksFor_eq_ceilDiv (count budget : Nat) :
    blocksFor count budget = max 1 (count ⌈/⌉ budget) := rfl

theorem routed_eq_filter (h : blocks ≤ 2 ^ 32) (keys : List UInt64) (seed : UInt64) (block : Nat) :
    routed keys seed blocks block =
      (keys.map (Hash.salted · seed)).filter (home blocks · == block) := by
  refine List.filter_congr fun hash _ => ?_
  have hblock := blockOf_eq_ok hash h
  rw [beq_eq_decide]
  exact decide_eq_decide.2 (by rw [hblock, Except.ok.injEq])

theorem parts_eq_map_routed (h : blocks ≤ 2 ^ 32) (keys : List UInt64) (seed : UInt64) :
    parts blocks (keys.map (Hash.salted · seed)) =
      (List.range blocks).map (routed keys seed blocks) :=
  List.map_congr_left fun block _ => (routed_eq_filter h keys seed block).symm

/-- The parts of the first blocks are together the hashes routed to one of them. -/
theorem flatMap_home_perm (blocks count : Nat) (hashes : List UInt64) :
    ((List.range count).flatMap fun block => hashes.filter (home blocks · == block)).Perm
      (hashes.filter (home blocks · < count)) := by
  induction count with
  | zero => simp
  | succ count ih =>
    rw [List.range_succ, List.flatMap_append, List.flatMap_singleton]
    have hbefore : hashes.filter (home blocks · < count) =
        (hashes.filter (home blocks · < count + 1)).filter (home blocks · < count) := by
      rw [List.filter_filter]
      refine List.filter_congr fun hash _ => ?_
      rw [← Bool.decide_and]
      exact decide_eq_decide.2 (by omega)
    have hlast : hashes.filter (home blocks · == count) =
        (hashes.filter (home blocks · < count + 1)).filter
          fun hash => !decide (home blocks hash < count) := by
      rw [List.filter_filter]
      refine List.filter_congr fun hash _ => ?_
      rw [← decide_not, ← Bool.decide_and, beq_eq_decide]
      exact decide_eq_decide.2 (by omega)
    rw [hlast]
    refine (ih.append_right _).trans ?_
    rw [hbefore]
    exact List.filter_append_perm _ _

/-- No hash is lost between the parts. -/
theorem flatten_parts_perm (hpos : 0 < blocks) (hashes : List UInt64) :
    (parts blocks hashes).flatten.Perm hashes := by
  have hall : hashes.filter (home blocks · < blocks) = hashes := by
    refine List.filter_eq_self.2 fun hash _ => ?_
    exact decide_eq_true (home_lt hash hpos)
  have hperm := flatMap_home_perm blocks blocks hashes
  rwa [hall, List.flatMap] at hperm

/-! ### Budgets -/

section Budgets

variable (hlength : keys.length ≤ 2 ^ 32) (hpos : 0 < budget)

include hlength hpos

theorem parts_under_eq :
    parts (blocksFor (keys.map (Hash.salted · seed)).length budget)
        (keys.map (Hash.salted · seed)) =
      (List.range (blocksFor keys.length budget)).map
        (routed keys seed (blocksFor keys.length budget)) := by
  rw [List.length_map]
  exact parts_eq_map_routed (blocksFor_le hlength hpos) keys seed

theorem loadsUnder_eq :
    (parts (blocksFor (keys.map (Hash.salted · seed)).length budget)
        (keys.map (Hash.salted · seed))).map List.length =
      loadsUnder keys seed budget := by
  rw [parts_under_eq hlength hpos, List.map_map]
  rfl

theorem spreads_iff_leavesRoom :
    Spreads (keys.map (Hash.salted · seed)) budget ↔ LeavesRoom keys seed budget := by
  rw [LeavesRoom, ← loadsUnder_eq hlength hpos, List.forall_mem_map]
  rfl

theorem splitsUnder_parts (hroom : LeavesRoom keys seed budget) :
    SplitsUnder keys seed budget (parts (blocksFor (keys.map (Hash.salted · seed)).length budget)
      (keys.map (Hash.salted · seed))) := by
  have hcount : (parts (blocksFor (keys.map (Hash.salted · seed)).length budget)
      (keys.map (Hash.salted · seed))).length = blocksFor keys.length budget := by
    rw [length_parts, List.length_map]
  refine ⟨hcount.trans (blocksFor_eq_ceilDiv _ _), fun block hblock => ?_,
    (spreads_iff_leavesRoom hlength hpos).2 hroom, flatten_parts_perm (blocksFor_pos _ _) _⟩
  rw [hcount] at hblock ⊢
  rw [parts_under_eq hlength hpos, List.getElem?_map, List.getElem?_range hblock]
  rfl

end Budgets

/-- Keys are split under the greatest budget that leaves room in all blocks. The parts are the
hashes routed to each block, and together the hashes of all keys. If there is no such budget, the
last of the fullest blocks with one key wanted per block is named. -/
theorem greatest_budget_that_leaves_room_is_taken (keys : List UInt64) (seed : UInt64)
    (hlength : keys.length ≤ 2 ^ 32) :
    ((∃ k, 0 < k ∧ k ≤ firstBudget ∧ LeavesRoom keys seed k) →
      ∃ budget, IsGreatest {k | 0 < k ∧ k ≤ firstBudget ∧ LeavesRoom keys seed k} budget ∧
        ∃ result, (split keys seed).outcome = .ok result ∧ SplitsUnder keys seed budget result) ∧
    ((¬∃ k, 0 < k ∧ k ≤ firstBudget ∧ LeavesRoom keys seed k) →
      ∃ worst : Load, LastFullest (loadsUnder keys seed 1) worst ∧ maxLoad < worst.keys ∧
        (split keys seed).outcome = refuse (.degenerateSlot worst.block worst.keys)) := by
  have hfits : (keys.map (Hash.salted · seed)).length ≤ 2 ^ 32 := by rwa [List.length_map]
  have hsame : ∀ k, 0 < k ∧ k ≤ firstBudget ∧ Spreads (keys.map (Hash.salted · seed)) k ↔
      0 < k ∧ k ≤ firstBudget ∧ LeavesRoom keys seed k := by
    intro k
    refine and_congr_right fun hpos => and_congr_right fun _ => ?_
    exact spreads_iff_leavesRoom hlength hpos
  rcases splitHashes_cases hfits firstBudget ⟨0, 0⟩ with
    ⟨budget, hgreatest, hsplit⟩ | ⟨hcrowded, worst, hworst, hsplit⟩
  · simp only [hsame] at hgreatest
    have hbudget := hgreatest.1
    refine ⟨fun _ => ⟨budget, hgreatest, _, hsplit, ?_⟩, fun hnone => absurd ⟨_, hbudget⟩ hnone⟩
    exact splitsUnder_parts hlength hbudget.1 hbudget.2.2
  · have hnone : ¬∃ k, 0 < k ∧ k ≤ firstBudget ∧ LeavesRoom keys seed k := by
      intro hroom
      obtain ⟨k, hk⟩ := hroom
      obtain ⟨hpos, hle, hspreads⟩ := (hsame k).2 hk
      exact hcrowded k hpos hle hspreads
    refine ⟨fun hroom => absurd hroom hnone, fun _ => ⟨worst, ?_, ?_, hsplit⟩⟩
    · have hloads : loadsUnder keys seed 1 ≠ [] := by
        simp [loadsUnder, Nat.ne_of_gt (blocksFor_pos keys.length 1)]
      rw [hworst, if_neg (by decide), worstLoad, loadsUnder_eq hlength Nat.one_pos]
      exact lastFullest_fullest hloads
    · have hover := hcrowded 1 Nat.one_pos (by decide)
      rw [← worstLoad_keys_le_iff] at hover
      rw [hworst, if_neg (by decide)]
      omega

/-- Sixty keys are too many for one block, so fewer than sixty may be wanted per block. Fifty-one
copies of a key are in one block under every budget. -/
theorem sixty_keys_are_split_and_many_sevens_are_not :
    (∃ result, (split ((List.range 60).map UInt64.ofNat) 0).outcome = .ok result ∧
      SplitsUnder ((List.range 60).map UInt64.ofNat) 0 59 result) ∧
    ∃ worst : Load, LastFullest (loadsUnder (List.replicate 51 7) 0 1) worst ∧ 50 < worst.keys ∧
      (split (List.replicate 51 7) 0).outcome =
        refuse (.degenerateSlot worst.block worst.keys) := by
  have hsixty := greatest_budget_that_leaves_room_is_taken ((List.range 60).map UInt64.ofNat) 0
    (by decide)
  have hsevens := greatest_budget_that_leaves_room_is_taken (List.replicate 51 7) 0 (by decide)
  have hroom : LeavesRoom ((List.range 60).map UInt64.ofNat) 0 59 := by
    unfold LeavesRoom
    decide +kernel
  have hfull : ∀ k ≤ firstBudget, 59 < k →
      ¬LeavesRoom ((List.range 60).map UInt64.ofNat) 0 k := by
    unfold LeavesRoom
    decide +kernel
  have hrefused : (split (List.replicate 51 7) 0).outcome = refuse (.degenerateSlot 3 51) := by
    decide +kernel
  constructor
  · obtain ⟨budget, hgreatest, result, hsplit, hresult⟩ :=
      hsixty.1 ⟨59, by decide, by decide, hroom⟩
    have hle : 59 ≤ budget := hgreatest.2 ⟨by decide, by decide, hroom⟩
    have hbudget : budget = 59 := by
      by_contra hother
      exact hfull budget hgreatest.1.2.1 (by omega) hgreatest.1.2.2
    exact ⟨result, hsplit, hbudget ▸ hresult⟩
  · refine hsevens.2 fun hsome => ?_
    obtain ⟨budget, -, result, hsplit, -⟩ := hsevens.1 hsome
    rw [hrefused] at hsplit
    exact refuse_ne_ok hsplit

end ApproxSet.Blocked
