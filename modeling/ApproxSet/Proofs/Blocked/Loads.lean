import ApproxSet.Proofs.Blocked.Splitting
import Mathlib.Data.List.Induction
import Mathlib.Order.Bounds.Basic

/-!
# Which budgets spread hashes

Counting the routes gives each block the number of its hashes. So a budget is accepted just if no
part of the split that it leads to has too many of them. The budgets are tried from the greatest one
down, and hashes that no budget spreads are turned down. Nothing but overloaded blocks is reported
on the way.
-/

namespace ApproxSet.Blocked

open Outcome

variable {blocks budget : Nat} {hashes : List UInt64}

/-! ### Loads -/

theorem countIn_eq_ok {loads : Array Nat} {block : Nat} (h : block < loads.size) :
    countIn loads block = .ok (loads.set block (loads[block] + 1)) := dif_pos h

/-- Counting adds to each load the number of routes to its block. -/
theorem countAll_eq_ok {routes : List Nat} {loads : Array Nat}
    (h : ∀ block ∈ routes, block < loads.size) :
    routes.foldlM countIn loads =
      .ok (loads.mapIdx fun block load => load + routes.count block) := by
  induction routes generalizing loads with
  | nil => exact congrArg Except.ok (Array.ext (by simp) (by simp))
  | cons block routes ih =>
    simp only [List.forall_mem_cons] at h
    rw [List.foldlM_cons, countIn_eq_ok h.1, ok_bind, ih (by simpa using h.2)]
    congr 1
    refine Array.ext (by simp) fun other hother _ => ?_
    rw [Array.getElem_mapIdx, Array.getElem_mapIdx, Array.getElem_set, List.count_cons]
    by_cases hsame : block = other
    · subst hsame
      simp
      omega
    · simp [hsame]

/-- The loads are the lengths of the parts. -/
theorem countLoads_eq_ok (hpos : 0 < blocks) (hashes : List UInt64) :
    ∃ loads, countLoads (hashes.map (home blocks)) blocks = .ok loads ∧
      loads.toList = (parts blocks hashes).map List.length := by
  have hinside : ∀ block ∈ hashes.map (home blocks), block < (Array.replicate blocks 0).size := by
    intro block hblock
    obtain ⟨hash, -, rfl⟩ := List.mem_map.1 hblock
    rw [Array.size_replicate]
    exact home_lt hash hpos
  refine ⟨_, countAll_eq_ok hinside, ?_⟩
  refine List.ext_getElem (by simp [length_parts]) fun block hblock _ => ?_
  simp [parts, List.count_eq_length_filter, List.filter_map, Function.comp_def]

/-- A block has the most keys, and no block after it has as many. -/
structure LastFullest (loads : List Nat) (worst : Load) : Prop where
  keys_eq : loads[worst.block]? = some worst.keys
  le : ∀ load ∈ loads, load ≤ worst.keys
  last : ∀ block load, worst.block < block → loads[block]? = some load → load < worst.keys

theorem fullest_concat (loads : List Nat) (load : Nat) :
    fullest (loads ++ [load]) =
      if (fullest loads).keys ≤ load then ⟨loads.length, load⟩ else fullest loads := by
  simp only [fullest, List.zipIdx_append, List.foldl_append, Nat.zero_add]
  rfl

theorem lastFullest_fullest {loads : List Nat} (h : loads ≠ []) :
    LastFullest loads (fullest loads) := by
  induction loads using List.reverseRecOn with
  | nil => exact absurd rfl h
  | append_singleton loads load ih =>
    rw [fullest_concat]
    by_cases hnext : (fullest loads).keys ≤ load
    · rw [if_pos hnext]
      refine ⟨by simp, fun other hother => ?_, fun block other hafter hother => ?_⟩
      · rcases List.mem_append.1 hother with hbefore | hlast
        · have hnil : loads ≠ [] := List.ne_nil_of_mem hbefore
          exact ((ih hnil).le other hbefore).trans hnext
        · exact (List.mem_singleton.1 hlast).le
      · have hinside := (List.getElem?_eq_some_iff.1 hother).1
        rw [List.length_append, List.length_singleton] at hinside
        exact absurd hinside (Nat.not_lt.2 hafter)
    · rw [if_neg hnext]
      have hnil : loads ≠ [] := by
        rintro rfl
        exact hnext (Nat.zero_le load)
      have hworst := ih hnil
      have hinside := (List.getElem?_eq_some_iff.1 hworst.keys_eq).1
      refine ⟨?_, fun other hother => ?_, fun block other hafter hother => ?_⟩
      · rw [List.getElem?_append_left hinside]
        exact hworst.keys_eq
      · rcases List.mem_append.1 hother with hbefore | hlast
        · exact hworst.le other hbefore
        · rw [List.mem_singleton.1 hlast]
          omega
      · rcases Nat.lt_or_ge block loads.length with hbefore | hlast
        · rw [List.getElem?_append_left hbefore] at hother
          exact hworst.last block other hafter hother
        · rw [List.getElem?_append_right hlast] at hother
          have hload := List.mem_of_getElem? hother
          rw [List.mem_singleton.1 hload]
          omega

/-- The fullest block is within a bound just if all blocks are. -/
theorem fullest_keys_le_iff {loads : List Nat} {bound : Nat} :
    (fullest loads).keys ≤ bound ↔ ∀ load ∈ loads, load ≤ bound := by
  by_cases hnil : loads = []
  · subst hnil
    simp [fullest]
  · have hworst := lastFullest_fullest hnil
    constructor
    · intro hle load hload
      exact (hworst.le load hload).trans hle
    · intro hall
      exact hall _ (List.mem_of_getElem? hworst.keys_eq)

/-! ### Budgets -/

/-- With so many keys wanted per block, no block gets too many of the hashes. -/
def Spreads (hashes : List UInt64) (budget : Nat) : Prop :=
  ∀ part ∈ parts (blocksFor hashes.length budget) hashes, part.length ≤ maxLoad

/-- The last of the blocks with the most hashes under a budget. -/
def worstLoad (hashes : List UInt64) (budget : Nat) : Load :=
  fullest ((parts (blocksFor hashes.length budget) hashes).map List.length)

theorem worstLoad_keys_le_iff :
    (worstLoad hashes budget).keys ≤ maxLoad ↔ Spreads hashes budget := by
  rw [worstLoad, fullest_keys_le_iff, List.forall_mem_map]
  rfl

theorem blocksFor_le (h : hashes.length ≤ 2 ^ 32) (hpos : 0 < budget) :
    blocksFor hashes.length budget ≤ 2 ^ 32 := by
  have hquotient : (hashes.length + budget - 1) / budget ≤ max 1 hashes.length := by
    rw [Nat.div_le_iff_le_mul hpos]
    have hmul : max 1 hashes.length * 1 ≤ max 1 hashes.length * budget :=
      Nat.mul_le_mul_left _ hpos
    by_cases hone : hashes.length ≤ 1
    · rw [Nat.max_eq_left hone] at hmul ⊢
      omega
    · rw [Nat.max_eq_right (by omega)] at hmul ⊢
      obtain ⟨n, hn⟩ : ∃ n, hashes.length = n + 1 := ⟨hashes.length - 1, by omega⟩
      rw [hn, Nat.add_mul]
      have hn' := Nat.le_mul_of_pos_right n hpos
      omega
  unfold blocksFor
  omega

theorem route_eq_ok (h : blocks ≤ 2 ^ 32) (hashes : List UInt64) :
    route hashes blocks = .ok (hashes.map (home blocks)) :=
  mapM_eq_ok_map fun hash _ => blockOf_eq_ok hash h

/-- A budget that spreads the hashes is accepted, and any other is reported and passed over. -/
theorem splitHashes_succ (h : hashes.length ≤ 2 ^ 32) (budget : Nat) (last : Load) :
    (Spreads hashes (budget + 1) ∧ splitHashes hashes (budget + 1) last =
        pure (parts (blocksFor hashes.length (budget + 1)) hashes)) ∨
      (¬Spreads hashes (budget + 1) ∧ splitHashes hashes (budget + 1) last =
        Traced.report (.blockOverloaded (budget + 1) (worstLoad hashes (budget + 1)).block
          (worstLoad hashes (budget + 1)).keys) >>= fun _ =>
            splitHashes hashes budget (worstLoad hashes (budget + 1))) := by
  obtain ⟨loads, hloads, hlengths⟩ :=
    countLoads_eq_ok (blocksFor_pos hashes.length (budget + 1)) hashes
  have hworst : fullest loads.toList = worstLoad hashes (budget + 1) := congrArg fullest hlengths
  rw [splitHashes, route_eq_ok (blocksFor_le h (Nat.succ_pos budget)), Traced.lift_ok_bind, hloads,
    Traced.lift_ok_bind]
  dsimp only
  rw [hworst]
  by_cases hspreads : Spreads hashes (budget + 1)
  · rw [if_pos (worstLoad_keys_le_iff.2 hspreads), group_routed]
    exact .inl ⟨hspreads, rfl⟩
  · rw [if_neg (mt worstLoad_keys_le_iff.1 hspreads)]
    exact .inr ⟨hspreads, rfl⟩

/-- Hashes are split under the greatest budget that spreads them. If there is none they are turned
down, and the load that is named is that of the last budget tried. -/
theorem splitHashes_cases (h : hashes.length ≤ 2 ^ 32) (budget : Nat) (last : Load) :
    (∃ k, IsGreatest {k | 0 < k ∧ k ≤ budget ∧ Spreads hashes k} k ∧
        (splitHashes hashes budget last).outcome =
          .ok (parts (blocksFor hashes.length k) hashes)) ∨
      ((∀ k, 0 < k → k ≤ budget → ¬Spreads hashes k) ∧ ∃ worst : Load,
        worst = (if budget = 0 then last else worstLoad hashes 1) ∧
        (splitHashes hashes budget last).outcome =
          refuse (.degenerateSlot worst.block worst.keys)) := by
  induction budget generalizing last with
  | zero => exact .inr ⟨fun k hpos hle => by omega, last, rfl, rfl⟩
  | succ budget ih =>
    rcases splitHashes_succ h budget last with ⟨hspreads, hsplit⟩ | ⟨hover, hsplit⟩
    · rw [hsplit]
      exact .inl ⟨budget + 1, ⟨⟨by omega, le_refl _, hspreads⟩, fun k hk => hk.2.1⟩, rfl⟩
    · rw [hsplit, Traced.outcome_bind, Traced.outcome_report, ok_bind]
      have hlower : ∀ k, k ≤ budget + 1 → Spreads hashes k → k ≤ budget := by
        intro k hle hspreads
        have hother : k ≠ budget + 1 := fun hlast => hover (hlast ▸ hspreads)
        omega
      rcases ih (worstLoad hashes (budget + 1)) with
        ⟨k, ⟨⟨hpos, hle, hspreads⟩, hgreatest⟩, hok⟩ | ⟨hall, worst, hworst, hrefused⟩
      · refine .inl ⟨k, ⟨⟨hpos, by omega, hspreads⟩, fun other hother => ?_⟩, hok⟩
        exact hgreatest ⟨hother.1, hlower other hother.2.1 hother.2.2, hother.2.2⟩
      · refine .inr ⟨fun k hpos hle hspreads => ?_, worst, ?_, hrefused⟩
        · exact hall k hpos (hlower k hle hspreads) hspreads
        · rw [hworst, if_neg (Nat.succ_ne_zero budget)]
          by_cases hone : budget = 0
          · rw [if_pos hone, hone]
          · rw [if_neg hone]

theorem events_splitHashes (h : hashes.length ≤ 2 ^ 32) (budget : Nat) (last : Load) :
    ∀ event ∈ (splitHashes hashes budget last).events,
      ∃ wanted block load, event = .blockOverloaded wanted block load := by
  induction budget generalizing last with
  | zero => exact nofun
  | succ budget ih =>
    rcases splitHashes_succ h budget last with ⟨-, hsplit⟩ | ⟨-, hsplit⟩
    · rw [hsplit]
      exact nofun
    · rw [hsplit, Traced.bind_of_ok _ (Traced.outcome_report _)]
      intro event hevent
      rcases List.mem_append.1 hevent with hfirst | hrest
      · rw [List.mem_singleton.1 hfirst]
        exact ⟨_, _, _, rfl⟩
      · exact ih _ event hrest

/-! ### Splits under a seed -/

/-- Under the seed no budget spreads the hashes of the keys. -/
def Crowded (keys : List UInt64) (seed : UInt64) : Prop :=
  ∀ budget, 0 < budget → budget ≤ firstBudget →
    ¬Spreads (keys.map (Hash.salted · seed)) budget

/-- Keys are split into parts with few hashes unless the seed crowds them. -/
theorem split_cases {keys : List UInt64} (h : keys.length ≤ 2 ^ 32) (seed : UInt64) :
    (¬Crowded keys seed ∧ ∃ blocks, 0 < blocks ∧
        (∀ part ∈ parts blocks (keys.map (Hash.salted · seed)), part.length ≤ maxLoad) ∧
        (split keys seed).outcome = .ok (parts blocks (keys.map (Hash.salted · seed)))) ∨
      (Crowded keys seed ∧ ∃ block load,
        (split keys seed).outcome = refuse (.degenerateSlot block load)) := by
  have hfits : (keys.map (Hash.salted · seed)).length ≤ 2 ^ 32 := by rwa [List.length_map]
  rcases splitHashes_cases hfits firstBudget ⟨0, 0⟩ with
    ⟨budget, ⟨⟨hpos, hle, hspreads⟩, -⟩, hsplit⟩ | ⟨hcrowded, worst, -, hsplit⟩
  · refine .inl ⟨fun hcrowded => hcrowded budget hpos hle hspreads, _, ?_, hspreads, hsplit⟩
    exact blocksFor_pos _ budget
  · exact .inr ⟨hcrowded, worst.block, worst.keys, hsplit⟩

theorem events_split {keys : List UInt64} (h : keys.length ≤ 2 ^ 32) (seed : UInt64) :
    ∀ event ∈ (split keys seed).events,
      ∃ wanted block load, event = .blockOverloaded wanted block load :=
  events_splitHashes (by rwa [List.length_map]) firstBudget ⟨0, 0⟩

end ApproxSet.Blocked
