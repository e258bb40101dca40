import ApproxSet.Proofs.Blocked.Distinct
import ApproxSet.Proofs.XorSet.Order

/-!
# The order of the keys of a blocked filter

The parts of a split are the same for any order of the keys, up to the order within each part, so
the blocks have the same loads and the same budgets are passed over. A part of a split has too few
hashes to overload a slot. So its mesh is never turned down, it peels alike in any order, and the
whole construction goes through the same seeds to the same filter.

That a slot is degenerate is only ever said of a block that no budget keeps within its load.
-/

namespace ApproxSet.Blocked

open CacheLine Outcome XorSet

variable {hashes hashes' keys keys' : List UInt64} {blocks : Nat}

/-! ### Splits -/

/-- Each part is a rearrangement of the other one, and it has few hashes. -/
def SameParts (parts parts' : List (List UInt64)) : Prop :=
  List.Forall₂ (fun part part' => part.Perm part' ∧ part.length ≤ maxLoad) parts parts'

theorem forall₂_parts {relation : List UInt64 → List UInt64 → Prop}
    (h : ∀ block < blocks, relation (hashes.filter (home blocks · == block))
      (hashes'.filter (home blocks · == block))) :
    List.Forall₂ relation (parts blocks hashes) (parts blocks hashes') := by
  rw [parts, parts, List.forall₂_map_left_iff, List.forall₂_map_right_iff, List.forall₂_same]
  intro block hblock
  exact h block (List.mem_range.1 hblock)

theorem lengths_parts_perm (hperm : hashes.Perm hashes') (blocks : Nat) :
    (parts blocks hashes).map List.length = (parts blocks hashes').map List.length := by
  simp [parts, (hperm.filter _).length_eq]

/-- The same budgets are passed over, for the same blocks. -/
theorem splitHashes_agree (hperm : hashes.Perm hashes') (h : hashes.length ≤ 2 ^ 32)
    (budget : Nat) (last : Load) :
    Traced.Agree SameParts (splitHashes hashes budget last) (splitHashes hashes' budget last) := by
  induction budget generalizing last with
  | zero => exact ⟨rfl, .failure rfl⟩
  | succ budget ih =>
    have hblocks := blocksFor_le h (Nat.succ_pos budget)
    have hpos := blocksFor_pos hashes.length (budget + 1)
    obtain ⟨loads, hloads, hlengths⟩ := countLoads_eq_ok hpos hashes
    obtain ⟨loads', hloads', hlengths'⟩ := countLoads_eq_ok hpos hashes'
    have hsame : loads.toList = loads'.toList := by
      rw [hlengths, hlengths', lengths_parts_perm hperm]
    rw [splitHashes, splitHashes, ← hperm.length_eq, route_eq_ok hblocks, route_eq_ok hblocks,
      Traced.lift_ok_bind, Traced.lift_ok_bind, hloads, hloads', Traced.lift_ok_bind,
      Traced.lift_ok_bind, ← hsame, group_routed, group_routed]
    dsimp only
    split
    -- Both lists have the same loads, so they fit under the same budget.
    case isTrue hfits =>
      refine ⟨rfl, .answer (forall₂_parts fun block hblock => ⟨hperm.filter _, ?_⟩)⟩
      rw [fullest_keys_le_iff, hlengths, List.forall_mem_map] at hfits
      exact hfits _ (List.mem_of_getElem? (getElem?_parts hblock))
    case isFalse hover => exact (Traced.agree_refl _).bind fun _ _ _ => ih _

theorem split_agree (hperm : keys.Perm keys') (h : keys.length ≤ 2 ^ 32) (seed : UInt64) :
    Traced.Agree SameParts (split keys seed) (split keys' seed) :=
  splitHashes_agree (hperm.map _) (by rwa [List.length_map]) firstBudget ⟨0, 0⟩

/-! ### Blocks -/

/-- Few hashes peel, or leave a core, under each salt. -/
theorem peel_eq_ok (h : hashes.length ≤ maxLoad) (salt : UInt64) :
    ∃ remainder, peel hashes blockThird salt = .ok remainder := by
  rcases peel_cases (show 0 < blockThird by decide) (by decide) hashes salt with
    ⟨-, hpeel⟩ | ⟨hheavy, -⟩
  · exact hpeel
  · exact absurd (light_of_length_le h blockThird salt) hheavy

theorem solveFrom_perm (hperm : hashes.Perm hashes') (h : hashes.length ≤ maxLoad) (left : Nat) :
    solveFrom hashes left = solveFrom hashes' left := by
  induction left with
  | zero => rfl
  | succ left ih =>
    rw [solveFrom, solveFrom, ih,
      peel_perm (by decide) (by decide) hperm (light_of_length_le h blockThird _)]

theorem assembleFrom_congr {parts parts' : List (List UInt64)} (h : SameParts parts parts')
    (solved : List Block) : assembleFrom parts solved = assembleFrom parts' solved := by
  induction h generalizing solved with
  | nil => rfl
  | cons hpart hparts ih =>
    rw [assembleFrom, assembleFrom, solve, solve, solveFrom_perm hpart.1 hpart.2,
      hpart.1.length_eq]
    simp only [ih]

/-- Blocks with few hashes are solved as far as they peel. -/
theorem assembleFrom_eq_ok {parts : List (List UInt64)}
    (h : ∀ part ∈ parts, part.length ≤ maxLoad) (solved : List Block) :
    ∃ assembly, assembleFrom parts solved = .ok assembly := by
  induction parts generalizing solved with
  | nil => exact ⟨_, rfl⟩
  | cons part parts ih =>
    rw [List.forall_mem_cons] at h
    obtain ⟨found, hfound⟩ := solveFrom_eq_ok h.1 saltCount
    rw [assembleFrom, solve, hfound, ok_bind]
    cases found with
    | none => exact ⟨_, rfl⟩
    | some block => exact ih h.2 _

/-! ### Seeds -/

/-- The searches go through the same seeds. -/
theorem search_perm (hperm : keys.Perm keys') (h : keys.length ≤ 2 ^ 32) (firstSeed : UInt64)
    (room : Nat) (seed : UInt64) :
    search keys firstSeed room seed = search keys' firstSeed room seed := by
  refine Traced.Agree.eq ?_
  induction room generalizing seed with
  | zero => exact Traced.agree_refl _
  | succ room ih =>
    rw [search, search]
    refine (split_agree hperm h seed).bind fun parts parts' hparts => ?_
    rw [assemble, assemble, assembleFrom_congr hparts, demandDistinctIf_perm _ hperm]
    refine (Traced.agree_refl _).bind fun assembly _ hassembly => ?_
    subst hassembly
    cases assembly with
    | complete blocks => exact Traced.agree_refl _
    | stuck block load =>
      refine (Traced.agree_refl _).bind fun _ _ _ => ?_
      exact (Traced.agree_refl _).bind fun _ _ _ => ih (seed + 1)

/-- The reason is no degenerate slot, or it is the one for which a split was turned down, under a
seed that crowds the keys. -/
def FromSplit (keys : List UInt64) (reason : Refusal) : Prop :=
  ∀ block load, reason = .degenerateSlot block load →
    ∃ seed, Crowded keys seed ∧ (split keys seed).outcome = refuse (.degenerateSlot block load)

/-- After a split, nothing turns the keys down but a repeated key. -/
theorem refusedFor_search_fromSplit (h : keys.length ≤ 2 ^ 32) (firstSeed : UInt64) (room : Nat)
    (seed : UInt64) : RefusedFor (FromSplit keys) (search keys firstSeed room seed).outcome := by
  induction room generalizing seed with
  | zero => exact .violate _
  | succ room ih =>
    rw [search, Traced.outcome_bind]
    rcases split_cases h seed with
      ⟨-, blocks, -, hsmall, hsplit⟩ | ⟨hcrowded, block, load, hsplit⟩
    · obtain ⟨assembly, hassembly⟩ := assembleFrom_eq_ok hsmall []
      rw [hsplit, ok_bind, Traced.outcome_bind, Traced.outcome_lift, assemble, hassembly, ok_bind]
      cases assembly with
      | complete blocks => exact .ok _
      | stuck block load =>
        simp only [Traced.outcome_bind, Traced.outcome_lift, Traced.outcome_report]
        rcases demandDistinctIf_cases (seed = firstSeed) keys with
          ⟨-, hok⟩ | ⟨-, key, -, hrefused⟩
        · rw [hok, ok_bind, ok_bind]
          exact ih (seed + 1)
        · rw [hrefused]
          show RefusedFor (FromSplit keys) _
          exact .refuse fun block load => Refusal.noConfusion
    · rw [hsplit]
      show RefusedFor (FromSplit keys) _
      refine .refuse fun block' load' hsame => ?_
      rw [← hsame]
      exact ⟨seed, hcrowded, hsplit⟩

theorem refusedFor_build_fromSplit (h : keys.length ≤ 2 ^ 32) (machine : Machine) (s : Settings) :
    RefusedFor (FromSplit keys) (build machine s keys).outcome := by
  rw [build, Traced.outcome_bind]
  refine (refusedFor_search_fromSplit h s.seed seedRoom s.seed).bind fun solution _ => ?_
  rw [Traced.outcome_bind]
  refine (refusedFor_chooseOffset _ _ _).bind fun offset _ => ?_
  rw [Traced.outcome_bind, Traced.outcome_report, ok_bind, Traced.outcome_bind,
    Traced.outcome_lift]
  exact (refusedFor_placeBlocks _ _ _).bind fun data _ => .ok _

/-! ### The construction -/

/-- On any machine and for all settings, keys in another order make the very same filter, or they
end in the same failure, after the same events. No part of a split is turned down when it is peeled
under any salt, so a block that is called degenerate is one that no budget relieved of its load. -/
theorem order_of_keys_leaves_no_trace (machine : Machine) (s : Settings) (hperm : keys.Perm keys')
    (hlength : keys.length ≤ 2 ^ 32) :
    build machine s keys = build machine s keys' ∧
    (∀ seed parts, (split keys seed).outcome = .ok parts →
      ∀ part ∈ parts, ∀ salt, ∃ remainder, peel part blockThird salt = .ok remainder) ∧
    ∀ block load, (build machine s keys).outcome = refuse (.degenerateSlot block load) →
      ∃ seed, Crowded keys seed ∧
        (split keys seed).outcome = refuse (.degenerateSlot block load) := by
  refine ⟨?_, fun seed parts hparts part hpart salt => ?_, fun block load hrefused => ?_⟩
  · rw [build, build, search_perm hperm hlength, hperm.length_eq]
  · rcases split_cases hlength seed with ⟨-, blocks, -, hsmall, hsplit⟩ | ⟨-, block, load, hsplit⟩
    · rw [hsplit] at hparts
      cases hparts
      exact peel_eq_ok (hsmall part hpart) salt
    · rw [hsplit] at hparts
      cases hparts
  · exact refusedFor_build_fromSplit hlength machine s _ hrefused block load rfl

/-- Three keys in two orders; and a block with fifty-one copies of a key, which is called degenerate
in either order, for no other reason than its load. -/
theorem seven_crowds_in_either_order :
    (∃ t, (build ⟨9, 0, 0, fun _ _ _ => 0⟩ ⟨.fixed 69, 7⟩ [1, 2, 3]).outcome = .ok t ∧
      (build ⟨9, 0, 0, fun _ _ _ => 0⟩ ⟨.fixed 69, 7⟩ [3, 1, 2]).outcome = .ok t) ∧
    ((build ⟨9, 0, 0, fun _ _ _ => 0⟩ ⟨.fixed 69, 7⟩ (4 :: List.replicate 51 7)).outcome =
        refuse (.degenerateSlot 24 51) ∧
      (build ⟨9, 0, 0, fun _ _ _ => 0⟩ ⟨.fixed 69, 7⟩ (List.replicate 51 7 ++ [4])).outcome =
        refuse (.degenerateSlot 24 51) ∧
      ∃ seed, Crowded (4 :: List.replicate 51 7) seed) := by
  have hthree := (order_of_keys_leaves_no_trace ⟨9, 0, 0, fun _ _ _ => 0⟩ ⟨.fixed 69, 7⟩
    (show [(1 : UInt64), 2, 3].Perm [3, 1, 2] by decide) (by decide)).1
  obtain ⟨hmany, -, hdegenerate⟩ := order_of_keys_leaves_no_trace ⟨9, 0, 0, fun _ _ _ => 0⟩
    ⟨.fixed 69, 7⟩ (List.perm_append_singleton (4 : UInt64) (List.replicate 51 7)).symm (by decide)
  obtain ⟨t, ht⟩ : ∃ t, (build ⟨9, 0, 0, fun _ _ _ => 0⟩ ⟨.fixed 69, 7⟩ [1, 2, 3]).outcome =
      .ok t := exists_eq_ok (by decide +kernel)
  have hrefused : (build ⟨9, 0, 0, fun _ _ _ => 0⟩ ⟨.fixed 69, 7⟩
      (4 :: List.replicate 51 7)).outcome = refuse (.degenerateSlot 24 51) := by decide +kernel
  obtain ⟨seed, hcrowded, -⟩ := hdegenerate 24 51 hrefused
  exact ⟨⟨t, ht, hthree ▸ ht⟩, hrefused, hmany ▸ hrefused, seed, hcrowded⟩

end ApproxSet.Blocked
