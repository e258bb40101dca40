import ApproxSet.Proofs.Blocked.Blocks
import ApproxSet.Proofs.Blocked.Loads
import ApproxSet.Proofs.XorSet.Distinct

/-!
# Repeated keys and blocks

Copies of a key have one hash and go to one block, which does not peel under any salt. No block of a
split has as many hashes as a slot may have keys, so its attempts come to an end, and the split
under the first seed leaves a block that is stuck. Then the repeated keys are looked for. Which
block is stuck first does not matter, as all keys are searched.

For the plain and the blocked filters together: repeated keys end a construction at once, and no
other keys are blamed.
-/

namespace ApproxSet

namespace Blocked

open CacheLine Outcome XorSet

variable {hashes : List UInt64} {parts : List (List UInt64)} {solved : List Block}
  {keys : List UInt64} {key : UInt64} {left : Nat}

/-! ### One block -/

/-- A salt under which the hashes of a block peel is the last one that is tried. -/
theorem solveFrom_succ {remainder : Remainder}
    (h : peel hashes blockThird (UInt64.ofNat (saltCount - (left + 1))) = .ok remainder) :
    ((∃ order, remainder = .nothing order) ∧
        ∃ block, solveFrom hashes (left + 1) = .ok (some block)) ∨
      (∃ peeled, remainder = .core peeled) ∧
        solveFrom hashes (left + 1) = solveFrom hashes left := by
  rw [solveFrom, h, ok_bind]
  cases remainder with
  | core peeled => exact .inr ⟨⟨peeled, rfl⟩, rfl⟩
  | nothing order =>
    have hzeros : SlotArray.zeros (3 * blockThird) 8 =
        .ok (Array.replicate (3 * blockThird) (0 : UInt8)) := rfl
    obtain ⟨slots, hsolve, -⟩ :=
      solve_of_peeled (by decide) (by decide) h (LawfulSlots.zeros_shows rfl hzeros)
    refine .inl ⟨⟨order, rfl⟩, ⟨UInt8.ofNat (saltCount - (left + 1)), slots⟩, ?_⟩
    dsimp only
    rw [hzeros, ok_bind, hsolve]
    rfl

/-- Few hashes do not overload a slot. -/
theorem light_of_length_le (h : hashes.length ≤ maxLoad) (third : Nat) (salt : UInt64) :
    Light third salt hashes := by
  intro slot
  have hle : (onSlot third salt slot hashes).length ≤ hashes.length := List.length_filter_le _ _
  have hlimit : maxLoad ≤ degreeLimit := by decide
  omega

/-- A block with few hashes is solved, or it is found that no salt is left. -/
theorem solveFrom_eq_ok (h : hashes.length ≤ maxLoad) (left : Nat) :
    ∃ found, solveFrom hashes left = .ok found := by
  induction left with
  | zero => exact ⟨none, rfl⟩
  | succ left ih =>
    have hthird : 0 < blockThird ∧ blockThird ≤ 2 ^ 32 := by decide
    rcases peel_cases hthird.1 hthird.2 hashes (UInt64.ofNat (saltCount - (left + 1))) with
      ⟨-, remainder, hpeel⟩ | ⟨hheavy, -⟩
    · rcases solveFrom_succ hpeel with ⟨-, block, hblock⟩ | ⟨-, hnext⟩
      · exact ⟨some block, hblock⟩
      · rw [hnext]
        exact ih
    · exact absurd (light_of_length_le h _ _) hheavy

/-- The hashes of a solved block are distinct. -/
theorem nodup_of_solveFrom {block : Block} (h : solveFrom hashes left = .ok (some block)) :
    hashes.Nodup := by
  induction left with
  | zero => cases h
  | succ left ih =>
    obtain ⟨remainder, hpeel, -⟩ := bind_eq_ok_iff.1 h
    rcases solveFrom_succ hpeel with ⟨⟨order, rfl⟩, -⟩ | ⟨-, hnext⟩
    · exact nodup_of_peeled (by decide) hpeel
    · exact ih (hnext ▸ h)

/-! ### All blocks -/

/-- Blocks with few hashes are all solved, or one of them is stuck. -/
theorem assembleFrom_cases (h : ∀ part ∈ parts, part.length ≤ maxLoad) (solved : List Block) :
    (∀ part ∈ parts, part.Nodup) ∨
      ∃ block load, assembleFrom parts solved = .ok (.stuck block load) := by
  induction parts generalizing solved with
  | nil => exact .inl nofun
  | cons part parts ih =>
    rw [List.forall_mem_cons] at h
    obtain ⟨found, hfound⟩ := solveFrom_eq_ok h.1 saltCount
    rw [assembleFrom, solve, hfound, ok_bind]
    cases found with
    | none => exact .inr ⟨_, _, rfl⟩
    | some block =>
      rcases ih h.2 (block :: solved) with hrest | hstuck
      · exact .inl (List.forall_mem_cons.2 ⟨nodup_of_solveFrom hfound, hrest⟩)
      · exact .inr hstuck

/-- Copies of a hash go to one part. -/
theorem nodup_of_parts {blocks : Nat} (hpos : 0 < blocks)
    (h : ∀ part ∈ Blocked.parts blocks hashes, part.Nodup) : hashes.Nodup := by
  rw [List.nodup_iff_count_le_one]
  intro hash
  have hpart : hashes.filter (home blocks · == home blocks hash) ∈ Blocked.parts blocks hashes :=
    List.mem_of_getElem? (getElem?_parts (home_lt hash hpos))
  have honce := List.nodup_iff_count_le_one.1 (h _ hpart) hash
  rwa [List.count_filter (p := (home blocks · == home blocks hash)) (beq_self_eq_true _)] at honce

/-! ### Constructions from repeated keys -/

/-- The first seed is the last one. -/
theorem search_of_repeated (hlength : keys.length ≤ 2 ^ 32) (h : SmallestRepeated keys key)
    (room : Nat) (seed : UInt64) :
    EndsAtOnce (search keys seed (room + 1) seed) key (Crowded keys seed) := by
  have hevents : ∀ event ∈ (split keys seed).events, event.isRetry = false := by
    intro event hevent
    obtain ⟨budget, block, load, rfl⟩ := events_split hlength seed event hevent
    rfl
  rw [search]
  rcases split_cases hlength seed with
    ⟨hroomy, blocks, hpos, hsmall, hsplit⟩ | ⟨hcrowded, block, load, hsplit⟩
  · rcases assembleFrom_cases hsmall [] with hnodup | ⟨block, load, hstuck⟩
    · exact absurd ((nodup_of_parts hpos hnodup).of_map _) h.not_nodup
    · rw [Traced.bind_of_ok _ hsplit, assemble, hstuck, Traced.lift_ok_bind, demandDistinctIf,
        if_pos rfl, demandDistinct_of_repeated h]
      refine ⟨fun _ => rfl, fun hcrowded => absurd hcrowded hroomy, fun event hevent => ?_⟩
      exact hevents event ((List.append_nil _).subst hevent)
  · rw [Traced.bind_of_error _ hsplit]
    exact ⟨fun hroomy => absurd hcrowded hroomy, fun _ => ⟨block, load, rfl⟩, hevents⟩

theorem build_of_repeated (hlength : keys.length ≤ 2 ^ 32) (h : SmallestRepeated keys key)
    (machine : Machine) (s : Settings) :
    EndsAtOnce (build machine s keys) key (Crowded keys s.seed) := by
  have hroom : seedRoom = 2 ^ 64 - 1 + 1 := rfl
  rw [build, hroom]
  exact (search_of_repeated hlength h (2 ^ 64 - 1) s.seed).bind _

/-! ### What constructions are turned down for -/

theorem refusedFor_splitHashes (hashes : List UInt64) (budget : Nat) (last : Load) :
    RefusedFor Refusal.SparesArguments (splitHashes hashes budget last).outcome := by
  have hcount : ∀ loads block,
      RefusedFor Refusal.SparesArguments (countIn loads block) := by
    intro loads block
    unfold countIn
    split
    · exact .ok _
    · exact .violate _
  induction budget generalizing last with
  | zero => exact .refuse nofun
  | succ budget ih =>
    rw [splitHashes, Traced.outcome_bind, Traced.outcome_lift]
    refine (RefusedFor.mapM (fun hash => Hash.refusedFor_scale _ _) hashes).bind fun routes _ => ?_
    rw [Traced.outcome_bind, Traced.outcome_lift]
    refine (RefusedFor.foldlM hcount routes _).bind fun loads _ => ?_
    dsimp only
    split
    · exact .ok _
    · rw [Traced.outcome_bind, Traced.outcome_report, ok_bind]
      exact ih _

theorem refusedFor_solveFrom (hashes : List UInt64) (left : Nat) :
    RefusedFor Refusal.SparesArguments (solveFrom hashes left) := by
  induction left with
  | zero => exact .ok none
  | succ left ih =>
    cases hpeel : peel hashes blockThird (UInt64.ofNat (saltCount - (left + 1))) with
    | ok remainder =>
      rcases solveFrom_succ hpeel with ⟨-, block, hblock⟩ | ⟨-, hnext⟩
      · rw [hblock]
        exact .ok _
      · rw [hnext]
        exact ih
    | error failure =>
      have hreason := refusedFor_peel hashes blockThird (UInt64.ofNat (saltCount - (left + 1)))
      rw [hpeel] at hreason
      rw [solveFrom, hpeel]
      exact hreason.bind nofun

theorem refusedFor_assembleFrom (parts : List (List UInt64)) (solved : List Block) :
    RefusedFor Refusal.SparesArguments (assembleFrom parts solved) := by
  induction parts generalizing solved with
  | nil => exact .ok _
  | cons part parts ih =>
    refine (refusedFor_solveFrom part saltCount).bind fun found _ => ?_
    cases found with
    | none => exact .ok _
    | some block => exact ih (block :: solved)

theorem refusedFor_search (h : keys.Nodup) (firstSeed : UInt64) (room : Nat) (seed : UInt64) :
    RefusedFor Refusal.SparesArguments (search keys firstSeed room seed).outcome := by
  induction room generalizing seed with
  | zero => exact .violate _
  | succ room ih =>
    rw [search, Traced.outcome_bind]
    refine (refusedFor_splitHashes _ firstBudget ⟨0, 0⟩).bind fun parts _ => ?_
    rw [Traced.outcome_bind, Traced.outcome_lift]
    refine (refusedFor_assembleFrom parts []).bind fun assembly _ => ?_
    cases assembly with
    | complete blocks => exact .ok _
    | stuck block load =>
      simp only [Traced.outcome_bind, Traced.outcome_lift, Traced.outcome_report, ok_bind,
        demandDistinctIf_of_nodup _ h]
      exact ih (seed + 1)

/-! ### Placements are never turned down -/

theorem refusedFor_addTrial {reasons : Refusal → Prop} (window : Nat) (reads : Nat → UInt64)
    (places : List (Fin 64)) (scores : Scores) :
    RefusedFor reasons (addTrial window reads places scores) := by
  induction places generalizing scores with
  | nil => exact .ok scores
  | cons place places ih => exact (Checked.refusedFor_fit _ _).bind fun sum _ => ih _

theorem refusedFor_addTrials {reasons : Refusal → Prop} (settings : RaceSettings)
    (reads : (trial place : Nat) → UInt64) (left : Nat) (scores : Scores) :
    RefusedFor reasons (addTrials settings reads left scores) := by
  induction left generalizing scores with
  | zero => exact .ok scores
  | succ left ih => exact (refusedFor_addTrial _ _ _ scores).bind fun scores _ => ih scores

theorem refusedFor_runRounds {reasons : Refusal → Prop} (settings : RaceSettings) (reads : Reads)
    (left : Nat) (scores : Scores) :
    RefusedFor reasons (runRounds settings reads left scores) := by
  induction left generalizing scores with
  | zero => exact .ok none
  | succ left ih =>
    refine (refusedFor_addTrials _ _ _ scores).bind fun scores _ => ?_
    split
    · exact .ok _
    · exact ih scores

theorem refusedFor_chooseOffset {reasons : Refusal → Prop} (machine : Machine) (size : Nat)
    (placement : Placement) : RefusedFor reasons (chooseOffset machine size placement).outcome := by
  cases placement with
  | fixed offset => exact .ok _
  | aligned => exact .ok _
  | raced settings =>
    rw [chooseOffset, Traced.outcome_bind, Traced.outcome_lift]
    have hfind : ∀ length, RefusedFor reasons (findLine settings machine.reads length) :=
      fun _ => (RefusedFor.require _ _).bind fun _ _ => refusedFor_runRounds _ _ _ _
    refine (hfind _).bind fun found _ => ?_
    cases found with
    | some start => exact .ok _
    | none => exact .ok _

theorem refusedFor_placeBlocks {reasons : Refusal → Prop} (blocks : List Block) (start : Nat)
    (data : Array UInt8) : RefusedFor reasons (placeBlocks blocks start data) := by
  induction blocks generalizing start data with
  | nil => exact .ok data
  | cons block blocks ih => exact (RefusedFor.require _ _).bind fun _ _ => ih _ _

/-- Distinct keys are not blamed. -/
theorem refusedFor_build (h : keys.Nodup) (machine : Machine) (s : Settings) :
    RefusedFor Refusal.SparesArguments (build machine s keys).outcome := by
  rw [build, Traced.outcome_bind]
  refine (refusedFor_search h s.seed seedRoom s.seed).bind fun solution _ => ?_
  rw [Traced.outcome_bind]
  refine (refusedFor_chooseOffset _ _ _).bind fun offset _ => ?_
  rw [Traced.outcome_bind, Traced.outcome_report, ok_bind, Traced.outcome_bind,
    Traced.outcome_lift]
  exact (refusedFor_placeBlocks _ _ _).bind fun data _ => .ok _

end Blocked

/-! ### All kinds of xor filters -/

open Outcome XorSet

/-- For all keys and settings, on any machine. If a key is repeated, each construction ends at its
first attempt and names the smallest repeated key, unless the first table is overloaded: for the
plain filters when a slot has more keys than the limit, for the blocked one when no budget spreads
the keys. If no key is repeated, none of the constructions blames the keys. -/
theorem repeated_keys_and_no_others_are_blamed (s : XorSet.Settings) (b : Blocked.Settings)
    (machine : Blocked.Machine) (keys : List UInt64) :
    ((∃ twice, 2 ≤ keys.count twice) → ∃ key, SmallestRepeated keys key ∧
      (∀ third, thirdFor keys.length = .ok third → third ≤ 2 ^ 32 →
        (0 < s.width ∧ s.width ≤ 32 →
          EndsAtOnce (buildPacked s keys) key (¬Light third s.salt keys)) ∧
        EndsAtOnce (buildBytes s keys) key (¬Light third s.salt keys) ∧
        EndsAtOnce (buildWords s keys) key (¬Light third s.salt keys)) ∧
      (keys.length ≤ 2 ^ 32 →
        EndsAtOnce (Blocked.build machine b keys) key (Blocked.Crowded keys b.seed))) ∧
    (keys.Nodup →
      (0 < s.width ∧ s.width ≤ 32 →
        RefusedFor Refusal.SparesArguments (buildPacked s keys).outcome) ∧
      RefusedFor Refusal.SparesArguments (buildBytes s keys).outcome ∧
      RefusedFor Refusal.SparesArguments (buildWords s keys).outcome ∧
      RefusedFor Refusal.SparesArguments (Blocked.build machine b keys).outcome) := by
  refine ⟨fun ⟨twice, htwice⟩ => ?_, fun hnodup => ⟨fun hwidth => ?_, ?_, ?_, ?_⟩⟩
  · obtain ⟨key, hkey⟩ := exists_smallestRepeated htwice
    refine ⟨key, hkey, fun third hthird hle => ⟨fun hwidth => ?_, ?_, ?_⟩, fun hlength => ?_⟩
    · rw [buildPacked_eq hwidth]
      exact buildTable_of_repeated s s.width hkey hthird hle
    · exact buildTable_of_repeated s 8 hkey hthird hle
    · exact buildTable_of_repeated s 16 hkey hthird hle
    · exact Blocked.build_of_repeated hlength hkey machine b
  · have hadmits : LawfulSlots.Admits PackedArray s.width := ⟨hwidth.1, by omega⟩
    rw [buildPacked_eq hwidth]
    exact refusedFor_buildTable s hnodup hadmits (by omega)
      fun count => PackedArray.refusedFor_zeros count s.width
  · exact refusedFor_buildTable s hnodup rfl (by decide) fun count => .ok _
  · exact refusedFor_buildTable s hnodup rfl (by decide) fun count => .ok _
  · exact Blocked.refusedFor_build hnodup machine b

/-- Two pairs of equal keys: the smaller one is named, with a single attempt allowed and by a
blocked filter. A slot is overloaded by more copies of one key than it may have. -/
theorem four_is_named_and_many_sevens_overload_a_slot :
    (buildPacked { width := 5, maxAttempts := some 1 } [7, 4, 7, 4]).outcome =
        refuse (.invalidArgument (.repeatedKey 4)) ∧
      (Blocked.build ⟨0, 0, 0, fun _ _ _ => 0⟩ { seed := 3 } [7, 4, 7, 4]).outcome =
        refuse (.invalidArgument (.repeatedKey 4)) ∧
      ∃ slot degree, (buildBytes {} (List.replicate 121 7)).outcome =
        refuse (.degenerateSlot slot degree) := by
  obtain ⟨key, hkey, hplain, hblocked⟩ := (repeated_keys_and_no_others_are_blamed
    { width := 5, maxAttempts := some 1 } { seed := 3 } ⟨0, 0, 0, fun _ _ _ => 0⟩ [7, 4, 7, 4]).1
    ⟨7, by decide⟩
  have hfour : smallestRepeated 64 [7, 4, 7, 4] = some 4 := by decide +kernel
  obtain rfl : 4 = key := Option.some.inj
    (hfour.symm.trans (smallestRepeated_eq_some_iff.2 hkey))
  obtain ⟨seven, -, hmany, -⟩ := (repeated_keys_and_no_others_are_blamed {} {}
    ⟨0, 0, 0, fun _ _ _ => 0⟩ (List.replicate 121 7)).1
    ⟨7, by rw [List.count_replicate_self]; decide⟩
  have hthird : thirdFor [(7 : UInt64), 4, 7, 4].length = .ok 2 := by decide +kernel
  have hthird' : thirdFor (List.replicate 121 (7 : UInt64)).length = .ok 50 := by decide +kernel
  have hlight := Blocked.light_of_length_le
    (show [(7 : UInt64), 4, 7, 4].length ≤ Blocked.maxLoad by decide) 2 0
  have hroomy : ¬Blocked.Crowded [7, 4, 7, 4] 3 := by
    intro hcrowded
    refine hcrowded 1 (by decide) (by decide) fun part hpart => ?_
    obtain ⟨block, -, rfl⟩ := List.mem_map.1 hpart
    exact Nat.le_trans (List.length_filter_le _ _) (by decide)
  have hheavy : ¬Light 50 0 (List.replicate 121 7) := by
    intro hlight
    have hslot := hlight (Edge.at (Hash.salted 7 0) 50).first
    exact absurd hslot (by decide +kernel)
  exact ⟨((hplain 2 hthird (by decide)).1 (by decide)).named (not_not.2 hlight),
    (hblocked (by decide)).named hroomy,
    (hmany 50 hthird' (by decide)).2.1.degenerate hheavy⟩

end ApproxSet
