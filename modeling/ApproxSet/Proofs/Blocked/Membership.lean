import ApproxSet.Proofs.Blocked.Placement

/-!
# Blocked filters miss no key, wherever their blocks start

A construction is a search for blocks, which knows nothing of the placement, followed by a
placement, which changes no block. So every key is found at any offset, reads and writes stay within
the buffer, and two filters of the same keys and seed differ in nothing that a query can see.
-/

namespace ApproxSet.Blocked

open CacheLine Outcome

/-! ### Offsets -/

/-- Each way to place the first block chooses an offset within a line. -/
theorem chooseOffset_lt {machine : Machine} {size offset : Nat} {placement : Placement}
    (h : (chooseOffset machine size placement).outcome = .ok offset) : offset < lineSize := by
  have hline : 0 < lineSize := by decide
  cases placement with
  | fixed given =>
    cases h
    exact Nat.mod_lt _ hline
  | aligned =>
    cases h
    split
    · assumption
    · exact hline
  | raced settings =>
    obtain ⟨found, -, h⟩ := Traced.outcome_bind_eq_ok_iff.1 h
    cases found with
    | some start =>
      cases h
      exact Nat.mod_lt _ hline
    | none =>
      obtain ⟨-, -, h⟩ := Traced.outcome_bind_eq_ok_iff.1 h
      cases h
      exact hline

/-! ### Constructions -/

/-- The blocks of a solution fit into their buffer at any offset within a line. -/
theorem placeBlocks_lays {solution : Solution} {keys : List UInt64} {offset : Nat}
    (hholds : solution.Holds keys) (hoffset : offset < lineSize) :
    ∃ data, placeBlocks solution.blocks offset
        (Array.replicate (bufferSize solution.blocks.length) 0) = .ok data ∧
      (Table.mk data offset solution.blocks.length solution.seed).Lays solution := by
  have hfits : offset + solution.blocks.length * lineSize ≤
      (Array.replicate (bufferSize solution.blocks.length) (0 : UInt8)).size := by
    rw [Array.size_replicate, bufferSize]
    omega
  obtain ⟨data, hplace, hsize, -, hread⟩ := placeBlocks_spec hholds.size hfits
  rw [Array.size_replicate] at hsize hfits
  refine ⟨data, hplace, rfl, rfl, hoffset, hsize, fun i b hb => ?_⟩
  have hi : i < solution.blocks.length := (List.getElem?_eq_some_iff.1 hb).1
  have hlength := length_octets (hholds.size b (List.mem_of_getElem? hb))
  have hend : offset + i * lineSize + lineSize ≤ data.size := by
    have hmul : (i + 1) * lineSize ≤ solution.blocks.length * lineSize :=
      Nat.mul_le_mul_right _ hi
    rw [Nat.succ_mul] at hmul
    omega
  have hextract : data.extract (offset + i * lineSize) (offset + i * lineSize + lineSize) =
      b.octets.toArray := by
    apply Array.ext_getElem?
    intro k
    rw [Array.getElem?_extract, Nat.min_eq_left hend, Nat.add_sub_cancel_left]
    by_cases hk : k < lineSize
    · rw [if_pos hk, hread i b hb k hk, List.getElem?_toArray]
    · rw [if_neg hk, List.getElem?_toArray, List.getElem?_eq_none (by omega)]
  rw [Table.line, require_bind _ hend, pure_eq_ok]
  exact congrArg Except.ok hextract

/-- A construction succeeds exactly with a solution and an offset, and lays the solution there. -/
theorem build_spec {machine : Machine} {s : Settings} {keys : List UInt64} {t : Table}
    (h : (build machine s keys).outcome = .ok t) :
    ∃ solution, (search keys s.seed seedRoom s.seed).outcome = .ok solution ∧
      t.Lays solution := by
  obtain ⟨solution, hsearch, h⟩ := Traced.outcome_bind_eq_ok_iff.1 h
  obtain ⟨offset, hchoose, h⟩ := Traced.outcome_bind_eq_ok_iff.1 h
  obtain ⟨-, -, h⟩ := Traced.outcome_bind_eq_ok_iff.1 h
  obtain ⟨data, hdata, h⟩ := Traced.outcome_bind_eq_ok_iff.1 h
  obtain ⟨data', hplace, hlays⟩ :=
    placeBlocks_lays (search_holds hsearch) (chooseOffset_lt hchoose)
  rw [Traced.outcome_lift, hplace, Except.ok.injEq] at hdata
  subst hdata
  cases h
  exact ⟨solution, hsearch, hlays⟩

theorem build_eq_ok {machine : Machine} {s : Settings} {keys : List UInt64}
    {solution : Solution} {offset : Nat}
    (hsearch : (search keys s.seed seedRoom s.seed).outcome = .ok solution)
    (hchoose : (chooseOffset machine (bufferSize solution.blocks.length) s.placement).outcome =
      .ok offset) :
    ∃ t, (build machine s keys).outcome = .ok t ∧ t.offset = offset ∧ t.Lays solution := by
  obtain ⟨data, hplace, hlays⟩ :=
    placeBlocks_lays (search_holds hsearch) (chooseOffset_lt hchoose)
  refine ⟨⟨data, offset, solution.blocks.length, solution.seed⟩, ?_, rfl, hlays⟩
  rw [build, Traced.outcome_bind, hsearch, ok_bind, Traced.outcome_bind, hchoose, ok_bind,
    Traced.outcome_bind, Traced.outcome_report, ok_bind, Traced.outcome_bind, Traced.outcome_lift,
    hplace, ok_bind, Traced.outcome_pure]

/-- A query only ever fails if a hash cannot be mapped onto more than `2 ^ 32` blocks. -/
theorem Solution.answer_eq_ok {solution : Solution} (key : UInt64)
    (h : solution.blocks.length ≤ 2 ^ 32) : ∃ found, solution.answer key = .ok found := by
  rw [Solution.answer, blockOf_eq_ok _ h]
  exact ⟨_, rfl⟩

/-- For all keys, seeds and placements: a finished filter finds each of its keys, the line of each
block lies within the `64 * blocks + 63` octets of the buffer, and queries are answered. Once blocks
are found, they can be placed at whatever offset is chosen. Filters of the same keys and seed answer
all queries alike, however they are placed and whatever machine they were built on. -/
theorem keys_are_found_wherever_placed (keys : List UInt64) (seed : UInt64) :
    (∀ machine placement t, (build machine ⟨placement, seed⟩ keys).outcome = .ok t →
      (∀ key ∈ keys, t.mayContain key = .ok true) ∧
      t.offset < 64 ∧ t.data.size = 64 * t.blocks + 63 ∧
      (∀ block < t.blocks, t.offset + block * 64 + 64 ≤ t.data.size ∧
        ∃ line, t.line block = .ok line ∧ line.size = 64) ∧
      (t.blocks ≤ 2 ^ 32 → ∀ query, ∃ found, t.mayContain query = .ok found)) ∧
    (∀ machine placement solution offset,
      (search keys seed seedRoom seed).outcome = .ok solution →
      (chooseOffset machine (bufferSize solution.blocks.length) placement).outcome = .ok offset →
      ∃ t, (build machine ⟨placement, seed⟩ keys).outcome = .ok t ∧ t.offset = offset) ∧
    (∀ machine machine' placement placement' t t',
      (build machine ⟨placement, seed⟩ keys).outcome = .ok t →
      (build machine' ⟨placement', seed⟩ keys).outcome = .ok t' →
      ∀ query, t.mayContain query = t'.mayContain query) := by
  refine ⟨fun machine placement t h => ?_, fun machine placement solution offset hs hc => ?_,
    fun machine machine' placement placement' t t' h h' query => ?_⟩
  · obtain ⟨solution, hsearch, hlays⟩ := build_spec h
    have hholds := search_holds hsearch
    refine ⟨fun key hkey => ?_, hlays.offset_lt, ?_, fun block hblock => ⟨?_, ?_⟩,
      fun hsmall query => ?_⟩
    · rw [hlays.mayContain_eq hholds, hholds.answer key hkey]
    · have hsize : t.data.size = t.blocks * 64 + 64 - 1 := hlays.size_eq
      omega
    · exact hlays.line_le hblock
    · rw [hlays.blocks_eq] at hblock
      have hget := List.getElem?_eq_getElem hblock
      refine ⟨_, hlays.line_eq block _ hget, ?_⟩
      exact length_octets (hholds.size _ (List.getElem_mem hblock))
    · rw [hlays.mayContain_eq hholds]
      exact Solution.answer_eq_ok query (hlays.blocks_eq ▸ hsmall)
  · obtain ⟨t, hbuild, hoffset, -⟩ := build_eq_ok (s := ⟨placement, seed⟩) hs hc
    exact ⟨t, hbuild, hoffset⟩
  · obtain ⟨solution, hsearch, hlays⟩ := build_spec h
    obtain ⟨solution', hsearch', hlays'⟩ := build_spec h'
    rw [hsearch, Except.ok.injEq] at hsearch'
    subst hsearch'
    have hholds := search_holds hsearch
    rw [hlays.mayContain_eq hholds, hlays'.mayContain_eq hholds]

/-- Three keys are placed at the offset that is left of `69` and at the one that a machine names. -/
theorem three_keys_are_found_at_two_offsets :
    ∃ t t', (build ⟨9, 0, 0, fun _ _ _ => 0⟩ ⟨.fixed 69, 7⟩ [1, 2, 3]).outcome = .ok t ∧
      (build ⟨9, 0, 0, fun _ _ _ => 0⟩ ⟨.aligned, 7⟩ [1, 2, 3]).outcome = .ok t' ∧
      t.offset = 5 ∧ t'.offset = 9 ∧ t.mayContain 2 = .ok true ∧
      ∀ query, t.mayContain query = t'.mayContain query := by
  obtain ⟨solution, hsearch⟩ : ∃ solution, (search [1, 2, 3] 7 seedRoom 7).outcome =
      .ok solution := exists_eq_ok (by decide +kernel)
  obtain ⟨hfound, hplaced, halike⟩ := keys_are_found_wherever_placed [1, 2, 3] 7
  obtain ⟨t, hbuild, hoffset⟩ :=
    hplaced ⟨9, 0, 0, fun _ _ _ => 0⟩ (.fixed 69) solution 5 hsearch rfl
  obtain ⟨t', hbuild', hoffset'⟩ :=
    hplaced ⟨9, 0, 0, fun _ _ _ => 0⟩ .aligned solution 9 hsearch rfl
  have hfound := (hfound _ _ t hbuild).1
  exact ⟨t, t', hbuild, hbuild', hoffset, hoffset', hfound 2 (by decide),
    halike _ _ _ _ t t' hbuild hbuild'⟩

end ApproxSet.Blocked
