import ApproxSet.Proofs.Blocked.Blocks

/-!
# Blocks in a buffer

Blocks that are written behind each other can be read back one by one, at any offset below the size
of a line: the buffer is long enough for each of them, and no block touches another. A query on such
a buffer is therefore answered as by the blocks alone.
-/

namespace ApproxSet.Blocked

open CacheLine Outcome XorSet

/-! ### Writing -/

theorem size_writeOctets (octets : List UInt8) (start : Nat) (data : Array UInt8) :
    (writeOctets octets start data).size = data.size := by
  induction octets generalizing start data with
  | nil => rfl
  | cons octet octets ih => rw [writeOctets, ih, Array.size_setIfInBounds]

theorem getElem?_writeOctets {octets : List UInt8} {start : Nat} {data : Array UInt8}
    (h : start + octets.length ≤ data.size) (i : Nat) :
    (writeOctets octets start data)[i]? =
      if start ≤ i ∧ i < start + octets.length then octets[i - start]? else data[i]? := by
  induction octets generalizing start data with
  | nil =>
    rw [List.length_nil, if_neg (by omega)]
    rfl
  | cons octet octets ih =>
    rw [List.length_cons] at h
    rw [writeOctets, ih (by rw [Array.size_setIfInBounds]; omega), List.length_cons,
      Array.getElem?_setIfInBounds]
    by_cases hlater : start + 1 ≤ i ∧ i < start + 1 + octets.length
    · rw [if_pos hlater, if_pos (by omega), show i - start = i - (start + 1) + 1 by omega,
        List.getElem?_cons_succ]
    · rw [if_neg hlater]
      by_cases hhere : start = i
      · rw [if_pos hhere, if_pos (by omega), if_pos (by omega), ← hhere, Nat.sub_self,
          List.getElem?_cons_zero]
      · rw [if_neg hhere, if_neg (by omega)]

theorem length_octets {b : Block} (h : b.slots.size = 3 * blockThird) :
    b.octets.length = lineSize := by
  rw [Block.octets, List.length_cons, Array.length_toList, h]
  rfl

/-- Writing blocks that fit in succeeds. The octets before the first block stay, and each block can
be read at its place. -/
theorem placeBlocks_spec {blocks : List Block} {start : Nat} {data : Array UInt8}
    (hsize : ∀ b ∈ blocks, b.slots.size = 3 * blockThird)
    (hfits : start + blocks.length * lineSize ≤ data.size) :
    ∃ result, placeBlocks blocks start data = .ok result ∧ result.size = data.size ∧
      (∀ i < start, result[i]? = data[i]?) ∧
      ∀ i b, blocks[i]? = some b → ∀ k < lineSize,
        result[start + i * lineSize + k]? = b.octets[k]? := by
  induction blocks generalizing start data with
  | nil => exact ⟨data, rfl, rfl, fun _ _ => rfl, by simp⟩
  | cons block blocks ih =>
    rw [List.length_cons, Nat.succ_mul] at hfits
    have hlength := length_octets (hsize block (by simp))
    have hwritten := size_writeOctets block.octets start data
    have hrest : start + lineSize + blocks.length * lineSize ≤
        (writeOctets block.octets start data).size := by omega
    obtain ⟨result, hplace, hresult, hbefore, hblocks⟩ :=
      ih (fun b hb => hsize b (by simp [hb])) hrest
    refine ⟨result, ?_, hresult.trans hwritten, fun i hi => ?_, fun i b hb k hk => ?_⟩
    · rw [placeBlocks, require_bind _ (by omega), hplace]
    · rw [hbefore i (by omega), getElem?_writeOctets (by omega), if_neg (by omega)]
    · cases i with
      | zero =>
        rw [List.getElem?_cons_zero, Option.some.injEq] at hb
        subst hb
        rw [Nat.zero_mul, Nat.add_zero, hbefore _ (by omega), getElem?_writeOctets (by omega),
          if_pos (by omega), Nat.add_sub_cancel_left]
      | succ i =>
        rw [List.getElem?_cons_succ] at hb
        rw [← hblocks i b hb k hk, Nat.succ_mul]
        congr 1
        omega

/-! ### Reading -/

namespace Table

/-- A table that holds the blocks of a solution, each in a line of its own. -/
structure Lays (t : Table) (solution : Solution) : Prop where
  seed_eq : t.seed = solution.seed
  blocks_eq : t.blocks = solution.blocks.length
  offset_lt : t.offset < lineSize
  size_eq : t.data.size = bufferSize t.blocks
  line_eq : ∀ i b, solution.blocks[i]? = some b → t.line i = .ok b.octets.toArray

variable {t : Table} {solution : Solution} {keys : List UInt64}

/-- Every line of a block lies within the buffer. -/
theorem Lays.line_le (h : t.Lays solution) {i : Nat} (hi : i < t.blocks) :
    t.offset + i * lineSize + lineSize ≤ t.data.size := by
  have hoffset := h.offset_lt
  have hmul : (i + 1) * lineSize ≤ t.blocks * lineSize := Nat.mul_le_mul_right _ hi
  rw [Nat.succ_mul] at hmul
  rw [h.size_eq, bufferSize]
  omega

theorem slot_octets (b : Block) :
    SlotArray.slot b.octets.toArray 0 = .ok b.salt.toUInt64 := rfl

theorem extract_octets {b : Block} (h : b.slots.size = 3 * blockThird) :
    b.octets.toArray.extract 1 lineSize = b.slots := by
  have hsize : b.octets.toArray.size = lineSize := length_octets h
  apply Array.ext
  · rw [Array.size_extract, hsize, h]
    rfl
  · intro i hi hi'
    rw [Array.getElem_extract, List.getElem_toArray]
    simp only [Block.octets, Nat.add_comm 1 i, List.getElem_cons_succ, Array.getElem_toList]

/-- A block that is read from its line accepts a hash as the block itself does. -/
theorem residue_octets {b : Block} (h : b.slots.size = 3 * blockThird) (hash : UInt64) :
    (do
      let edge ← Edge.of hash blockThird
      let rest ← residue (b.octets.toArray.extract 1 lineSize) edge (fingerprint hash 0xff)
      return rest == 0 : Outcome Bool) =
      .ok (fingerprint hash 0xff ^^^ (Edge.at hash blockThird).total b.value == 0) := by
  have hpos : 0 < blockThird := by decide
  rw [extract_octets h, Edge.of_eq_ok hash hpos (by decide), ok_bind,
    residue_eq_ok (Block.shows_value h) (Edge.slots_lt hpos hash), ok_bind, pure_eq_ok]

/-- Queries are answered by the blocks, whatever their offset. -/
theorem Lays.mayContain_eq (h : t.Lays solution) (hholds : solution.Holds keys) (key : UInt64) :
    t.mayContain key = solution.answer key := by
  rw [mayContain, Solution.answer, h.seed_eq, h.blocks_eq]
  cases hblock : blockOf (Hash.salted key solution.seed) solution.blocks.length with
  | error failure => rfl
  | ok i =>
    have hi : i < solution.blocks.length := by
      rw [blockOf_eq_home hblock]
      exact home_lt _ hholds.pos
    have hget : solution.blocks[i]? = some solution.blocks[i] := List.getElem?_eq_getElem hi
    have hsize := hholds.size solution.blocks[i] (List.getElem_mem hi)
    rw [ok_bind, ok_bind, h.line_eq i _ hget, ok_bind, slot_octets, ok_bind, hget, Option.any_some]
    exact residue_octets hsize _

end Table

end ApproxSet.Blocked
