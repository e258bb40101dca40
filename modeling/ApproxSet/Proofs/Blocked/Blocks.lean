import ApproxSet.Blocked.Filter
import ApproxSet.Proofs.Blocked.Splitting
import ApproxSet.Proofs.XorSet.Solving
import Mathlib.Data.List.Forall2

/-!
# Solved blocks

A block that was solved for some hashes accepts each of them, under whichever of its salts they
peeled. Solving all parts of a split in order keeps this for every block and its part, so a search
for a seed ends with one block for each part, each of which accepts the hashes routed to it.
-/

namespace ApproxSet.Blocked

open Outcome XorSet

/-! ### One block -/

namespace Block

/-- The value of a slot, and zero behind the last slot. -/
def value (b : Block) (index : Nat) : UInt64 :=
  (b.slots.getD index 0).toUInt64

/-- Whether the slots of a block combine to the fingerprint of a hash that was routed to it. -/
def accepts (b : Block) (hash : UInt64) : Bool :=
  let hash := Hash.salted hash b.salt.toUInt64
  fingerprint hash 0xff ^^^ (Edge.at hash blockThird).total b.value == 0

/-- A block with all of its slots that accepts the given hashes. -/
structure Solves (b : Block) (hashes : List UInt64) : Prop where
  size : b.slots.size = 3 * blockThird
  accepts : ∀ hash ∈ hashes, b.accepts hash = true

theorem shows_value {b : Block} (h : b.slots.size = 3 * blockThird) :
    LawfulSlots.Shows b.slots (3 * blockThird) 8 b.value := by
  refine ⟨rfl, h, fun i hi => ?_⟩
  rw [value, Array.getD, dif_pos hi]
  rfl

end Block

/-- Slots that show the solution of a peeling order accept all of its keys. -/
theorem Block.solves_of_peeled {hashes : List UInt64} {salt : UInt8} {slots : Array UInt8}
    {order : List Peeled}
    (hpeel : peel hashes blockThird salt.toUInt64 = .ok (.nothing order))
    (hshows : LawfulSlots.Shows slots (3 * blockThird) 8
      (solution blockThird salt.toUInt64 (Bits.mask 8) order)) :
    (Block.mk salt slots).Solves hashes := by
  have hpos : 0 < blockThird := by decide
  obtain ⟨-, hsize, hvalue⟩ := hshows
  refine ⟨hsize, fun hash hmem => ?_⟩
  have hsame : (Edge.at (Hash.salted hash salt.toUInt64) blockThird).total
        (Block.mk salt slots).value =
      (Edge.at (Hash.salted hash salt.toUInt64) blockThird).total
        (solution blockThird salt.toUInt64 (Bits.mask 8) order) := by
    refine Edge.total_congr fun slot hslot => ?_
    have hlt : slot < slots.size := by
      rw [hsize]
      exact Edge.slots_lt hpos _ slot hslot
    rw [← hvalue slot hlt, Block.value, Array.getD, dif_pos hlt]
    rfl
  rw [Block.accepts, beq_iff_eq]
  show fingerprint (Hash.salted hash salt.toUInt64) 0xff ^^^ Edge.total _ _ = 0
  rw [hsame, solution_of_peeled hpos (Bits.mask 8) hpeel hash hmem]
  exact UInt64.xor_self

/-- The salts of a block fit into an octet. -/
theorem toUInt64_salt {salt : Nat} (h : salt < saltCount) :
    (UInt8.ofNat salt).toUInt64 = UInt64.ofNat salt := by
  have hlt : salt < 256 := h
  apply UInt64.toNat_inj.1
  rw [UInt8.toNat_toUInt64, UInt8.toNat_ofNat', UInt64.toNat_ofNat', Nat.mod_eq_of_lt (by omega),
    Nat.mod_eq_of_lt (by omega)]

/-- The present salt is taken if the hashes peel under it, and otherwise the next one is tried. -/
theorem solveFrom_succ_eq_ok {hashes : List UInt64} {left : Nat} {found : Option Block}
    (hleft : left + 1 ≤ saltCount) (h : solveFrom hashes (left + 1) = .ok found) :
    (∃ order block,
        peel hashes blockThird (UInt64.ofNat (saltCount - (left + 1))) = .ok (.nothing order) ∧
        found = some block ∧ block.salt = UInt8.ofNat (saltCount - (left + 1)) ∧
        block.Solves hashes) ∨
      (∃ peeled,
          peel hashes blockThird (UInt64.ofNat (saltCount - (left + 1))) = .ok (.core peeled)) ∧
        solveFrom hashes left = .ok found := by
  obtain ⟨remainder, hpeel, h⟩ := bind_eq_ok_iff.1 h
  cases remainder with
  | core peeled => exact .inr ⟨⟨peeled, hpeel⟩, h⟩
  | nothing order =>
    obtain ⟨empty, hempty, h⟩ := bind_eq_ok_iff.1 h
    obtain ⟨slots, hslots, h⟩ := bind_eq_ok_iff.1 h
    cases h
    refine .inl ⟨order, _, hpeel, rfl, rfl, ?_⟩
    rw [← toUInt64_salt (by omega)] at hpeel hslots
    have hzeros : LawfulSlots.Shows empty (3 * blockThird) 8 fun _ => 0 :=
      LawfulSlots.zeros_shows rfl hempty
    obtain ⟨slots', hsolve, hshows⟩ := solve_of_peeled (by decide) (by omega) hpeel hzeros
    rw [hsolve, Except.ok.injEq] at hslots
    subst hslots
    exact Block.solves_of_peeled hpeel hshows

theorem solveFrom_spec {hashes : List UInt64} {left : Nat} {block : Block}
    (hleft : left ≤ saltCount) (h : solveFrom hashes left = .ok (some block)) :
    block.Solves hashes := by
  induction left with
  | zero => cases h
  | succ left ih =>
    rcases solveFrom_succ_eq_ok hleft h with ⟨order, found, -, hfound, -, hsolves⟩ | ⟨-, hnext⟩
    · cases hfound
      exact hsolves
    · exact ih (by omega) hnext

theorem solve_spec {hashes : List UInt64} {block : Block}
    (h : solve hashes = .ok (some block)) : block.Solves hashes :=
  solveFrom_spec (Nat.le_refl _) h

/-! ### All blocks -/

theorem assembleFrom_spec {parts : List (List UInt64)} {solved blocks : List Block}
    (h : assembleFrom parts solved = .ok (.complete blocks)) :
    ∃ rest, blocks = solved.reverse ++ rest ∧
      List.Forall₂ (fun block hashes => solve hashes = .ok (some block)) rest parts := by
  induction parts generalizing solved with
  | nil =>
    cases h
    exact ⟨[], (List.append_nil _).symm, .nil⟩
  | cons hashes parts ih =>
    obtain ⟨found, hfound, h⟩ := bind_eq_ok_iff.1 h
    cases found with
    | none => cases h
    | some block =>
      obtain ⟨rest, rfl, hrest⟩ := ih h
      refine ⟨block :: rest, ?_, .cons hfound hrest⟩
      rw [List.reverse_cons, List.append_assoc, List.singleton_append]

/-- The blocks are those of the parts, one after the other. -/
theorem solve_of_assemble {parts : List (List UInt64)} {blocks : List Block}
    (h : assemble parts = .ok (.complete blocks)) :
    List.Forall₂ (fun block hashes => solve hashes = .ok (some block)) blocks parts := by
  obtain ⟨rest, rfl, hrest⟩ := assembleFrom_spec h
  exact hrest

theorem assemble_spec {parts : List (List UInt64)} {blocks : List Block}
    (h : assemble parts = .ok (.complete blocks)) : List.Forall₂ Block.Solves blocks parts :=
  (solve_of_assemble h).imp fun _ _ => solve_spec

/-- A search that succeeds does so under the present seed, or it goes on to the next one. -/
theorem search_succ_eq_ok {keys : List UInt64} {firstSeed seed : UInt64} {room : Nat}
    {solution : Solution} (h : (search keys firstSeed (room + 1) seed).outcome = .ok solution) :
    ∃ parts, (split keys seed).outcome = .ok parts ∧
      (solution.seed = seed ∧ assemble parts = .ok (.complete solution.blocks) ∨
        (∃ block load, assemble parts = .ok (.stuck block load)) ∧
          demandDistinctIf (seed = firstSeed) keys = .ok () ∧
          (search keys firstSeed room (seed + 1)).outcome = .ok solution) := by
  rw [search, Traced.outcome_bind_eq_ok_iff] at h
  obtain ⟨parts, hparts, h⟩ := h
  obtain ⟨assembly, hassembly, h⟩ := Traced.outcome_bind_eq_ok_iff.1 h
  refine ⟨parts, hparts, ?_⟩
  cases assembly with
  | complete blocks =>
    cases h
    exact .inl ⟨rfl, hassembly⟩
  | stuck block load =>
    obtain ⟨⟨⟩, hdistinct, h⟩ := Traced.outcome_bind_eq_ok_iff.1 h
    obtain ⟨-, -, h⟩ := Traced.outcome_bind_eq_ok_iff.1 h
    exact .inr ⟨⟨block, load, hassembly⟩, hdistinct, h⟩

/-- The search ends with a seed under which the keys split into parts that were solved. -/
theorem search_spec {keys : List UInt64} {firstSeed seed : UInt64} {room : Nat}
    {solution : Solution} (h : (search keys firstSeed room seed).outcome = .ok solution) :
    ∃ parts, (split keys solution.seed).outcome = .ok parts ∧
      assemble parts = .ok (.complete solution.blocks) := by
  induction room generalizing seed with
  | zero => exact absurd h violate_ne_ok
  | succ room ih =>
    obtain ⟨parts, hparts, ⟨rfl, hcomplete⟩ | ⟨-, -, hnext⟩⟩ := search_succ_eq_ok h
    · exact ⟨parts, hparts, hcomplete⟩
    · exact ih hnext

/-! ### Answers before any placement -/

namespace Solution

/-- The answer to a query by the blocks alone, wherever they may be placed later. -/
def answer (solution : Solution) (key : UInt64) : Outcome Bool := do
  let hash := Hash.salted key solution.seed
  let block ← blockOf hash solution.blocks.length
  return solution.blocks[block]?.any fun b => b.accepts hash

/-- What a search finds: blocks with all of their slots that accept every key. -/
structure Holds (solution : Solution) (keys : List UInt64) : Prop where
  pos : 0 < solution.blocks.length
  size : ∀ b ∈ solution.blocks, b.slots.size = 3 * blockThird
  answer : ∀ key ∈ keys, solution.answer key = .ok true

end Solution

theorem search_holds {keys : List UInt64} {firstSeed seed : UInt64} {room : Nat}
    {solution : Solution} (h : (search keys firstSeed room seed).outcome = .ok solution) :
    solution.Holds keys := by
  obtain ⟨found, hsplit, hassemble⟩ := search_spec h
  obtain ⟨blocks, hpos, rfl, hknown⟩ := split_spec hsplit
  have hsolves := assemble_spec hassemble
  have hlength : solution.blocks.length = blocks := hsolves.length_eq.trans (length_parts _ _)
  refine ⟨by omega, fun b hb => ?_, fun key hkey => ?_⟩
  · obtain ⟨i, hi, rfl⟩ := List.getElem_of_mem hb
    exact (hsolves.get hi (hsolves.length_eq ▸ hi)).size
  · have hhash : Hash.salted key solution.seed ∈ keys.map (Hash.salted · solution.seed) :=
      List.mem_map_of_mem hkey
    obtain ⟨part, hpart, hmem⟩ := mem_part hpos hhash
    obtain ⟨hi, rfl⟩ := List.getElem?_eq_some_iff.1 hpart
    have hi' := hsolves.length_eq ▸ hi
    have haccepts := (hsolves.get hi' hi).accepts _ hmem
    rw [List.get_eq_getElem] at haccepts
    rw [Solution.answer, hlength, hknown key hkey, ok_bind, List.getElem?_eq_getElem hi',
      Option.any_some, haccepts, pure_eq_ok]

end ApproxSet.Blocked
