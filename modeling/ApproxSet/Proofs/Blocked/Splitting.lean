import ApproxSet.Blocked.Split
import ApproxSet.Proofs.Hash.Scale

/-!
# What a split of hashes is

However often the budget had to shrink, a split that succeeds sends each hash to the block of its
high half: the parts are, block by block, the hashes whose block this is. Nothing else is used of a
split later on.
-/

namespace ApproxSet.Blocked

open Outcome

/-- The block of a hash, without the check of `blockOf`. -/
def home (blocks : Nat) (hash : UInt64) : Nat :=
  Hash.place (Hash.high hash) blocks

variable {blocks : Nat} {hash : UInt64} {hashes : List UInt64}

theorem home_lt (hash : UInt64) (h : 0 < blocks) : home blocks hash < blocks :=
  Hash.place_lt _ h

theorem blockOf_eq_home {block : Nat} (h : blockOf hash blocks = .ok block) :
    block = home blocks hash :=
  Hash.scale_eq_place h

theorem blockOf_eq_ok (hash : UInt64) (h : blocks ≤ 2 ^ 32) :
    blockOf hash blocks = .ok (home blocks hash) :=
  Hash.scale_eq_ok _ h

theorem blocksFor_pos (keys budget : Nat) : 0 < blocksFor keys budget := by
  unfold blocksFor
  omega

/-- The hashes of each block, for a given number of blocks. -/
def parts (blocks : Nat) (hashes : List UInt64) : List (List UInt64) :=
  (List.range blocks).map fun block => hashes.filter (home blocks · == block)

theorem length_parts (blocks : Nat) (hashes : List UInt64) :
    (parts blocks hashes).length = blocks := by
  rw [parts, List.length_map, List.length_range]

theorem getElem?_parts {block : Nat} (h : block < blocks) :
    (parts blocks hashes)[block]? = some (hashes.filter (home blocks · == block)) := by
  rw [parts, List.getElem?_map, List.getElem?_range h, Option.map_some]

/-- A hash is in the part of its own block. -/
theorem mem_part (hpos : 0 < blocks) (hmem : hash ∈ hashes) :
    ∃ part, (parts blocks hashes)[home blocks hash]? = some part ∧ hash ∈ part :=
  ⟨_, getElem?_parts (home_lt hash hpos), List.mem_filter.2 ⟨hmem, beq_self_eq_true _⟩⟩

theorem group_routed (blocks : Nat) (hashes : List UInt64) :
    group blocks ((hashes.map (home blocks)).zip hashes) = parts blocks hashes := by
  have hzip : (hashes.map (home blocks)).zip hashes =
      hashes.map fun hash => (home blocks hash, hash) := by
    induction hashes with
    | nil => rfl
    | cons hash hashes ih => rw [List.map_cons, List.zip_cons_cons, ih, List.map_cons]
  unfold group parts
  congr 1
  funext block
  rw [hzip, List.filter_map, List.map_map]
  show List.map id _ = _
  rw [List.map_id]
  rfl

theorem route_eq_home {routes : List Nat} (h : route hashes blocks = .ok routes) :
    routes = hashes.map (home blocks) ∧
      ∀ hash ∈ hashes, blockOf hash blocks = .ok (home blocks hash) :=
  mapM_eq_map (fun _ _ => blockOf_eq_home) h

theorem splitHashes_spec {result : List (List UInt64)} {budget : Nat} {last : Load}
    (h : (splitHashes hashes budget last).outcome = .ok result) :
    ∃ blocks, 0 < blocks ∧ result = parts blocks hashes ∧
      ∀ hash ∈ hashes, blockOf hash blocks = .ok (home blocks hash) := by
  induction budget generalizing last with
  | zero => exact absurd h refuse_ne_ok
  | succ budget ih =>
    rw [splitHashes, Traced.outcome_bind_eq_ok_iff] at h
    obtain ⟨routes, hroutes, h⟩ := h
    obtain ⟨loads, -, h⟩ := Traced.outcome_bind_eq_ok_iff.1 h
    dsimp only at h
    split at h
    case isTrue =>
      obtain ⟨hrouted, hknown⟩ := route_eq_home hroutes
      cases h
      refine ⟨_, blocksFor_pos _ _, ?_, hknown⟩
      rw [hrouted, group_routed]
    case isFalse =>
      obtain ⟨-, -, h⟩ := Traced.outcome_bind_eq_ok_iff.1 h
      exact ih h

/-- A split under a seed has one part for each block of some positive number of blocks. -/
theorem split_spec {keys : List UInt64} {seed : UInt64} {result : List (List UInt64)}
    (h : (split keys seed).outcome = .ok result) :
    ∃ blocks, 0 < blocks ∧ result = parts blocks (keys.map (Hash.salted · seed)) ∧
      ∀ key ∈ keys, blockOf (Hash.salted key seed) blocks =
        .ok (home blocks (Hash.salted key seed)) := by
  obtain ⟨blocks, hpos, hresult, hknown⟩ := splitHashes_spec h
  exact ⟨blocks, hpos, hresult, fun key hkey => hknown _ (List.mem_map_of_mem hkey)⟩

end ApproxSet.Blocked
