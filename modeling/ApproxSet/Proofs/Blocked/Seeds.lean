import ApproxSet.Proofs.Blocked.Membership
import ApproxSet.Proofs.XorSet.Attempts
import Mathlib.Order.Bounds.Basic

/-!
# The first seed and the first salts

Two searches are nested in a construction. The inner one takes, for each block, the first of its
salts under which the hashes of the block peel. If there is none, the outer one splits all keys anew
under the next seed, and nothing of the split that was given up is left: the blocks of a filter are
those of the split under its own seed.

A seed works if the keys split under it and each part peels under some salt. So the seed of a filter
is the first that works, and under all seeds before it the keys split but some part was stuck.
-/

namespace ApproxSet.Blocked

open CacheLine Outcome XorSet

variable {keys hashes : List UInt64} {firstSeed seed : UInt64} {room left : Nat}
  {parts : List (List UInt64)} {solved : List Block} {solution : Solution}

/-- The salts of a block under which hashes peel. -/
def goodSalts (hashes : List UInt64) : Set Nat :=
  {salt | salt < saltCount ∧ Peels hashes blockThird (UInt64.ofNat salt)}

/-- Under the seed the keys split into parts, each of which peels under some salt. -/
def Works (keys : List UInt64) (seed : UInt64) : Prop :=
  ∃ parts, (split keys seed).outcome = .ok parts ∧ ∀ part ∈ parts, (goodSalts part).Nonempty

/-- Under the seed the keys split, but a part peels under no salt. -/
def Sticks (keys : List UInt64) (seed : UInt64) : Prop :=
  ∃ parts, (split keys seed).outcome = .ok parts ∧ ∃ part ∈ parts, goodSalts part = ∅

/-- The slots in the line of a block combine to the fingerprint of a hash. The first octet of the
line is the salt, and the slots are behind it. -/
def LineBalances (octets : Array UInt8) (hash : UInt64) : Prop :=
  ∃ salt e a b c, octets[0]? = some salt ∧
    Edge.of (Hash.salted hash salt.toUInt64) blockThird = .ok e ∧
    octets[1 + e.first]? = some a ∧ octets[1 + e.second]? = some b ∧ octets[1 + e.third]? = some c ∧
    fingerprint (Hash.salted hash salt.toUInt64) 0xff =
      a.toUInt64 ^^^ b.toUInt64 ^^^ c.toUInt64

/-- The line of a block begins with the first salt under which its hashes peel, and its slots are
solved for all of them. -/
structure LineServes (octets : Array UInt8) (part : List UInt64) : Prop where
  size_eq : octets.size = 64
  salt : ∃ salt, IsLeast (goodSalts part) salt ∧ octets[0]? = some (UInt8.ofNat salt)
  balances : ∀ hash ∈ part, LineBalances octets hash

/-! ### The first salt of a block -/

/-- The salts that are left are tried in order. What comes out is the first that peels, or that none
of them does. -/
theorem solveFrom_first {found : Option Block} (hleft : left ≤ saltCount)
    (h : solveFrom hashes left = .ok found) :
    match found with
    | none => ∀ salt ∈ goodSalts hashes, salt < saltCount - left
    | some block => ∃ salt ∈ goodSalts hashes, block.salt = UInt8.ofNat salt ∧
        ∀ other ∈ goodSalts hashes, saltCount - left ≤ other → salt ≤ other := by
  induction left with
  | zero =>
    cases h
    exact fun salt hsalt => hsalt.1
  | succ left ih =>
    rcases solveFrom_succ_eq_ok hleft h with ⟨order, block, hpeel, rfl, hsalt, -⟩ | ⟨hcore, hnext⟩
    · have hgood : saltCount - (left + 1) ∈ goodSalts hashes := ⟨by omega, order, hpeel⟩
      exact ⟨_, hgood, hsalt, fun other _ hother => hother⟩
    · -- The present salt is not a good one, so those that are left start with the next.
      have hbad : ∀ salt ∈ goodSalts hashes, salt ≠ saltCount - (left + 1) := by
        intro salt hsalt hsame
        exact Stalls.not_peels hcore (hsame ▸ hsalt.2)
      have hlater := ih (by omega) hnext
      cases found with
      | none =>
        intro salt hsalt
        have hbefore := hlater salt hsalt
        have hother := hbad salt hsalt
        omega
      | some block =>
        obtain ⟨salt, hsalt, hblock, hfirst⟩ := hlater
        refine ⟨salt, hsalt, hblock, fun other hgood hother => ?_⟩
        have hdiffers := hbad other hgood
        exact hfirst other hgood (by omega)

/-- A block has the first salt under which its hashes peel. -/
theorem isLeast_of_solve {block : Block} (h : solve hashes = .ok (some block)) :
    ∃ salt, IsLeast (goodSalts hashes) salt ∧ block.salt = UInt8.ofNat salt := by
  obtain ⟨salt, hsalt, hblock, hfirst⟩ := solveFrom_first (Nat.le_refl _) h
  refine ⟨salt, ⟨hsalt, fun other hother => hfirst other hother ?_⟩, hblock⟩
  rw [Nat.sub_self]
  exact Nat.zero_le other

theorem goodSalts_eq_empty (h : solve hashes = .ok none) : goodSalts hashes = ∅ := by
  refine Set.eq_empty_of_forall_notMem fun salt hsalt => ?_
  have hbefore := solveFrom_first (Nat.le_refl _) h salt hsalt
  rw [Nat.sub_self] at hbefore
  exact Nat.not_lt_zero _ hbefore

/-! ### The first seed -/

theorem exists_stuck {block load : Nat} (h : assembleFrom parts solved = .ok (.stuck block load)) :
    ∃ part ∈ parts, solve part = .ok none := by
  induction parts generalizing solved with
  | nil => cases h
  | cons part parts ih =>
    obtain ⟨found, hfound, h⟩ := bind_eq_ok_iff.1 h
    cases found with
    | none => exact ⟨part, List.mem_cons_self, hfound⟩
    | some block =>
      obtain ⟨later, hlater, hnone⟩ := ih h
      exact ⟨later, List.mem_cons_of_mem _ hlater, hnone⟩

theorem works_of_assemble {seed : UInt64} {blocks : List Block}
    (hsplit : (split keys seed).outcome = .ok parts)
    (h : assemble parts = .ok (.complete blocks)) : Works keys seed := by
  refine ⟨parts, hsplit, fun part hpart => ?_⟩
  obtain ⟨i, hi, rfl⟩ := List.getElem_of_mem hpart
  have hblocks := solve_of_assemble h
  have hi' : i < blocks.length := by rwa [hblocks.length_eq]
  obtain ⟨salt, hsalt, -⟩ := isLeast_of_solve (hblocks.get hi' hi)
  exact ⟨salt, hsalt.1⟩

theorem Sticks.not_works (h : Sticks keys seed) : ¬Works keys seed := by
  intro hworks
  obtain ⟨parts, hsplit, part, hpart, hempty⟩ := h
  obtain ⟨parts', hsplit', hnonempty⟩ := hworks
  cases hsplit.symm.trans hsplit'
  exact (hnonempty part hpart).ne_empty hempty

/-- A search that succeeds passes over seeds under which a part is stuck. It looks for repeated keys
after the first of them. -/
theorem search_passes (h : (search keys firstSeed room seed).outcome = .ok solution) :
    ∃ n < room, solution.seed = seed + UInt64.ofNat n ∧
      (∀ earlier < n, Sticks keys (seed + UInt64.ofNat earlier)) ∧
      (0 < n → seed = firstSeed → keys.Nodup) := by
  induction room generalizing seed with
  | zero => exact absurd h violate_ne_ok
  | succ room ih =>
    obtain ⟨parts, hparts, ⟨hseed, -⟩ | ⟨⟨block, load, hstuck⟩, hdistinct, hnext⟩⟩ :=
      search_succ_eq_ok h
    · refine ⟨0, Nat.succ_pos room, ?_, fun earlier hearlier => ?_, fun hpos => ?_⟩
      · rw [hseed]
        exact (UInt64.add_zero seed).symm
      · exact absurd hearlier (Nat.not_lt_zero earlier)
      · exact absurd hpos (Nat.lt_irrefl 0)
    · obtain ⟨n, hn, hseed, hearlier, -⟩ := ih hnext
      have hsticks : Sticks keys seed := by
        obtain ⟨part, hpart, hnone⟩ := exists_stuck hstuck
        exact ⟨parts, hparts, part, hpart, goodSalts_eq_empty hnone⟩
      refine ⟨n + 1, by omega, ?_, fun earlier hlt => ?_, fun _ hfirst => ?_⟩
      · rw [hseed, add_ofNat_succ]
      · cases earlier with
        | zero =>
          rw [show seed + UInt64.ofNat 0 = seed from UInt64.add_zero seed]
          exact hsticks
        | succ earlier =>
          rw [add_ofNat_succ]
          exact hearlier earlier (by omega)
      · rcases demandDistinctIf_cases (seed = firstSeed) keys with ⟨hnodup, -⟩ | ⟨-, key, -, hkey⟩
        · exact hnodup hfirst
        · rw [hdistinct] at hkey
          cases hkey

/-! ### Lines -/

theorem getElem?_octets_succ (b : Block) (index : Nat) :
    b.octets.toArray[1 + index]? = b.slots[index]? := by
  rw [List.getElem?_toArray, Block.octets, Nat.add_comm, List.getElem?_cons_succ,
    Array.getElem?_toList]

/-- The line of a block that accepts a hash balances it. -/
theorem lineBalances_octets {b : Block} (hsize : b.slots.size = 3 * blockThird) {hash : UInt64}
    (h : b.accepts hash = true) : LineBalances b.octets.toArray hash := by
  have hpos : 0 < blockThird := by decide
  have hedge := Edge.of_eq_ok (Hash.salted hash b.salt.toUInt64) hpos (by decide)
  have hslots := Edge.slots_lt hpos (Hash.salted hash b.salt.toUInt64)
  rw [Block.accepts, beq_iff_eq, UInt64.xor_eq_zero_iff] at h
  generalize Edge.at (Hash.salted hash b.salt.toUInt64) blockThird = e at hedge hslots h
  have hoctet : ∀ slot ∈ e.slots,
      ∃ octet, b.octets.toArray[1 + slot]? = some octet ∧ octet.toUInt64 = b.value slot := by
    intro slot hmem
    have hlt : slot < b.slots.size := by
      rw [hsize]
      exact hslots slot hmem
    refine ⟨b.slots[slot], ?_, ?_⟩
    · rw [getElem?_octets_succ, Array.getElem?_eq_getElem hlt]
    · rw [Block.value, Array.getD, dif_pos hlt]
      rfl
  obtain ⟨x, hx, hfirst⟩ := hoctet e.first (by simp [Edge.slots])
  obtain ⟨y, hy, hsecond⟩ := hoctet e.second (by simp [Edge.slots])
  obtain ⟨z, hz, hthird⟩ := hoctet e.third (by simp [Edge.slots])
  refine ⟨b.salt, e, x, y, z, rfl, hedge, hx, hy, hz, ?_⟩
  rw [hfirst, hsecond, hthird]
  exact h

/-- The line of a block that was solved for a part serves it. -/
theorem lineServes_octets {b : Block} {part : List UInt64} (h : solve part = .ok (some b)) :
    LineServes b.octets.toArray part := by
  have hsolves := solve_spec h
  obtain ⟨salt, hleast, hsalt⟩ := isLeast_of_solve h
  refine ⟨length_octets hsolves.size, ⟨salt, hleast, ?_⟩, fun hash hmem => ?_⟩
  · rw [← hsalt]
    rfl
  · exact lineBalances_octets hsolves.size (hsolves.accepts hash hmem)

/-- A filter has the first seed that works, its blocks are those of the split under that seed, and
each block has the first salt under which its hashes peel. Under all seeds before, the keys split.
A second seed is tried for distinct keys only. -/
theorem first_seed_that_works_is_taken {machine : Machine} {s : Settings} {keys : List UInt64}
    {t : Table} (h : (build machine s keys).outcome = .ok t) :
    ∃ n < seedRoom, t.seed = s.seed + UInt64.ofNat n ∧
      IsLeast {n | Works keys (s.seed + UInt64.ofNat n)} n ∧
      (∀ earlier < n, Sticks keys (s.seed + UInt64.ofNat earlier)) ∧
      (0 < n → keys.Nodup) ∧
      ∃ parts, (split keys t.seed).outcome = .ok parts ∧ t.blocks = parts.length ∧
        ∀ block part, parts[block]? = some part →
          ∃ octets, t.line block = .ok octets ∧ LineServes octets part := by
  obtain ⟨solution, hsearch, hlays⟩ := build_spec h
  obtain ⟨n, hn, hseed, hearlier, hdistinct⟩ := search_passes hsearch
  obtain ⟨parts, hsplit, hassemble⟩ := search_spec hsearch
  have hblocks := solve_of_assemble hassemble
  have hworks := works_of_assemble hsplit hassemble
  rw [hseed] at hworks
  refine ⟨n, hn, hlays.seed_eq.trans hseed, ⟨hworks, fun other hother => ?_⟩, hearlier,
    fun hpos => hdistinct hpos rfl, parts, ?_, ?_, fun block part hpart => ?_⟩
  · by_contra hbefore
    exact (hearlier other (Nat.lt_of_not_le hbefore)).not_works hother
  · rw [hlays.seed_eq, hsplit]
  · rw [hlays.blocks_eq, hblocks.length_eq]
  · obtain ⟨hi, rfl⟩ := List.getElem?_eq_some_iff.1 hpart
    have hi' : block < solution.blocks.length := by rwa [hblocks.length_eq]
    have hsolved := hblocks.get hi' hi
    exact ⟨_, hlays.line_eq block _ (List.getElem?_eq_getElem hi'), lineServes_octets hsolved⟩

/-- Eight keys make one block, which does not peel under its salt zero. -/
theorem eight_keys_have_the_second_salt :
    ∃ t n part octets,
      (build ⟨9, 0, 0, fun _ _ _ => 0⟩ ⟨.fixed 0, 245⟩ [0, 1, 2, 3, 4, 5, 6, 7]).outcome = .ok t ∧
      t.seed = 245 + UInt64.ofNat n ∧
      IsLeast {n | Works [0, 1, 2, 3, 4, 5, 6, 7] (245 + UInt64.ofNat n)} n ∧
      t.line 0 = .ok octets ∧ octets[0]? = some 1 ∧ IsLeast (goodSalts part) 1 := by
  have hread : ((build ⟨9, 0, 0, fun _ _ _ => 0⟩ ⟨.fixed 0, 245⟩
      [0, 1, 2, 3, 4, 5, 6, 7]).outcome.toOption.bind fun t =>
        (t.line 0).toOption.bind fun octets => octets[0]?) = some 1 := by decide +kernel
  obtain ⟨t, ht⟩ : ∃ t, (build ⟨9, 0, 0, fun _ _ _ => 0⟩ ⟨.fixed 0, 245⟩
      [0, 1, 2, 3, 4, 5, 6, 7]).outcome = .ok t := by
    cases hbuild : (build ⟨9, 0, 0, fun _ _ _ => 0⟩ ⟨.fixed 0, 245⟩
        [0, 1, 2, 3, 4, 5, 6, 7]).outcome with
    | ok t => exact ⟨t, rfl⟩
    | error failure =>
      rw [hbuild] at hread
      cases hread
  obtain ⟨n, -, hseed, hleast, -, -, parts, hsplit, hcount, hlines⟩ :=
    first_seed_that_works_is_taken ht
  have hpart : 0 < parts.length := by
    obtain ⟨blocks, hpos, rfl, -⟩ := split_spec hsplit
    rwa [length_parts]
  obtain ⟨octets, hline, hserves⟩ := hlines 0 _ (List.getElem?_eq_getElem hpart)
  obtain ⟨salt, hsalt, hfirst⟩ := hserves.salt
  rw [ht] at hread
  have hone : octets[0]? = some 1 := by simpa [Except.toOption, hline] using hread
  have hsame : salt = 1 := by
    have hlt : salt < 2 ^ 8 := hsalt.1.1
    rw [hfirst, Option.some.injEq, ← UInt8.toNat_inj, UInt8.toNat_ofNat', Nat.mod_eq_of_lt hlt]
      at hone
    exact hone
  exact ⟨t, n, parts[0], octets, ht, hseed, hleast, hline, hone, hsame ▸ hsalt⟩

end ApproxSet.Blocked
