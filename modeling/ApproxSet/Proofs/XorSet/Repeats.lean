import ApproxSet.Proofs.Success
import ApproxSet.XorSet.Build
import Mathlib.Data.List.Nodup

/-!
# The smallest repeated key

Repeated keys are looked for by splitting a list at one bit after the other, the highest first. The
keys of each part agree above the bit that it is split at next, so those without that bit are
smaller than those with it, and equal keys stay together. Keys that agree in all bits are one and
the same, and if there are two of them it is repeated.
-/

namespace ApproxSet.XorSet

open Outcome

/-- The key occurs twice, and no smaller one does. -/
structure SmallestRepeated (keys : List UInt64) (key : UInt64) : Prop where
  twice : 2 ≤ keys.count key
  least : ∀ other, 2 ≤ keys.count other → key ≤ other

/-- The keys differ in their lowest `bits` bits only. -/
def AgreeAbove (bits : Nat) (keys : List UInt64) : Prop :=
  ∀ a ∈ keys, ∀ b ∈ keys, a.toNat / 2 ^ bits = b.toNat / 2 ^ bits

variable {bits : Nat} {keys keys' : List UInt64} {key : UInt64}

/-! ### Splitting at a bit -/

theorem div_eq_of_testBit (n bits : Nat) :
    n / 2 ^ bits = 2 * (n / 2 ^ (bits + 1)) + (n.testBit bits).toNat := by
  have hhalf : n / 2 ^ (bits + 1) = n / 2 ^ bits / 2 := by
    rw [Nat.pow_succ, Nat.div_div_eq_div_mul]
  have hbit : (n.testBit bits).toNat = n / 2 ^ bits % 2 := Nat.toNat_testBit n bits
  omega

/-- The keys that have a bit, or those that do not, agree from that bit on. -/
theorem AgreeAbove.filter (h : AgreeAbove (bits + 1) keys) (bit : Bool) :
    AgreeAbove bits (keys.filter fun key => key.toNat.testBit bits == bit) := by
  intro a ha b hb
  obtain ⟨ha, hbita⟩ := List.mem_filter.1 ha
  obtain ⟨hb, hbitb⟩ := List.mem_filter.1 hb
  rw [div_eq_of_testBit, div_eq_of_testBit b.toNat, h a ha b hb, eq_of_beq hbita, eq_of_beq hbitb]

/-- Keys without a bit are smaller than those with it if they agree above it. -/
theorem AgreeAbove.le_of_testBit (h : AgreeAbove (bits + 1) keys) {a b : UInt64} (ha : a ∈ keys)
    (hb : b ∈ keys) (hclear : a.toNat.testBit bits = false) (hset : b.toNat.testBit bits = true) :
    a ≤ b := by
  rw [UInt64.le_iff_toNat_le]
  by_contra hlt
  have hdiv : b.toNat / 2 ^ bits ≤ a.toNat / 2 ^ bits := Nat.div_le_div_right (by omega)
  rw [div_eq_of_testBit, div_eq_of_testBit a.toNat, h a ha b hb, hclear, hset] at hdiv
  simp only [Bool.toNat_true, Bool.toNat_false] at hdiv
  omega

theorem agreeAbove_all (keys : List UInt64) : AgreeAbove 64 keys := by
  intro a _ b _
  rw [Nat.div_eq_of_lt a.toNat_lt, Nat.div_eq_of_lt b.toNat_lt]

theorem partition_testBit (bits : Nat) (keys : List UInt64) :
    (keys.partition fun key => key.toNat.testBit bits) =
      (keys.filter fun key => key.toNat.testBit bits == true,
        keys.filter fun key => key.toNat.testBit bits == false) := by
  rw [List.partition_eq_filter_filter]
  simp [Function.comp_def]

/-- Equal keys go the same way at a bit. -/
theorem count_filter_testBit (bits : Nat) (bit : Bool) (key : UInt64) :
    (keys.filter fun key => key.toNat.testBit bits == bit).count key =
      if key.toNat.testBit bits = bit then keys.count key else 0 := by
  split
  · rw [List.count_filter]
    simpa using ‹_›
  · rw [List.count_eq_zero]
    intro hmem
    exact absurd (by simpa using (List.mem_filter.1 hmem).2) ‹¬_›

/-! ### The search -/

/-- What a search says of its list. -/
def Reports (keys : List UInt64) : Option UInt64 → Prop
  | some key => SmallestRepeated keys key
  | none => ∀ key, keys.count key ≤ 1

theorem mem_of_twice (h : 2 ≤ keys.count key) : key ∈ keys :=
  List.count_pos_iff.1 (by omega)

/-- What is found in the half without a bit comes before what is found in the half with it. -/
theorem reports_orElse (h : AgreeAbove (bits + 1) keys) {lower upper : Option UInt64}
    (hlower : Reports (keys.filter fun key => key.toNat.testBit bits == false) lower)
    (hupper : Reports (keys.filter fun key => key.toNat.testBit bits == true) upper) :
    Reports keys (lower <|> upper) := by
  cases lower with
  | some key =>
    obtain ⟨htwice, hleast⟩ := hlower
    rw [count_filter_testBit] at htwice
    have hclear : key.toNat.testBit bits = false := by
      by_contra hset
      rw [if_neg hset] at htwice
      omega
    rw [if_pos hclear] at htwice
    refine ⟨htwice, fun other hother => ?_⟩
    cases hbit : other.toNat.testBit bits with
    | false => exact hleast other (by rwa [count_filter_testBit, if_pos hbit])
    | true => exact h.le_of_testBit (mem_of_twice htwice) (mem_of_twice hother) hclear hbit
  | none =>
    have hset : ∀ other, 2 ≤ keys.count other → other.toNat.testBit bits = true := by
      intro other hother
      by_contra hclear
      have honce := hlower other
      rw [count_filter_testBit, if_pos (by simpa using hclear)] at honce
      omega
    cases upper with
    | some key =>
      obtain ⟨htwice, hleast⟩ := hupper
      rw [count_filter_testBit] at htwice
      refine ⟨?_, fun other hother => hleast other ?_⟩
      · split at htwice
        · exact htwice
        · omega
      · rwa [count_filter_testBit, if_pos (hset other hother)]
    | none =>
      intro other
      by_contra hother
      have honce := hupper other
      rw [count_filter_testBit, if_pos (hset other (by omega))] at honce
      exact hother honce

/-- Keys that agree in all bits are equal. -/
theorem AgreeAbove.eq_of_zero (h : AgreeAbove 0 keys) {a b : UInt64} (ha : a ∈ keys)
    (hb : b ∈ keys) : a = b := by
  have heq := h a ha b hb
  rw [Nat.pow_zero, Nat.div_one, Nat.div_one] at heq
  exact UInt64.toNat_inj.1 heq

theorem reports_smallestRepeated :
    ∀ {bits : Nat} {keys : List UInt64}, AgreeAbove bits keys →
      Reports keys (smallestRepeated bits keys)
  | _, [], _ => by
    rw [smallestRepeated]
    exact fun key => by simp
  | _, [key], _ => by
    rw [smallestRepeated]
    exact fun other => List.count_le_length
  | 0, a :: b :: keys, h => by
    rw [smallestRepeated]
    · have hba : b = a := h.eq_of_zero (by simp) (by simp)
      refine ⟨by simp [hba], fun other hother => ?_⟩
      rw [h.eq_of_zero (a := a) (by simp) (mem_of_twice hother)]
      exact UInt64.le_refl other
    · simp
  | bits + 1, a :: b :: keys, h => by
    rw [smallestRepeated, partition_testBit]
    · exact reports_orElse h (reports_smallestRepeated (h.filter false))
        (reports_smallestRepeated (h.filter true))
    · simp
    · simp

/-! ### Lists without repeated keys -/

theorem smallestRepeated_eq_some_iff :
    smallestRepeated 64 keys = some key ↔ SmallestRepeated keys key := by
  have h := reports_smallestRepeated (agreeAbove_all keys)
  constructor
  · intro hsome
    rwa [hsome] at h
  · intro hkey
    cases hfound : smallestRepeated 64 keys with
    | some found =>
      rw [hfound] at h
      have hle := UInt64.le_iff_toNat_le.1 (h.least key hkey.twice)
      have hge := UInt64.le_iff_toNat_le.1 (hkey.least found h.twice)
      exact congrArg some (UInt64.toNat_inj.1 (by omega))
    | none =>
      rw [hfound] at h
      have honce := h key
      have htwice := hkey.twice
      omega

theorem smallestRepeated_eq_none_iff : smallestRepeated 64 keys = none ↔ keys.Nodup := by
  have h := reports_smallestRepeated (agreeAbove_all keys)
  rw [List.nodup_iff_count_le_one]
  constructor
  · intro hnone
    rwa [hnone] at h
  · intro honce
    cases hfound : smallestRepeated 64 keys with
    | some found =>
      rw [hfound] at h
      have htwice := h.twice
      have hone := honce found
      omega
    | none => rfl

/-- If a key is repeated, there is a smallest one that is. -/
theorem exists_smallestRepeated (h : 2 ≤ keys.count key) :
    ∃ least, SmallestRepeated keys least := by
  cases hfound : smallestRepeated 64 keys with
  | some least => exact ⟨least, smallestRepeated_eq_some_iff.1 hfound⟩
  | none =>
    have honce := List.nodup_iff_count_le_one.1 (smallestRepeated_eq_none_iff.1 hfound) key
    omega

theorem SmallestRepeated.not_nodup (h : SmallestRepeated keys key) : ¬keys.Nodup := by
  intro hnodup
  have honce := List.nodup_iff_count_le_one.1 hnodup key
  have htwice := h.twice
  omega

theorem SmallestRepeated.perm (h : SmallestRepeated keys key) (hperm : keys.Perm keys') :
    SmallestRepeated keys' key := by
  refine ⟨hperm.count_eq key ▸ h.twice, fun other hother => h.least other ?_⟩
  rwa [hperm.count_eq]

/-- Which key is named does not depend on the order of the keys. -/
theorem smallestRepeated_perm (hperm : keys.Perm keys') :
    smallestRepeated 64 keys = smallestRepeated 64 keys' := by
  refine Option.ext fun key => ?_
  rw [smallestRepeated_eq_some_iff, smallestRepeated_eq_some_iff]
  constructor
  · intro h
    exact h.perm hperm
  · intro h
    exact h.perm hperm.symm

theorem demandDistinct_perm (hperm : keys.Perm keys') :
    demandDistinct keys = demandDistinct keys' := by
  rw [demandDistinct, demandDistinct, smallestRepeated_perm hperm]

/-- A list of keys has to be without repeated ones to be accepted, if they are looked for. -/
theorem demandDistinctIf_cases (condition : Prop) [Decidable condition] (keys : List UInt64) :
    ((condition → keys.Nodup) ∧ demandDistinctIf condition keys = .ok ()) ∨
      condition ∧ ∃ key, SmallestRepeated keys key ∧
        demandDistinctIf condition keys = refuse (.invalidArgument (.repeatedKey key)) := by
  by_cases hcondition : condition
  · rw [demandDistinctIf, if_pos hcondition, demandDistinct]
    cases hfound : smallestRepeated 64 keys with
    | none => exact .inl ⟨fun _ => smallestRepeated_eq_none_iff.1 hfound, rfl⟩
    | some key => exact .inr ⟨hcondition, key, smallestRepeated_eq_some_iff.1 hfound, rfl⟩
  · rw [demandDistinctIf, if_neg hcondition]
    exact .inl ⟨fun h => absurd h hcondition, rfl⟩

end ApproxSet.XorSet
