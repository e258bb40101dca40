import ApproxSet.Proofs.Blocked.Budgets
import ApproxSet.Proofs.Hash.Mix

/-!
# Distinct keys have distinct hashes

Keys are hashed under a seed and split, and the hashes of a block are hashed again under its salt.
Both are bijections of the words, so keys that are distinct stay so on either level, whatever the
seed and the salts. The parts of a split have no hash in common, as together they are the hashes of
all keys.
-/

namespace ApproxSet.Blocked

open Outcome

variable {keys : List UInt64} {seed : UInt64} {result : List (List UInt64)}

/-- Hashing neither makes words equal nor tells equal words apart. -/
theorem nodup_map_salted (salt : UInt64) (words : List UInt64) :
    (words.map (Hash.salted · salt)).Nodup ↔ words.Nodup :=
  List.nodup_map_iff (Hash.salted_bijective salt).injective

/-- The parts of a split hold as many different hashes as there are different keys. -/
theorem nodup_flatten_of_split (h : (split keys seed).outcome = .ok result) :
    result.flatten.Nodup ↔ keys.Nodup := by
  obtain ⟨blocks, hpos, rfl, -⟩ := split_spec h
  rw [(flatten_parts_perm hpos _).nodup_iff, nodup_map_salted]

/-- Mixing is a bijection of the words, and so is hashing: in the key, under every salt, and in the
salt, for every key. Hence distinct keys are split into parts without a common or a repeated hash,
and under no salt are two hashes of a part hashed alike. -/
theorem no_two_words_have_one_hash :
    Function.Bijective Hash.mix ∧
    (∀ salt, Function.Bijective fun key => Hash.salted key salt) ∧
    (∀ key, Function.Bijective fun salt => Hash.salted key salt) ∧
    ∀ keys seed parts, (split keys seed).outcome = .ok parts → keys.Nodup →
      parts.flatten.Nodup ∧ ∀ part ∈ parts, ∀ salt, (part.map (Hash.salted · salt)).Nodup := by
  refine ⟨Hash.mix_bijective, Hash.salted_bijective, Hash.salted_key_bijective, ?_⟩
  intro keys seed parts hsplit hkeys
  have hnodup := (nodup_flatten_of_split hsplit).2 hkeys
  refine ⟨hnodup, fun part hpart salt => ?_⟩
  rw [nodup_map_salted]
  exact (List.nodup_flatten.1 hnodup).1 part hpart

/-- Sixty keys are split into two parts, and hashed again under the last salt of a block. -/
theorem sixty_keys_have_sixty_hashes :
    Hash.mix 1 ≠ Hash.mix 2 ∧ Hash.salted 1 5 ≠ Hash.salted 1 6 ∧
    ∃ first second,
      (split ((List.range 60).map UInt64.ofNat) 0).outcome = .ok [first, second] ∧
      (first ++ second).Nodup ∧ (first.map (Hash.salted · 255)).Nodup ∧
      (second.map (Hash.salted · 255)).Nodup := by
  obtain ⟨hmix, -, hsalts, hsplits⟩ := no_two_words_have_one_hash
  refine ⟨hmix.injective.ne (by decide), (hsalts 1).injective.ne (by decide), ?_⟩
  have hcount : (split ((List.range 60).map UInt64.ofNat) 0).outcome.toOption.map List.length =
      some 2 := by decide +kernel
  obtain ⟨parts, hparts⟩ :
      ∃ parts, (split ((List.range 60).map UInt64.ofNat) 0).outcome = .ok parts :=
    exists_eq_ok (by decide +kernel)
  obtain ⟨first, second, rfl⟩ : ∃ first second, parts = [first, second] := by
    rw [hparts] at hcount
    exact List.length_eq_two.1 (Option.some.inj hcount)
  obtain ⟨hnodup, hpart⟩ := hsplits _ _ _ hparts (by decide +kernel)
  rw [List.flatten_cons, List.flatten_singleton] at hnodup
  exact ⟨first, second, hparts, hnodup, hpart first (by simp) 255, hpart second (by simp) 255⟩

end ApproxSet.Blocked
