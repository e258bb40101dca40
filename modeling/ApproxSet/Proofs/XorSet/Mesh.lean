import ApproxSet.Proofs.XorSet.Edge
import ApproxSet.XorSet.Peel

/-!
# What a mesh says about keys

A mesh describes a list of keys if it holds, for each slot, the number of the keys on that slot and
their exclusive or. Putting a key on its slots adds it to the keys described, and taking it off
removes it again. The order of the keys does not matter, and a key that is in the list twice counts
twice.
-/

namespace ApproxSet.XorSet

open Outcome

/-- The exclusive or of words. -/
def xorAll (words : List UInt64) : UInt64 :=
  words.foldr (· ^^^ ·) 0

theorem xorAll_perm {as bs : List UInt64} (h : as.Perm bs) : xorAll as = xorAll bs := by
  induction h with
  | nil => rfl
  | cons a _ ih => exact congrArg (a ^^^ ·) ih
  | swap a b rest =>
    show b ^^^ (a ^^^ xorAll rest) = a ^^^ (b ^^^ xorAll rest)
    rw [← UInt64.xor_assoc, ← UInt64.xor_assoc, UInt64.xor_comm b a]
  | trans _ _ ih₁ ih₂ => exact ih₁.trans ih₂

/-- The keys on a slot. -/
def onSlot (third : Nat) (salt : UInt64) (slot : Nat) (keys : List UInt64) : List UInt64 :=
  keys.filter fun key => decide (slot ∈ slotsOf third salt key)

namespace Mesh

variable {third slot : Nat} {salt key : UInt64} {m m' : Mesh} {keys keys' : List UInt64}

/-- The exclusive or of the keys on a slot, without the check of `sum`. -/
def sumAt (m : Mesh) (slot : Nat) : UInt64 :=
  m.sums.getD slot 0

theorem sum_eq_ok_iff : m.sum slot = .ok key ↔ slot < m.sums.size ∧ m.sumAt slot = key := by
  by_cases h : slot < m.sums.size
  · simp [sum, sumAt, Array.getD, h]
  · simp [sum, h, violate]

/-! ### Single slots -/

/-- The mesh with another degree for a slot, whose sum is combined with a key. -/
def modified (m : Mesh) (key : UInt64) (slot degree : Nat) : Mesh :=
  ⟨m.degrees.setIfInBounds slot degree, m.sums.setIfInBounds slot (m.sumAt slot ^^^ key)⟩

theorem change_eq_ok_iff {degree : Nat} :
    m.change key slot degree = .ok m' ↔ slot < m.sums.size ∧ m' = m.modified key slot degree := by
  by_cases h : slot < m.sums.size
  · simp [change, modified, sumAt, Array.getD, Array.setIfInBounds, h, eq_comm]
  · simp [change, h, violate]

theorem degree_modified {degree other : Nat} (h : slot < m.degrees.size) :
    (m.modified key slot degree).degree other =
      if other = slot then degree else m.degree other := by
  by_cases ho : other = slot
  · simp [Mesh.degree, modified, Array.getD_eq_getD_getElem?, ho, h]
  · simp [Mesh.degree, modified, Array.getD_eq_getD_getElem?, ho, Ne.symm ho]

theorem sumAt_modified {degree other : Nat} (h : slot < m.sums.size) :
    (m.modified key slot degree).sumAt other =
      if other = slot then m.sumAt other ^^^ key else m.sumAt other := by
  by_cases ho : other = slot
  · simp [sumAt, modified, Array.getD_eq_getD_getElem?, ho, h]
  · simp [sumAt, modified, Array.getD_eq_getD_getElem?, ho, Ne.symm ho]

theorem join_eq_ok_iff :
    join key m slot = .ok m' ↔ slot < m.degrees.size ∧ slot < m.sums.size ∧
      m.degree slot < degreeLimit ∧ m' = m.modified key slot (m.degree slot + 1) := by
  rw [join, require_bind_eq_ok_iff, bind_eq_ok_iff]
  simp only [Checked.add_eq_ok_iff, demand_bind_eq_ok_iff, change_eq_ok_iff]
  constructor
  · rintro ⟨hdegrees, degree, ⟨-, rfl⟩, hlimit, hsums, rfl⟩
    exact ⟨hdegrees, hsums, hlimit, rfl⟩
  · rintro ⟨hdegrees, hsums, hlimit, rfl⟩
    have hbyte : m.degree slot + 1 < 2 ^ 8 := by
      unfold degreeLimit at hlimit
      omega
    exact ⟨hdegrees, _, ⟨hbyte, rfl⟩, hlimit, hsums, rfl⟩

theorem leave_eq_ok_iff {stack stack' : List Nat} :
    leave key (m, stack) slot = .ok (m', stack') ↔ slot < m.degrees.size ∧ slot < m.sums.size ∧
      0 < m.degree slot ∧ m' = m.modified key slot (m.degree slot - 1) ∧
      stack' = if m.degree slot = 2 then slot :: stack else stack := by
  have htwo : (m.degree slot - 1 = 1) = (m.degree slot = 2) := by
    apply propext
    omega
  simp only [leave, require_bind_eq_ok_iff]
  rw [bind_eq_ok_iff]
  simp only [Checked.sub_eq_ok_iff, bind_eq_ok_iff, change_eq_ok_iff]
  constructor
  · rintro ⟨hdegrees, degree, ⟨hpos, rfl⟩, last, ⟨hsums, rfl⟩, h⟩
    cases h
    exact ⟨hdegrees, hsums, hpos, rfl, by simp only [htwo]⟩
  · rintro ⟨hdegrees, hsums, hpos, rfl, rfl⟩
    exact ⟨hdegrees, _, ⟨hpos, rfl⟩, _, ⟨hsums, rfl⟩, by simp only [htwo]; rfl⟩

/-! ### All slots of a key -/

/-- The mesh `m'` has the same size as `m`, and `change` for each slot of a list. -/
structure Shifted (m m' : Mesh) (key : UInt64) (slots : List Nat) (change : Nat → Nat) : Prop where
  degrees_size : m'.degrees.size = m.degrees.size
  sums_size : m'.sums.size = m.sums.size
  inside : ∀ slot ∈ slots, slot < m.degrees.size
  degree : ∀ slot, m'.degree slot = if slot ∈ slots then change (m.degree slot) else m.degree slot
  sum : ∀ slot, m'.sumAt slot = if slot ∈ slots then m.sumAt slot ^^^ key else m.sumAt slot

theorem Shifted.nil (m : Mesh) (key : UInt64) (change : Nat → Nat) :
    Shifted m m key [] change :=
  ⟨rfl, rfl, by simp, by simp, by simp⟩

theorem Shifted.cons {change : Nat → Nat} {slots : List Nat} (hnew : slot ∉ slots)
    (hdegrees : slot < m.degrees.size) (hsums : slot < m.sums.size)
    (h : Shifted (m.modified key slot (change (m.degree slot))) m' key slots change) :
    Shifted m m' key (slot :: slots) change := by
  have hsize : (m.modified key slot (change (m.degree slot))).degrees.size = m.degrees.size := by
    simp [modified]
  refine ⟨by rw [h.degrees_size, hsize], by rw [h.sums_size]; simp [modified], ?_, ?_, ?_⟩
  · intro other hother
    rcases List.mem_cons.1 hother with rfl | hin
    · exact hdegrees
    · exact hsize ▸ h.inside other hin
  · intro other
    rw [h.degree, degree_modified hdegrees]
    by_cases ho : other = slot
    · simp [ho, hnew]
    · simp [ho]
  · intro other
    rw [h.sum, sumAt_modified hsums]
    by_cases ho : other = slot
    · simp [ho, hnew]
    · simp [ho]

theorem joinAll_shifted {slots : List Nat} (hnodup : slots.Nodup)
    (h : slots.foldlM (join key) m = .ok m') : Shifted m m' key slots (· + 1) := by
  induction slots generalizing m with
  | nil =>
    cases h
    exact Shifted.nil _ key _
  | cons slot slots ih =>
    obtain ⟨hnew, hnodup⟩ := List.nodup_cons.1 hnodup
    obtain ⟨mid, hmid, h⟩ := bind_eq_ok_iff.1 h
    obtain ⟨hdegrees, hsums, -, rfl⟩ := join_eq_ok_iff.1 hmid
    exact Shifted.cons hnew hdegrees hsums (ih hnodup h)

theorem leaveAll_shifted {slots stack stack' : List Nat} (hnodup : slots.Nodup)
    (h : slots.foldlM (leave key) (m, stack) = .ok (m', stack')) :
    Shifted m m' key slots (· - 1) := by
  induction slots generalizing m stack with
  | nil =>
    cases h
    exact Shifted.nil _ key _
  | cons slot slots ih =>
    obtain ⟨hnew, hnodup⟩ := List.nodup_cons.1 hnodup
    obtain ⟨⟨mid, between⟩, hmid, h⟩ := bind_eq_ok_iff.1 h
    obtain ⟨hdegrees, hsums, -, rfl, rfl⟩ := leave_eq_ok_iff.1 hmid
    exact Shifted.cons hnew hdegrees hsums (ih hnodup h)

/-! ### Meshes and lists of keys -/

/-- The mesh holds the degrees and the sums of the given keys. -/
structure Describes (third : Nat) (salt : UInt64) (m : Mesh) (keys : List UInt64) : Prop where
  degrees_size : m.degrees.size = 3 * third
  sums_size : m.sums.size = 3 * third
  degree : ∀ slot, m.degree slot = (onSlot third salt slot keys).length
  sum : ∀ slot, m.sumAt slot = xorAll (onSlot third salt slot keys)

theorem Describes.perm (h : Describes third salt m keys) (hperm : keys.Perm keys') :
    Describes third salt m keys' := by
  have hon : ∀ slot, (onSlot third salt slot keys).Perm (onSlot third salt slot keys') :=
    fun slot => hperm.filter _
  exact ⟨h.degrees_size, h.sums_size, fun slot => (h.degree slot).trans (hon slot).length_eq,
    fun slot => (h.sum slot).trans (xorAll_perm (hon slot))⟩

theorem describes_empty (third : Nat) (salt : UInt64) :
    Describes third salt (empty (3 * third)) [] := by
  refine ⟨by simp [empty], by simp [empty], fun slot => ?_, fun slot => ?_⟩
  · by_cases h : slot < 3 * third <;>
      simp [empty, Mesh.degree, onSlot, Array.getD_eq_getD_getElem?, h]
  · by_cases h : slot < 3 * third <;>
      simp [empty, sumAt, onSlot, xorAll, Array.getD_eq_getD_getElem?, h]

/-- Putting a key on its slots adds it to the keys. -/
theorem Describes.addKey (hpos : 0 < third) (h : Describes third salt m keys)
    (hadd : Mesh.addKey third salt m key = .ok m') : Describes third salt m' (key :: keys) := by
  obtain ⟨e, he, hadd⟩ := bind_eq_ok_iff.1 hadd
  obtain rfl := Edge.of_eq_at he
  have hs : Shifted m m' key (slotsOf third salt key) (· + 1) :=
    joinAll_shifted (Edge.slots_nodup hpos _) hadd
  refine ⟨hs.degrees_size.trans h.degrees_size, hs.sums_size.trans h.sums_size, ?_, ?_⟩
  · intro slot
    rw [hs.degree, h.degree]
    by_cases hin : slot ∈ slotsOf third salt key
    · rw [if_pos hin]
      simp [onSlot, hin]
    · rw [if_neg hin]
      simp [onSlot, hin]
  · intro slot
    rw [hs.sum, h.sum]
    by_cases hin : slot ∈ slotsOf third salt key
    · rw [if_pos hin, UInt64.xor_comm]
      simp [onSlot, hin, xorAll]
    · rw [if_neg hin]
      simp [onSlot, hin]

/-- Taking a key off its slots removes it from the keys. -/
theorem Describes.removeKey {stack stack' : List Nat} (hpos : 0 < third)
    (h : Describes third salt m (key :: keys))
    (hremove : Mesh.removeKey third salt m stack key = .ok (m', stack')) :
    Describes third salt m' keys := by
  obtain ⟨e, he, hremove⟩ := bind_eq_ok_iff.1 hremove
  obtain rfl := Edge.of_eq_at he
  have hs : Shifted m m' key (slotsOf third salt key) (· - 1) :=
    leaveAll_shifted (Edge.slots_nodup hpos _) hremove
  refine ⟨hs.degrees_size.trans h.degrees_size, hs.sums_size.trans h.sums_size, ?_, ?_⟩
  · intro slot
    rw [hs.degree, h.degree]
    by_cases hin : slot ∈ slotsOf third salt key
    · rw [if_pos hin]
      simp [onSlot, hin]
    · rw [if_neg hin]
      simp [onSlot, hin]
  · intro slot
    rw [hs.sum, h.sum]
    by_cases hin : slot ∈ slotsOf third salt key
    · have hcons : onSlot third salt slot (key :: keys) = key :: onSlot third salt slot keys := by
        simp [onSlot, hin]
      rw [if_pos hin, hcons, UInt64.xor_comm]
      show key ^^^ (key ^^^ xorAll _) = _
      rw [← UInt64.xor_assoc, UInt64.xor_self, UInt64.zero_xor]
    · rw [if_neg hin]
      simp [onSlot, hin]

/-- A full mesh describes all keys, and each of them has an edge. -/
theorem describes_addKeys (hpos : 0 < third)
    (h : keys.foldlM (Mesh.addKey third salt) (empty (3 * third)) = .ok m) :
    Describes third salt m keys ∧
      ∀ key ∈ keys, Edge.ofKey third salt key = .ok (Edge.at (Hash.salted key salt) third) := by
  have hkeeps := foldlM_keeps
    (fun rest m => ∃ added, Describes third salt m added ∧ (added ++ rest).Perm keys ∧
      ∀ key ∈ added, Edge.ofKey third salt key = .ok (Edge.at (Hash.salted key salt) third))
    (fun key rest m m' ⟨added, hm, hperm, hedges⟩ hadd => by
      refine ⟨key :: added, hm.addKey hpos hadd, (List.perm_middle.symm).trans hperm, ?_⟩
      intro other hother
      rcases List.mem_cons.1 hother with rfl | hin
      · obtain ⟨e, he, -⟩ := bind_eq_ok_iff.1 hadd
        rw [he, Edge.of_eq_at he]
      · exact hedges other hin)
    ⟨[], describes_empty third salt, List.Perm.refl _, by simp⟩ h
  obtain ⟨added, hm, hperm, hedges⟩ := hkeeps
  rw [List.append_nil] at hperm
  exact ⟨hm.perm hperm, fun key hkey => hedges key (hperm.mem_iff.2 hkey)⟩

end Mesh

end ApproxSet.XorSet
