import ApproxSet.Proofs.XorSet.Mesh

/-!
# Peeling orders

The keys that were put aside, in their order, are an elimination order: each has a slot of its own,
which no key after it touches. The invariant of the loop is that the mesh describes the keys that
are left, so a slot of degree one has its only key as its sum. If peeling is complete, the order
holds just the keys that were given.
-/

namespace ApproxSet.XorSet

open Outcome

/-- Peeled keys with slots of their own, which neither a later key nor one of the `rest` touches. -/
structure Elimination (third : Nat) (salt : UInt64) (order : List Peeled) (rest : List UInt64) :
    Prop where
  own : ∀ p ∈ order, p.slot ∈ slotsOf third salt p.key
  apart : order.Pairwise fun p later => p.slot ∉ slotsOf third salt later.key
  clear : ∀ p ∈ order, ∀ key ∈ rest, p.slot ∉ slotsOf third salt key

variable {third : Nat} {salt : UInt64} {order : List Peeled} {keys rest : List UInt64}

theorem Elimination.nil : Elimination third salt [] rest :=
  ⟨by simp, .nil, by simp⟩

theorem Elimination.cons {p : Peeled} (hown : p.slot ∈ slotsOf third salt p.key)
    (hlater : ∀ key ∈ order.map Peeled.key ++ rest, p.slot ∉ slotsOf third salt key)
    (h : Elimination third salt order rest) : Elimination third salt (p :: order) rest := by
  refine ⟨?_, ?_, ?_⟩
  · intro q hq
    rcases List.mem_cons.1 hq with rfl | hin
    · exact hown
    · exact h.own q hin
  · refine List.pairwise_cons.2 ⟨fun later hin => hlater _ ?_, h.apart⟩
    exact List.mem_append_left _ (List.mem_map_of_mem hin)
  · intro q hq key hkey
    rcases List.mem_cons.1 hq with rfl | hin
    · exact hlater key (List.mem_append_right _ hkey)
    · exact h.clear q hin key hkey

/-- A slot with a single key has that key as its sum, and no other key touches it. -/
theorem Mesh.Describes.lone {m : Mesh} {slot : Nat} (h : m.Describes third salt keys)
    (hlone : m.degree slot = 1) :
    m.sumAt slot ∈ keys ∧ slot ∈ slotsOf third salt (m.sumAt slot) ∧
      ∀ key ∈ keys.erase (m.sumAt slot), slot ∉ slotsOf third salt key := by
  rw [h.degree] at hlone
  obtain ⟨key, hkey⟩ := List.length_eq_one_iff.1 hlone
  have hsum : m.sumAt slot = key := by
    rw [h.sum, hkey]
    exact UInt64.xor_zero
  have hmem : key ∈ keys ∧ slot ∈ slotsOf third salt key := by
    have hin : key ∈ onSlot third salt slot keys := by simp [hkey]
    simpa [onSlot] using hin
  rw [hsum]
  refine ⟨hmem.1, hmem.2, fun other hother htouch => ?_⟩
  have hperm := (List.perm_cons_erase hmem.1).filter fun k => decide (slot ∈ slotsOf third salt k)
  have hnone : (onSlot third salt slot (keys.erase key)).length = 0 := by
    have hlength := hperm.length_eq
    simp only [List.filter_cons, hmem.2, decide_true, if_true, List.length_cons] at hlength
    unfold onSlot at hlone ⊢
    omega
  have hin : other ∈ onSlot third salt slot (keys.erase key) := by simp [onSlot, hother, htouch]
  exact absurd (List.length_pos_of_mem hin) (by omega)

/-! ### The stack -/

section Stack

variable {mesh mesh' : Mesh} {slot left : Nat} {key : UInt64} {stack stack' : List Nat}

/-- The stack is taken off up to its first lone slot, or altogether. -/
theorem Mesh.lone?_cases {found : Option (Nat × List Nat)} (h : mesh.lone? stack = .ok found) :
    (found = none ∧ ∀ slot ∈ stack, mesh.degree slot ≠ 1) ∨
      ∃ passed slot below, found = some (slot, below) ∧ stack = passed ++ slot :: below ∧
        (∀ other ∈ passed, mesh.degree other ≠ 1) ∧ mesh.degree slot = 1 := by
  induction stack with
  | nil =>
    cases h
    exact .inl ⟨rfl, by simp⟩
  | cons top stack ih =>
    rw [lone?] at h
    obtain ⟨-, h⟩ := require_bind_eq_ok_iff.1 h
    by_cases hlone : mesh.degree top = 1
    · rw [if_pos hlone] at h
      cases h
      exact .inr ⟨[], top, stack, rfl, rfl, by simp, hlone⟩
    · rw [if_neg hlone] at h
      rcases ih h with ⟨hnone, hall⟩ | ⟨passed, slot, below, hsome, rfl, hpassed, hslot⟩
      · exact .inl ⟨hnone, by simpa [hlone] using hall⟩
      · exact .inr ⟨top :: passed, slot, below, hsome, rfl, by simpa [hlone] using hpassed, hslot⟩

/-- A turn of the loop finds no lone slot, or it puts the key of the first one aside. -/
theorem drain_succ_cases (h : drain third salt (left + 1) mesh stack = .ok order) :
    (order = [] ∧ ∀ slot ∈ stack, mesh.degree slot ≠ 1) ∨
      ∃ passed slot below mesh' stack' order', stack = passed ++ slot :: below ∧
        (∀ other ∈ passed, mesh.degree other ≠ 1) ∧ mesh.degree slot = 1 ∧
        mesh.removeKey third salt below (mesh.sumAt slot) = .ok (mesh', stack') ∧
        drain third salt left mesh' stack' = .ok order' ∧
        order = ⟨mesh.sumAt slot, slot⟩ :: order' := by
  rw [drain] at h
  obtain ⟨found, hfound, h⟩ := bind_eq_ok_iff.1 h
  rcases Mesh.lone?_cases hfound with
    ⟨rfl, hall⟩ | ⟨passed, slot, below, rfl, hstack, hpassed, hlone⟩
  · cases h
    exact .inl ⟨rfl, hall⟩
  · obtain ⟨key, hkey, h⟩ := bind_eq_ok_iff.1 h
    obtain ⟨⟨mesh', stack'⟩, hremove, h⟩ := bind_eq_ok_iff.1 h
    obtain ⟨order', horder, h⟩ := bind_eq_ok_iff.1 h
    cases h
    obtain ⟨-, rfl⟩ := Mesh.sum_eq_ok_iff.1 hkey
    exact .inr ⟨passed, slot, below, mesh', stack', order', hstack, hpassed, hlone, hremove,
      horder, rfl⟩

theorem drain_zero_eq_nil (h : drain third salt 0 mesh stack = .ok order) : order = [] := by
  obtain ⟨found, -, h⟩ := bind_eq_ok_iff.1 h
  obtain ⟨-, h⟩ := require_bind_eq_ok_iff.1 h
  cases h
  rfl

end Stack

/-! ### Orders -/

/-- The keys that were put aside and those that are left make up the keys on the mesh. -/
theorem drain_eliminates (hpos : 0 < third) :
    ∀ {left : Nat} {mesh : Mesh} {stack : List Nat} {order : List Peeled} {keys : List UInt64},
      mesh.Describes third salt keys → drain third salt left mesh stack = .ok order →
      ∃ rest, keys.Perm (order.map Peeled.key ++ rest) ∧ Elimination third salt order rest := by
  intro left
  induction left with
  | zero =>
    intro mesh stack order keys _ h
    rw [drain_zero_eq_nil h]
    exact ⟨keys, by simp, .nil⟩
  | succ left ih =>
    intro mesh stack order keys hmesh h
    rcases drain_succ_cases h with
      ⟨rfl, -⟩ | ⟨passed, slot, below, mesh', stack', order', -, -, hlone, hremove, horder, rfl⟩
    · exact ⟨keys, by simp, .nil⟩
    · obtain ⟨hmem, hown, hapart⟩ := hmesh.lone hlone
      have hperm := List.perm_cons_erase hmem
      obtain ⟨rest, hrest, helim⟩ := ih ((hmesh.perm hperm).removeKey hpos hremove) horder
      refine ⟨rest, hperm.trans (hrest.cons _), helim.cons hown fun key hkey => ?_⟩
      exact hapart key (hrest.mem_iff.2 hkey)

/-- Peeling of all keys yields an elimination order of them, and each key has an edge. -/
theorem peel_eq_nothing (hpos : 0 < third) (h : peel keys third salt = .ok (.nothing order)) :
    keys.Perm (order.map Peeled.key) ∧ Elimination third salt order [] ∧
      ∀ key ∈ keys, Edge.ofKey third salt key = .ok (Edge.at (Hash.salted key salt) third) := by
  obtain ⟨slots, hslots, h⟩ := bind_eq_ok_iff.1 h
  obtain ⟨-, rfl⟩ := Checked.mul_eq_ok_iff.1 hslots
  obtain ⟨mesh, hmesh, h⟩ := bind_eq_ok_iff.1 h
  obtain ⟨order', horder, h⟩ := bind_eq_ok_iff.1 h
  obtain ⟨hdescribes, hedges⟩ := Mesh.describes_addKeys hpos hmesh
  obtain ⟨rest, hperm, helim⟩ := drain_eliminates hpos hdescribes horder
  rw [pure_eq_ok, Except.ok.injEq] at h
  split at h
  case isTrue hlength =>
    cases h
    have hrest : rest = [] := by
      have hsum := hperm.length_eq
      simp only [List.length_append, List.length_map] at hsum
      exact List.length_eq_zero_iff.1 (by omega)
    subst hrest
    rw [List.append_nil] at hperm
    exact ⟨hperm, helim, hedges⟩
  case isFalse => cases h

end ApproxSet.XorSet
