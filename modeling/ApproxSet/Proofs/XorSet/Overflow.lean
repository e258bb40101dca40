import ApproxSet.Proofs.XorSet.Loading

/-!
# The slot that overflows

Keys go on a mesh in the order of their list, and each of them goes on its slots in the order of the
thirds. This is the mapping order. If some slot gets more keys than its limit, the keys are refused,
and the slot that is named is the first one in the mapping order that does.
-/

namespace ApproxSet.XorSet

open Outcome

/-- Of all slots in a row, this one is the first to come more often than the limit allows. -/
def Overflows (visits : List Nat) (slot : Nat) : Prop :=
  ∃ before after, visits = before ++ slot :: after ∧ before.count slot = degreeLimit ∧
    ∀ other, before.count other ≤ degreeLimit

variable {third slot slot' : Nat} {salt key : UInt64} {keys : List UInt64} {visits slots : List Nat}

/-- The slot that comes first is no other than the one that does not come later. -/
theorem Overflows.unique (h : Overflows visits slot) (h' : Overflows visits slot') :
    slot = slot' := by
  -- whichever of the two comes later has the other one a time too often before it
  have hlater : ∀ {a b : Nat} {as bs mid : List Nat}, bs = as ++ a :: mid →
      as.count a = degreeLimit → ¬∀ other, bs.count other ≤ degreeLimit := by
    intro a b as bs mid hbs hfull hle
    have ha := hle a
    rw [hbs, List.count_append, List.count_cons_self, hfull] at ha
    omega
  obtain ⟨as, as', hvisits, hfull, hle⟩ := h
  obtain ⟨bs, bs', hvisits', hfull', hle'⟩ := h'
  rw [hvisits] at hvisits'
  rcases List.append_eq_append_iff.1 hvisits' with ⟨mid, hbs, hmid⟩ | ⟨mid, has, hmid⟩
  · cases mid with
    | nil => exact (List.cons.inj hmid).1
    | cons a mid =>
      obtain ⟨rfl, -⟩ := List.cons.inj hmid
      exact absurd hle' (hlater (b := slot) hbs hfull)
  · cases mid with
    | nil => exact (List.cons.inj hmid).1.symm
    | cons b mid =>
      obtain ⟨rfl, -⟩ := List.cons.inj hmid
      exact absurd hle (hlater (b := slot) has hfull')

/-- A slot comes in the mapping order as often as there are keys on it. -/
theorem count_visits (hpos : 0 < third) (keys : List UInt64) :
    (keys.flatMap (slotsOf third salt)).count slot = (onSlot third salt slot keys).length := by
  induction keys with
  | nil => rfl
  | cons key keys ih =>
    have hnodup : (slotsOf third salt key).Nodup := Edge.slots_nodup hpos _
    rw [List.flatMap_cons, List.count_append, hnodup.count, ih, length_onSlot_cons]
    omega

namespace Mesh

variable {m m' : Mesh} {reason : Refusal}

/-- The mesh has counted these slots, none of which came too often. -/
structure Tallies (m : Mesh) (visits : List Nat) : Prop where
  degree : ∀ slot, m.degree slot = visits.count slot
  le : ∀ slot, visits.count slot ≤ degreeLimit

theorem tallies_empty (slots : Nat) : (empty slots).Tallies [] := by
  refine ⟨fun slot => ?_, by simp⟩
  by_cases h : slot < slots <;> simp [empty, Mesh.degree, Array.getD_eq_getD_getElem?, h]

theorem Tallies.join (h : m.Tallies visits) (hjoin : join key m slot = .ok m') :
    m'.Tallies (visits ++ [slot]) := by
  obtain ⟨hdegrees, -, hroom, rfl⟩ := join_eq_ok_iff.1 hjoin
  have hdegree := h.degree
  have hcount : ∀ other, (visits ++ [slot]).count other =
      visits.count other + if other = slot then 1 else 0 := by
    intro other
    by_cases hother : other = slot
    · simp [hother]
    · simp [hother, Ne.symm hother]
  constructor
  · intro other
    rw [degree_modified hdegrees, hcount]
    by_cases hother : other = slot
    · rw [if_pos hother, if_pos hother, hdegree, hother]
    · rw [if_neg hother, if_neg hother, hdegree, Nat.add_zero]
  · intro other
    have hle := h.le other
    rw [hcount]
    by_cases hother : other = slot
    · rw [if_pos hother, hother, ← hdegree]
      omega
    · rw [if_neg hother]
      omega

theorem Tallies.joinAll (h : m.Tallies visits) (hjoin : slots.foldlM (Mesh.join key) m = .ok m') :
    m'.Tallies (visits ++ slots) := by
  induction slots generalizing m visits with
  | nil =>
    cases hjoin
    rwa [List.append_nil]
  | cons slot slots ih =>
    obtain ⟨mid, hmid, hjoin⟩ := bind_eq_ok_iff.1 hjoin
    have hall := ih (h.join hmid) hjoin
    rwa [List.append_assoc] at hall

theorem Tallies.addKeys (h : m.Tallies visits)
    (hadd : keys.foldlM (addKey third salt) m = .ok m') :
    m'.Tallies (visits ++ keys.flatMap (slotsOf third salt)) := by
  induction keys generalizing m visits with
  | nil =>
    cases hadd
    rwa [List.flatMap_nil, List.append_nil]
  | cons key keys ih =>
    rw [List.foldlM_cons] at hadd
    obtain ⟨mid, hmid, hadd⟩ := bind_eq_ok_iff.1 hadd
    obtain ⟨e, he, hmid⟩ := bind_eq_ok_iff.1 hmid
    obtain rfl := Edge.of_eq_at he
    have hown : (slotsOf third salt key).foldlM (Mesh.join key) m = .ok mid := hmid
    rw [List.flatMap_cons, ← List.append_assoc]
    exact ih (h.joinAll hown) hadd

/-- A slot only refuses a key if it is full. -/
theorem join_eq_refuse (h : join key m slot = refuse reason) :
    reason = .degenerateSlot slot (m.degree slot + 1) ∧ degreeLimit < m.degree slot + 1 := by
  unfold join at h
  by_cases hdegrees : slot < m.degrees.size
  · rw [require_bind _ hdegrees] at h
    by_cases hbyte : m.degree slot + 1 < 2 ^ 8
    · rw [Checked.add_eq_ok hbyte, ok_bind] at h
      by_cases hlimit : m.degree slot + 1 ≤ degreeLimit
      · rw [demand_bind _ hlimit, change] at h
        split at h <;> cases h
      · rw [demand_eq_refuse hlimit, refuse_bind] at h
        cases h
        exact ⟨rfl, by omega⟩
    · rw [Checked.add_eq_overflow (by omega)] at h
      cases h
  · rw [require, if_neg hdegrees] at h
    cases h

/-- Keys that do not go on an empty mesh are refused for the first slot to overflow. -/
theorem addKeys_eq_refuse (hpos : 0 < third) (hle : third ≤ 2 ^ 32) {count : Nat}
    (h : keys.foldlM (addKey third salt) (empty count) = refuse reason) :
    ∃ slot, reason = .degenerateSlot slot (degreeLimit + 1) ∧
      Overflows (keys.flatMap (slotsOf third salt)) slot := by
  obtain ⟨before, key, after, mid, rfl, hbefore, hkey⟩ := foldlM_eq_error h
  rw [addKey, Edge.ofKey, Edge.of_eq_ok _ hpos hle, ok_bind] at hkey
  obtain ⟨early, slot, late, last, hslots, hearly, hslot⟩ := foldlM_eq_error hkey
  have htallies := ((tallies_empty count).addKeys hbefore).joinAll hearly
  rw [List.nil_append] at htallies
  obtain ⟨rfl, hover⟩ := join_eq_refuse hslot
  have hdegree := htallies.degree slot
  have hfull := htallies.le slot
  refine ⟨slot, by rw [show last.degree slot = degreeLimit by omega],
    before.flatMap (slotsOf third salt) ++ early,
    late ++ after.flatMap (slotsOf third salt), ?_, by omega, htallies.le⟩
  have hown : slotsOf third salt key = early ++ slot :: late := hslots
  simp [hown]

end Mesh

/-- Keys are refused for the first slot to overflow in the mapping order, and for no other. -/
theorem peel_eq_refuse_iff (hpos : 0 < third) (hle : third ≤ 2 ^ 32) {degree : Nat} :
    peel keys third salt = refuse (.degenerateSlot slot degree) ↔
      degree = degreeLimit + 1 ∧ Overflows (keys.flatMap (slotsOf third salt)) slot := by
  have hmul : Checked.mul 64 3 third = .ok (3 * third) := Checked.mul_eq_ok (by omega)
  have hfirst : ∀ {slot degree}, peel keys third salt = refuse (.degenerateSlot slot degree) →
      degree = degreeLimit + 1 ∧ Overflows (keys.flatMap (slotsOf third salt)) slot := by
    intro slot degree h
    rcases Mesh.addKeys_cases hpos hle keys salt with ⟨hlight, -⟩ | ⟨-, slot', hrefused⟩
    · rcases peel_cases hpos hle keys salt with ⟨-, remainder, hok⟩ | ⟨hheavy, -⟩
      · rw [hok] at h
        cases h
      · exact absurd hlight hheavy
    · obtain ⟨first, hreason, hover⟩ := Mesh.addKeys_eq_refuse hpos hle hrefused
      rw [peel, hmul, ok_bind, hrefused, refuse_bind, hreason] at h
      cases h
      exact ⟨rfl, hover⟩
  refine ⟨hfirst, fun h => ?_⟩
  obtain ⟨hdegree, hover⟩ := h
  obtain ⟨before, after, hvisits, hfull, -⟩ := id hover
  rcases peel_cases hpos hle keys salt with ⟨hlight, -⟩ | ⟨-, slot', hrefused⟩
  · have hload := hlight slot
    rw [← count_visits hpos, hvisits, List.count_append, List.count_cons_self, hfull] at hload
    omega
  · rw [hdegree, hover.unique (hfirst hrefused).2, hrefused]

end ApproxSet.XorSet
