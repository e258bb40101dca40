import ApproxSet.Proofs.XorSet.Peeling

/-!
# How peeling ends

If some slot has more keys than its limit allows, the keys are refused while they are put on the
mesh, whatever their order. Otherwise all of them go on, and peeling ends with an order or with a
core: a lone slot names a key that is on the mesh, and so each of the three slots of that key has a
key to lose. Only slots of the mesh are ever on the stack, and none of them is lone after as many
turns as there are keys.

With thirds of up to `2 ^ 32` slots, peeling keeps all promises of its arithmetic. In longer ones a
hash may be too large to be mapped onto the slots, and peeling breaks off if it comes to such a key
before a slot has too many.
-/

namespace ApproxSet.XorSet

open Outcome

/-- No slot has more keys than the limit. -/
def Light (third : Nat) (salt : UInt64) (keys : List UInt64) : Prop :=
  ∀ slot, (onSlot third salt slot keys).length ≤ degreeLimit

variable {third slot : Nat} {salt key : UInt64} {keys keys' rest added : List UInt64}

theorem light_nil : Light third salt [] := fun _ => Nat.zero_le _

theorem Light.perm (h : Light third salt keys) (hperm : keys.Perm keys') :
    Light third salt keys' := by
  intro slot
  have hload : (onSlot third salt slot keys).Perm (onSlot third salt slot keys') := hperm.filter _
  rw [← hload.length_eq]
  exact h slot

theorem Light.sublist (h : Light third salt keys) (hsub : keys'.Sublist keys) :
    Light third salt keys' := by
  intro slot
  have hload : (onSlot third salt slot keys').Sublist (onSlot third salt slot keys) := hsub.filter _
  exact Nat.le_trans hload.length_le (h slot)

/-- A key adds itself to the loads of its own slots. -/
theorem length_onSlot_cons : (onSlot third salt slot (key :: keys)).length =
    (onSlot third salt slot keys).length + if slot ∈ slotsOf third salt key then 1 else 0 := by
  by_cases h : slot ∈ slotsOf third salt key
  · simp [onSlot, h]
  · simp [onSlot, h]

/-! ### Keys without slots -/

/-- The products that lead to the slots of a key fit into a word. -/
def Placeable (third : Nat) (salt key : UInt64) : Prop :=
  Edge.Fits (Hash.salted key salt) third

/-- There is a key that cannot be placed, and no slot has too many of the keys before it, all of
which can. -/
def BreaksOff (third : Nat) (salt : UInt64) (keys : List UInt64) : Prop :=
  ∃ before key after, keys = before ++ key :: after ∧
    (∀ other ∈ before, Placeable third salt other) ∧ Light third salt before ∧
    ¬Placeable third salt key

/-- In thirds of up to `2 ^ 32` slots all keys can be placed. -/
theorem not_breaksOff (hle : third ≤ 2 ^ 32) : ¬BreaksOff third salt keys := by
  rintro ⟨before, key, after, -, -, -, hkey⟩
  exact hkey (Edge.fits_of_le hle _)

theorem Placeable.edge_eq_ok (h : Placeable third salt key) (hpos : 0 < third)
    (hsmall : 3 * third < 2 ^ 64) :
    Edge.ofKey third salt key = .ok (Edge.at (Hash.salted key salt) third) :=
  Edge.of_eq_ok_of_fits hpos hsmall h

theorem placeable_of_edge {e : Edge} (hpos : 0 < third) (hsmall : 3 * third < 2 ^ 64)
    (h : Edge.ofKey third salt key = .ok e) : Placeable third salt key := by
  by_cases hplace : Placeable third salt key
  · exact hplace
  · rw [Edge.ofKey, Edge.of_eq_overflow hpos hsmall hplace] at h
    exact absurd h violate_ne_ok

namespace Mesh

variable {m m' : Mesh} {slots stack stack' : List Nat}

/-! ### Putting keys on -/

theorem join_of_full (hdegrees : slot < m.degrees.size) (hfull : m.degree slot = degreeLimit) :
    join key m slot = refuse (.degenerateSlot slot (degreeLimit + 1)) := by
  rw [join, require_bind _ hdegrees, hfull]
  rfl

/-- All slots take up a key, or the first full one of them refuses it. -/
theorem joinAll_cases (key : UInt64) (hnodup : slots.Nodup)
    (hdegrees : ∀ slot ∈ slots, slot < m.degrees.size)
    (hsums : ∀ slot ∈ slots, slot < m.sums.size)
    (hle : ∀ slot ∈ slots, m.degree slot ≤ degreeLimit) :
    ((∀ slot ∈ slots, m.degree slot < degreeLimit) ∧ ∃ m', slots.foldlM (join key) m = .ok m') ∨
      ∃ slot ∈ slots, m.degree slot = degreeLimit ∧
        slots.foldlM (join key) m = refuse (.degenerateSlot slot (degreeLimit + 1)) := by
  induction slots generalizing m with
  | nil => exact .inl ⟨by simp, m, rfl⟩
  | cons slot slots ih =>
    obtain ⟨hnew, hnodup⟩ := List.nodup_cons.1 hnodup
    simp only [List.forall_mem_cons] at hdegrees hsums hle
    rw [List.foldlM_cons]
    by_cases hroom : m.degree slot < degreeLimit
    · have hrest : ∀ other ∈ slots, (m.modified key slot (m.degree slot + 1)).degree other =
          m.degree other := by
        intro other hother
        have hne : other ≠ slot := fun heq => hnew (heq ▸ hother)
        rw [degree_modified hdegrees.1, if_neg hne]
      rw [join_eq_ok_iff.2 ⟨hdegrees.1, hsums.1, hroom, rfl⟩, ok_bind]
      rcases ih (m := m.modified key slot (m.degree slot + 1)) hnodup
          (by simpa [modified] using hdegrees.2) (by simpa [modified] using hsums.2)
          (fun other hother => hrest other hother ▸ hle.2 other hother) with
        ⟨hlight, hok⟩ | ⟨full, hmem, hfull, hrefused⟩
      · refine .inl ⟨?_, hok⟩
        simp only [List.forall_mem_cons]
        exact ⟨hroom, fun other hother => hrest other hother ▸ hlight other hother⟩
      · exact .inr ⟨full, List.mem_cons_of_mem _ hmem, hrest full hmem ▸ hfull, hrefused⟩
    · have hfull : m.degree slot = degreeLimit := by omega
      rw [join_of_full hdegrees.1 hfull]
      exact .inr ⟨slot, List.mem_cons_self, hfull, rfl⟩

/-- A key that can be placed goes on the mesh just if no slot gets too many keys by it. -/
theorem addKey_cases (hpos : 0 < third) (hsmall : 3 * third < 2 ^ 64)
    (hplace : Placeable third salt key) (h : m.Describes third salt keys)
    (hlight : Light third salt keys) :
    (Light third salt (key :: keys) ∧ ∃ m', addKey third salt m key = .ok m') ∨
      (¬Light third salt (key :: keys) ∧
        ∃ slot, addKey third salt m key = refuse (.degenerateSlot slot (degreeLimit + 1))) := by
  have hnodup : (slotsOf third salt key).Nodup := Edge.slots_nodup hpos _
  have hinside : ∀ slot ∈ slotsOf third salt key, slot < 3 * third := Edge.slots_lt hpos _
  have hadd : addKey third salt m key = (slotsOf third salt key).foldlM (join key) m := by
    rw [addKey, hplace.edge_eq_ok hpos hsmall, ok_bind, slotsOf]
  rw [hadd]
  rcases joinAll_cases (m := m) key hnodup (h.degrees_size ▸ hinside)
      (h.sums_size ▸ hinside) (fun slot _ => h.degree slot ▸ hlight slot) with
    ⟨hroom, hok⟩ | ⟨slot, hmem, hfull, hrefused⟩
  · refine .inl ⟨fun slot => ?_, hok⟩
    rw [length_onSlot_cons]
    split
    · have hlt := hroom slot ‹_›
      rw [h.degree] at hlt
      omega
    · exact hlight slot
  · refine .inr ⟨fun hall => ?_, slot, hrefused⟩
    have hover := hall slot
    rw [length_onSlot_cons, if_pos hmem, ← h.degree, hfull] at hover
    omega

theorem addKey_eq_overflow (hpos : 0 < third) (hsmall : 3 * third < 2 ^ 64)
    (hplace : ¬Placeable third salt key) : addKey third salt m key = violate .overflow := by
  rw [addKey, Edge.ofKey, Edge.of_eq_overflow hpos hsmall hplace]
  rfl

/-- No slot of a mesh has more keys than the limit. -/
theorem light_addKeys (hpos : 0 < third) (hsmall : 3 * third < 2 ^ 64)
    (h : keys.foldlM (addKey third salt) (empty (3 * third)) = .ok m) :
    Light third salt keys := by
  have hstep : ∀ (key : UInt64) (_ : List UInt64) (m m' : Mesh),
      (∃ added, m.Describes third salt added ∧ Light third salt added) →
      addKey third salt m key = .ok m' →
      ∃ added, m'.Describes third salt added ∧ Light third salt added := by
    intro key _ m m' hm hadd
    obtain ⟨added, hm, hlight⟩ := hm
    obtain ⟨e, hedge, -⟩ := bind_eq_ok_iff.1 hadd
    have hplace := placeable_of_edge hpos hsmall hedge
    rcases addKey_cases hpos hsmall hplace hm hlight with ⟨hlight', -⟩ | ⟨-, slot, hrefused⟩
    · exact ⟨key :: added, hm.addKey hpos hadd, hlight'⟩
    · rw [hrefused] at hadd
      exact absurd hadd refuse_ne_ok
  obtain ⟨added, hm, hlight⟩ := foldlM_keeps
    (fun (_ : List UInt64) m => ∃ added, m.Describes third salt added ∧ Light third salt added)
    hstep ⟨[], describes_empty third salt, light_nil⟩ h
  intro slot
  rw [← (describes_addKeys hpos h).1.degree, hm.degree]
  exact hlight slot

/-- If no slot has too many keys, none has too many of a key and those before it. -/
theorem light_of_append {before after : List UInt64}
    (h : Light third salt (before ++ key :: after)) : Light third salt (key :: before) :=
  (h.perm List.perm_middle).sublist (List.sublist_append_left (key :: before) after)

/-- Keys that can be placed go on an empty mesh if no slot has too many of them. -/
theorem addKeys_eq_ok (hpos : 0 < third) (hsmall : 3 * third < 2 ^ 64)
    (hplaces : ∀ key ∈ keys, Placeable third salt key) (hlight : Light third salt keys) :
    ∃ m, keys.foldlM (addKey third salt) (empty (3 * third)) = .ok m := by
  cases hfold : keys.foldlM (addKey third salt) (empty (3 * third)) with
  | ok m => exact ⟨m, rfl⟩
  | error failure =>
    obtain ⟨before, key, after, mid, rfl, hbefore, hkey⟩ := foldlM_eq_error hfold
    rcases addKey_cases hpos hsmall (hplaces key (by simp)) (describes_addKeys hpos hbefore).1
        (light_addKeys hpos hsmall hbefore) with ⟨-, m, hm⟩ | ⟨hheavy, -⟩
    · rw [hm] at hkey
      cases hkey
    · exact absurd (light_of_append hlight) hheavy

theorem addKeys_of_breaksOff (hpos : 0 < third) (hsmall : 3 * third < 2 ^ 64)
    (h : BreaksOff third salt keys) :
    keys.foldlM (addKey third salt) (empty (3 * third)) = violate .overflow := by
  obtain ⟨before, key, after, rfl, hplaces, hlight, hkey⟩ := h
  obtain ⟨m, hm⟩ := addKeys_eq_ok hpos hsmall hplaces hlight
  rw [List.foldlM_append, hm, ok_bind, List.foldlM_cons, addKey_eq_overflow hpos hsmall hkey]
  rfl

/-- If the keys do not come to one that cannot be placed, they go on an empty mesh just if no slot
has too many of them. -/
theorem addKeys_cases_of_not_breaksOff (hpos : 0 < third) (hsmall : 3 * third < 2 ^ 64)
    (h : ¬BreaksOff third salt keys) :
    (Light third salt keys ∧ (∀ key ∈ keys, Placeable third salt key) ∧
        ∃ m, keys.foldlM (addKey third salt) (empty (3 * third)) = .ok m) ∨
      (¬Light third salt keys ∧ ∃ slot, keys.foldlM (addKey third salt) (empty (3 * third)) =
        refuse (.degenerateSlot slot (degreeLimit + 1))) := by
  have hplaces : ∀ {keys : List UInt64} {m : Mesh},
      keys.foldlM (addKey third salt) (empty (3 * third)) = .ok m →
      ∀ key ∈ keys, Placeable third salt key := fun hm key hkey =>
    placeable_of_edge hpos hsmall ((describes_addKeys hpos hm).2 key hkey)
  cases hfold : keys.foldlM (addKey third salt) (empty (3 * third)) with
  | ok m => exact .inl ⟨light_addKeys hpos hsmall hfold, hplaces hfold, m, rfl⟩
  | error failure =>
    obtain ⟨before, key, after, mid, rfl, hbefore, hkey⟩ := foldlM_eq_error hfold
    have hlight := light_addKeys hpos hsmall hbefore
    have hplace : Placeable third salt key := Classical.not_not.1 fun hplace =>
      h ⟨before, key, after, rfl, hplaces hbefore, hlight, hplace⟩
    rcases addKey_cases hpos hsmall hplace (describes_addKeys hpos hbefore).1 hlight with
      ⟨-, m, hm⟩ | ⟨hheavy, slot, hrefused⟩
    · rw [hm] at hkey
      cases hkey
    · rw [hrefused] at hkey
      exact .inr ⟨fun hall => hheavy (light_of_append hall), slot, hkey.symm⟩

/-- All keys go on an empty mesh just if no slot has too many of them. -/
theorem addKeys_cases (hpos : 0 < third) (hle : third ≤ 2 ^ 32) (keys : List UInt64)
    (salt : UInt64) :
    (Light third salt keys ∧
        ∃ m, keys.foldlM (addKey third salt) (empty (3 * third)) = .ok m) ∨
      (¬Light third salt keys ∧ ∃ slot, keys.foldlM (addKey third salt) (empty (3 * third)) =
        refuse (.degenerateSlot slot (degreeLimit + 1))) := by
  have hplaces : ¬BreaksOff third salt keys := not_breaksOff hle
  rcases addKeys_cases_of_not_breaksOff hpos (by omega) hplaces with
    ⟨hlight, -, hok⟩ | hrefused
  · exact .inl ⟨hlight, hok⟩
  · exact .inr hrefused

/-! ### Taking keys off -/

theorem leaveAll_eq_ok (hnodup : slots.Nodup) (hdegrees : ∀ slot ∈ slots, slot < m.degrees.size)
    (hsums : ∀ slot ∈ slots, slot < m.sums.size) (hkeys : ∀ slot ∈ slots, 0 < m.degree slot) :
    ∃ result, slots.foldlM (leave key) (m, stack) = .ok result := by
  induction slots generalizing m stack with
  | nil => exact ⟨(m, stack), rfl⟩
  | cons slot slots ih =>
    obtain ⟨hnew, hnodup⟩ := List.nodup_cons.1 hnodup
    simp only [List.forall_mem_cons] at hdegrees hsums hkeys
    rw [List.foldlM_cons, leave_eq_ok_iff.2 ⟨hdegrees.1, hsums.1, hkeys.1, rfl, rfl⟩, ok_bind]
    refine ih hnodup (by simpa [modified] using hdegrees.2) (by simpa [modified] using hsums.2) ?_
    intro other hother
    have hne : other ≠ slot := fun heq => hnew (heq ▸ hother)
    rw [degree_modified hdegrees.1, if_neg hne]
    exact hkeys.2 other hother

/-- A key of the mesh can be taken off. -/
theorem removeKey_eq_ok (hpos : 0 < third) (hsmall : 3 * third < 2 ^ 64)
    (hplace : Placeable third salt key) (stack : List Nat)
    (h : m.Describes third salt (key :: keys)) :
    ∃ result, removeKey third salt m stack key = .ok result := by
  have hinside : ∀ slot ∈ slotsOf third salt key, slot < 3 * third := Edge.slots_lt hpos _
  rw [removeKey, hplace.edge_eq_ok hpos hsmall, ok_bind]
  refine leaveAll_eq_ok (Edge.slots_nodup hpos _) (h.degrees_size ▸ hinside)
    (h.sums_size ▸ hinside) fun slot hslot => ?_
  have hmem : slot ∈ slotsOf third salt key := hslot
  rw [h.degree, length_onSlot_cons, if_pos hmem]
  omega

theorem lt_size_of_degree (h : m.degree slot ≠ 0) : slot < m.degrees.size := by
  by_cases hin : slot < m.degrees.size
  · exact hin
  · exact absurd (by simp [Mesh.degree, Array.getD_eq_getD_getElem?, hin]) h

/-- Slots are pushed on the stack just if a single key is left on them. -/
theorem leaveAll_stack (hnodup : slots.Nodup)
    (h : slots.foldlM (leave key) (m, stack) = .ok (m', stack')) (other : Nat) :
    other ∈ stack' ↔ other ∈ stack ∨ other ∈ slots ∧ m'.degree other = 1 := by
  induction slots generalizing m stack with
  | nil =>
    cases h
    simp
  | cons slot slots ih =>
    have hshifted := leaveAll_shifted hnodup h
    obtain ⟨hnew, hnodup⟩ := List.nodup_cons.1 hnodup
    obtain ⟨⟨mid, between⟩, hmid, h⟩ := bind_eq_ok_iff.1 h
    obtain ⟨-, -, hkeys, rfl, rfl⟩ := leave_eq_ok_iff.1 hmid
    have hslot : m'.degree slot = 1 ↔ m.degree slot = 2 := by
      rw [hshifted.degree, if_pos List.mem_cons_self]
      omega
    rw [ih hnodup h, List.mem_cons]
    by_cases hother : other = slot
    · subst hother
      rw [hslot]
      by_cases htwo : m.degree other = 2
      · simp [htwo]
      · simp [htwo, hnew]
    · by_cases htwo : m.degree slot = 2
      · simp [htwo, hother]
      · simp [htwo, hother]

theorem removeKey_stack (hpos : 0 < third)
    (h : removeKey third salt m stack key = .ok (m', stack')) (other : Nat) :
    other ∈ stack' ↔ other ∈ stack ∨ other ∈ slotsOf third salt key ∧ m'.degree other = 1 := by
  obtain ⟨e, he, h⟩ := bind_eq_ok_iff.1 h
  obtain rfl := Edge.of_eq_at he
  exact leaveAll_stack (Edge.slots_nodup hpos _) h other

/-- A stack of slots of the mesh can be searched. -/
theorem lone?_eq_ok (h : ∀ slot ∈ stack, slot < m.degrees.size) :
    ∃ found, m.lone? stack = .ok found := by
  induction stack with
  | nil => exact ⟨none, rfl⟩
  | cons slot stack ih =>
    simp only [List.forall_mem_cons] at h
    rw [lone?, require_bind _ h.1]
    by_cases hlone : m.degree slot = 1
    · rw [if_pos hlone]
      exact ⟨_, rfl⟩
    · rw [if_neg hlone]
      exact ih h.2

theorem mem_loneSlots : slot ∈ m.loneSlots ↔ m.degree slot = 1 := by
  have hsize : m.degree slot = 1 → slot < m.degrees.size := fun h => lt_size_of_degree (by omega)
  simpa [loneSlots] using hsize

end Mesh

/-! ### Peeling -/

theorem drain_eq_ok (hpos : 0 < third) (hsmall : 3 * third < 2 ^ 64) (left : Nat)
    {stack : List Nat} {mesh : Mesh} (h : mesh.Describes third salt keys)
    (hplaces : ∀ key ∈ keys, Placeable third salt key) (hstack : ∀ slot ∈ stack, slot < 3 * third)
    (hleft : keys.length ≤ left) : ∃ order, drain third salt left mesh stack = .ok order := by
  obtain ⟨found, hfound⟩ := Mesh.lone?_eq_ok (h.degrees_size.symm ▸ hstack)
  induction left generalizing mesh stack keys found with
  | zero =>
    obtain rfl : keys = [] := List.length_eq_zero_iff.1 (by omega)
    rw [drain, hfound, ok_bind]
    rcases Mesh.lone?_cases hfound with ⟨rfl, -⟩ | ⟨-, slot, -, -, -, -, hlone⟩
    · exact ⟨[], rfl⟩
    · -- no key is left to be alone on this slot
      exact absurd (h.lone hlone).1 List.not_mem_nil
  | succ left ih =>
    rw [drain, hfound, ok_bind]
    rcases Mesh.lone?_cases hfound with ⟨rfl, -⟩ | ⟨passed, slot, below, rfl, rfl, -, hlone⟩
    · exact ⟨[], rfl⟩
    · have hslot : slot < mesh.sums.size := by
        rw [h.sums_size]
        exact hstack slot (by simp)
      have hmem := (h.lone hlone).1
      have herase := List.perm_cons_erase hmem
      have hlength := herase.length_eq
      rw [List.length_cons] at hlength
      have hmesh := h.perm herase
      obtain ⟨⟨mesh', stack'⟩, hremove⟩ :=
        Mesh.removeKey_eq_ok hpos hsmall (hplaces _ hmem) below hmesh
      have hmesh' := hmesh.removeKey hpos hremove
      have hstack' : ∀ other ∈ stack', other < 3 * third := by
        intro other hother
        rcases (Mesh.removeKey_stack hpos hremove other).1 hother with hbelow | ⟨hown, -⟩
        · exact hstack other (by simp [hbelow])
        · exact Edge.slots_lt hpos _ other hown
      obtain ⟨found', hfound'⟩ := Mesh.lone?_eq_ok (hmesh'.degrees_size.symm ▸ hstack')
      have hplaces' : ∀ key ∈ keys.erase (mesh.sumAt slot), Placeable third salt key :=
        fun key hkey => hplaces key (List.mem_of_mem_erase hkey)
      obtain ⟨order, horder⟩ := ih hmesh' hplaces' hstack' (by omega) found' hfound'
      dsimp only
      rw [Mesh.sum_eq_ok_iff.2 ⟨hslot, rfl⟩, ok_bind, hremove, ok_bind]
      dsimp only
      rw [horder]
      exact ⟨_, rfl⟩

theorem peel_of_breaksOff (hpos : 0 < third) (hsmall : 3 * third < 2 ^ 64)
    (h : BreaksOff third salt keys) : peel keys third salt = violate .overflow := by
  rw [peel, Checked.mul_eq_ok hsmall, ok_bind, Mesh.addKeys_of_breaksOff hpos hsmall h]
  rfl

/-- If peeling does not come to a key that cannot be placed, it ends with an order or a core if no
slot has too many keys, and is refused otherwise. -/
theorem peel_cases_of_not_breaksOff (hpos : 0 < third) (hsmall : 3 * third < 2 ^ 64)
    (h : ¬BreaksOff third salt keys) :
    (Light third salt keys ∧ ∃ remainder, peel keys third salt = .ok remainder) ∨
      (¬Light third salt keys ∧
        ∃ slot, peel keys third salt = refuse (.degenerateSlot slot (degreeLimit + 1))) := by
  rw [peel, Checked.mul_eq_ok hsmall, ok_bind]
  rcases Mesh.addKeys_cases_of_not_breaksOff hpos hsmall h with
    ⟨hlight, hplaces, m, hm⟩ | ⟨hheavy, slot, hrefused⟩
  · have hdescribes := (Mesh.describes_addKeys hpos hm).1
    have hstack : ∀ slot ∈ m.loneSlots, slot < 3 * third := by
      intro slot hslot
      have hlone := Mesh.mem_loneSlots.1 hslot
      rw [← hdescribes.degrees_size]
      exact Mesh.lt_size_of_degree (by omega)
    obtain ⟨order, horder⟩ :=
      drain_eq_ok hpos hsmall keys.length hdescribes hplaces hstack (Nat.le_refl _)
    rw [hm, ok_bind, horder, ok_bind]
    exact .inl ⟨hlight, _, rfl⟩
  · rw [hrefused]
    exact .inr ⟨hheavy, slot, rfl⟩

/-- Peeling ends with an order or a core if no slot has too many keys, and is refused otherwise. -/
theorem peel_cases (hpos : 0 < third) (hle : third ≤ 2 ^ 32) (keys : List UInt64)
    (salt : UInt64) :
    (Light third salt keys ∧ ∃ remainder, peel keys third salt = .ok remainder) ∨
      (¬Light third salt keys ∧
        ∃ slot, peel keys third salt = refuse (.degenerateSlot slot (degreeLimit + 1))) :=
  peel_cases_of_not_breaksOff hpos (by omega) (not_breaksOff hle)

end ApproxSet.XorSet
