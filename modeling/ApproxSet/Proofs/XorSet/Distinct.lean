import ApproxSet.Proofs.Refusals
import ApproxSet.Proofs.XorSet.Searching

/-!
# Repeated keys do not peel

A key that was put aside has a slot which no key after it touches. A second copy of the key would
touch that slot, so keys that peel are distinct, whatever the salt. Hence the first attempt to build
a filter from repeated keys fails, and the search for repeated keys that follows it is the end of
the construction: no second attempt is made, whatever the bound on the attempts.

Conversely, nothing but that search blames the keys, and it has nothing to say about distinct ones.
-/

namespace ApproxSet

/-- Whether an event says that a construction starts again under another salt or seed. -/
def Event.isRetry : Event → Bool
  | .peelingStalled .. | .blockStalled .. => true
  | _ => false

/-- A construction ends at its first attempt. It names a key that is repeated, unless the keys
overload the first table that they are put into. -/
structure EndsAtOnce {α : Type} (construction : Traced α) (key : UInt64) (overloaded : Prop) :
    Prop where
  named : ¬overloaded →
    construction.outcome = Outcome.refuse (.invalidArgument (.repeatedKey key))
  degenerate : overloaded →
    ∃ slot degree, construction.outcome = Outcome.refuse (.degenerateSlot slot degree)
  once : ∀ event ∈ construction.events, event.isRetry = false

/-- A construction that ends goes on with nothing. -/
theorem EndsAtOnce.bind {α β : Type} {first : Traced α} {key : UInt64} {overloaded : Prop}
    (h : EndsAtOnce first key overloaded) (next : α → Traced β) :
    EndsAtOnce (first >>= next) key overloaded := by
  by_cases hoverloaded : overloaded
  · obtain ⟨slot, degree, hslot⟩ := h.degenerate hoverloaded
    rw [Traced.bind_of_error next hslot]
    exact ⟨fun hroomy => absurd hoverloaded hroomy, fun _ => ⟨slot, degree, rfl⟩, h.once⟩
  · rw [Traced.bind_of_error next (h.named hoverloaded)]
    exact ⟨fun _ => rfl, fun hfull => absurd hfull hoverloaded, h.once⟩

/-- A refusal that does not blame the arguments. -/
def Refusal.SparesArguments (reason : Refusal) : Prop :=
  ∀ cause, reason ≠ .invalidArgument cause

namespace XorSet

open Outcome

variable {s : Settings} {third width : Nat} {salt key : UInt64} {order : List Peeled}
  {keys rest : List UInt64} {bound : Option Nat}

/-! ### Keys that peel -/

theorem Elimination.keys_nodup (h : Elimination third salt order rest) :
    (order.map Peeled.key).Nodup := by
  rw [List.Nodup, List.pairwise_map]
  refine h.apart.imp_of_mem fun {p later} hp _ hapart hsame => ?_
  exact hapart (hsame ▸ h.own p hp)

/-- Keys that peel are distinct. -/
theorem nodup_of_peeled (hpos : 0 < third) (h : peel keys third salt = .ok (.nothing order)) :
    keys.Nodup := by
  obtain ⟨hperm, helim, -⟩ := peel_eq_nothing hpos h
  exact hperm.nodup_iff.2 helim.keys_nodup

theorem demandDistinct_of_repeated (h : SmallestRepeated keys key) :
    demandDistinct keys = refuse (.invalidArgument (.repeatedKey key)) := by
  rw [demandDistinct, smallestRepeated_eq_some_iff.2 h]

theorem demandDistinct_of_nodup (h : keys.Nodup) : demandDistinct keys = .ok () := by
  rw [demandDistinct, smallestRepeated_eq_none_iff.2 h]

/-! ### Constructions from repeated keys -/

/-- The first attempt is the last one. Repeated keys that fit on the mesh leave a core, and then
the smallest of them is named. -/
theorem search_of_repeated (hpos : 0 < third) (hle : third ≤ 2 ^ 32)
    (h : SmallestRepeated keys key) (bound : Option Nat) (room : Nat) (salt : UInt64) :
    EndsAtOnce (search keys third bound (room + 1) 0 salt) key (¬Light third salt keys) := by
  have hsilent : ∀ event ∈ ([] : List Event), event.isRetry = false :=
    fun event hevent => absurd hevent List.not_mem_nil
  rw [search]
  rcases peel_cases hpos hle keys salt with ⟨hlight, remainder, hpeel⟩ | ⟨hheavy, slot, hrefused⟩
  · cases remainder with
    | nothing order => exact absurd (nodup_of_peeled hpos hpeel) h.not_nodup
    | core peeled =>
      rw [hpeel, Traced.lift_ok_bind, demandDistinctIf, if_pos rfl, demandDistinct_of_repeated h]
      exact ⟨fun _ => rfl, fun hheavy => absurd hlight hheavy, hsilent⟩
  · rw [hrefused]
    exact ⟨fun hlight => absurd hheavy hlight, fun _ => ⟨slot, _, rfl⟩, hsilent⟩

theorem buildTable_of_repeated {σ : Type} [SlotArray σ] (s : Settings) (width : Nat)
    (h : SmallestRepeated keys key) (hthird : thirdFor keys.length = .ok third)
    (hle : third ≤ 2 ^ 32) :
    EndsAtOnce (buildTable s keys width : Traced (Table σ)) key (¬Light third s.salt keys) := by
  have hroom : attemptRoom = 2 ^ 32 - 2 + 1 := rfl
  rw [buildTable, hthird, Traced.lift_ok_bind, hroom]
  exact (search_of_repeated (thirdFor_pos hthird) hle h s.maxAttempts (2 ^ 32 - 2) s.salt).bind _

/-! ### What constructions are turned down for -/

theorem failsFor_edge (hash : UInt64) (third : Nat) :
    FailsFor (· = .broken .overflow) (Edge.of hash third) :=
  (Hash.failsFor_scale _ _).bind fun first _ =>
    (Hash.failsFor_scale _ _).bind fun _ _ => (Checked.failsFor_fit _ _).bind fun second _ =>
      (Checked.failsFor_fit _ _).bind fun _ _ => (Hash.failsFor_scale _ _).bind fun _ _ =>
        (Checked.failsFor_fit _ _).bind fun last _ => .ok (Edge.mk first second last)

theorem refusedFor_edge {reasons : Refusal → Prop} (hash : UInt64) (third : Nat) :
    RefusedFor reasons (Edge.of hash third) :=
  (failsFor_edge hash third).refusedFor nofun

namespace Mesh

theorem refusedFor_change {reasons : Refusal → Prop} (m : Mesh) (key : UInt64)
    (slot degree : Nat) : RefusedFor reasons (m.change key slot degree) := by
  unfold change
  split
  · exact .ok _
  · exact .violate _

/-- Keys go on a mesh unless a slot is overloaded. -/
theorem refusedFor_addKey (third : Nat) (salt : UInt64) (m : Mesh) (key : UInt64) :
    RefusedFor Refusal.SparesArguments (addKey third salt m key) := by
  have hjoin : ∀ m slot, RefusedFor Refusal.SparesArguments (join key m slot) := by
    intro m slot
    exact (RefusedFor.require _ _).bind fun _ _ => (Checked.refusedFor_fit _ _).bind fun degree _ =>
      (RefusedFor.demand nofun).bind fun _ _ => refusedFor_change m key slot degree
  exact (refusedFor_edge _ _).bind fun e _ => .foldlM hjoin e.slots m

theorem refusedFor_removeKey {reasons : Refusal → Prop} (third : Nat) (salt : UInt64) (m : Mesh)
    (stack : List Nat) (key : UInt64) :
    RefusedFor reasons (removeKey third salt m stack key) := by
  have hleave : ∀ state slot, RefusedFor reasons (leave key state slot) := by
    intro state slot
    exact (RefusedFor.require _ _).bind fun _ _ => (Checked.refusedFor_sub _ _).bind fun degree _ =>
      (refusedFor_change _ key slot degree).bind fun m _ => .ok _
  exact (refusedFor_edge _ _).bind fun e _ => .foldlM hleave e.slots (m, stack)

theorem refusedFor_lone? {reasons : Refusal → Prop} (m : Mesh) (stack : List Nat) :
    RefusedFor reasons (m.lone? stack) := by
  induction stack with
  | nil => exact .ok none
  | cons slot stack ih =>
    rw [lone?]
    refine (RefusedFor.require _ _).bind fun _ _ => ?_
    split
    · exact .ok (some (slot, stack))
    · exact ih

end Mesh

theorem refusedFor_drain {reasons : Refusal → Prop} (third : Nat) (salt : UInt64) (left : Nat)
    (mesh : Mesh) (stack : List Nat) : RefusedFor reasons (drain third salt left mesh stack) := by
  induction left generalizing mesh stack with
  | zero =>
    exact (Mesh.refusedFor_lone? mesh stack).bind fun _ _ =>
      (RefusedFor.require _ _).bind fun _ _ => .ok []
  | succ left ih =>
    rw [drain]
    refine (Mesh.refusedFor_lone? mesh stack).bind fun found _ => ?_
    cases found with
    | none => exact .ok []
    | some top =>
      have hsum : RefusedFor reasons (mesh.sum top.1) := by
        unfold Mesh.sum
        split
        · exact .ok _
        · exact .violate _
      exact hsum.bind fun key _ => (Mesh.refusedFor_removeKey third salt mesh top.2 key).bind
        fun state _ => (ih state.1 state.2).bind fun order _ => .ok _

theorem refusedFor_peel (keys : List UInt64) (third : Nat) (salt : UInt64) :
    RefusedFor Refusal.SparesArguments (peel keys third salt) :=
  (Checked.refusedFor_fit _ _).bind fun slots _ =>
    (RefusedFor.foldlM (Mesh.refusedFor_addKey third salt) keys (Mesh.empty slots)).bind
      fun mesh _ => (refusedFor_drain third salt keys.length mesh mesh.loneSlots).bind
        fun _ _ => .ok _

theorem demandDistinctIf_of_nodup (condition : Prop) [Decidable condition] (h : keys.Nodup) :
    demandDistinctIf condition keys = .ok () := by
  unfold demandDistinctIf
  split
  · exact demandDistinct_of_nodup h
  · rfl

theorem refusedFor_search (h : keys.Nodup) (third : Nat) (bound : Option Nat) (room attempts : Nat)
    (salt : UInt64) :
    RefusedFor Refusal.SparesArguments (search keys third bound room attempts salt).outcome := by
  induction room generalizing attempts salt with
  | zero => exact .violate _
  | succ room ih =>
    rw [search, Traced.outcome_bind, Traced.outcome_lift]
    refine (refusedFor_peel keys third salt).bind fun remainder _ => ?_
    cases remainder with
    | nothing order => exact .ok _
    | core peeled =>
      simp only [Traced.outcome_bind, Traced.outcome_lift, Traced.outcome_report, ok_bind,
        demandDistinctIf_of_nodup _ h]
      exact (RefusedFor.demand fun _ => Refusal.noConfusion).bind fun _ _ =>
        ih (attempts + 1) (salt + 1)

/-- Distinct keys are not blamed. -/
theorem refusedFor_buildTable {σ : Type} [SlotArray σ] [LawfulSlots σ] (s : Settings)
    (h : keys.Nodup) (hadmits : LawfulSlots.Admits σ width) (hwidth : width ≤ 64)
    (hzeros : ∀ count,
      RefusedFor Refusal.SparesArguments (SlotArray.zeros count width : Outcome σ)) :
    RefusedFor Refusal.SparesArguments (buildTable s keys width : Traced (Table σ)).outcome := by
  rw [buildTable, Traced.outcome_bind, Traced.outcome_lift]
  have hslots : RefusedFor Refusal.SparesArguments (thirdFor keys.length) :=
    (Checked.refusedFor_fit _ _).bind fun slots _ => .ok (slots / 3)
  refine hslots.bind fun third hthird => ?_
  rw [Traced.outcome_bind]
  refine (refusedFor_search h third s.maxAttempts attemptRoom 0 s.salt).bind fun found hfound => ?_
  rw [Traced.outcome_bind, Traced.outcome_lift]
  refine (hzeros _).bind fun empty hempty => ?_
  -- once there is an array the slots can be solved
  obtain ⟨slots, hsolve, -⟩ := solve_of_peeled (thirdFor_pos hthird) hwidth (search_peels hfound)
    (LawfulSlots.zeros_shows hadmits hempty)
  rw [Traced.outcome_bind, Traced.outcome_lift, hsolve]
  exact .ok _

theorem PackedArray.refusedFor_zeros {reasons : Refusal → Prop} (count width : Nat) :
    RefusedFor reasons (PackedArray.zeros count width) := by
  have hwords : ∀ bits, RefusedFor reasons (Bits.Store.wordsFor bits) :=
    fun _ => (Checked.refusedFor_fit _ _).bind fun padded _ => .ok (padded / 64)
  have hstore : ∀ bits, RefusedFor reasons (Bits.Store.zeros bits) :=
    fun bits => (hwords bits).bind fun count _ => .ok (Bits.Store.mk (Array.replicate count 0) bits)
  exact (Checked.refusedFor_fit _ _).bind fun bits _ => (hstore bits).bind fun store _ => .ok _

end XorSet

end ApproxSet
