import ApproxSet.Proofs.Numbers.Sizes
import ApproxSet.Proofs.XorSet.Attempts

/-!
# How constructions from distinct keys end

Distinct keys are turned down for one reason alone: under the salt of some attempt, a slot has more
keys than it may. If there is no bound on the attempts, the other end of a construction is a table,
unless a number overruns its word. For up to `2 ^ 32` keys this can only be the counter of the
attempts. For more of them it can also be the number of slots, a product that leads to the slots of
a key, or the number of the bits of all slots.
-/

namespace ApproxSet.XorSet

open Outcome

variable {s : Settings} {keys : List UInt64} {third width given : Nat}

/-- The refusal names a slot that has one key too many. -/
def NamesFullSlot (reason : Refusal) : Prop :=
  ∃ slot, reason = .degenerateSlot slot (degreeLimit + 1)

/-! ### Thirds of a given length -/

/-- What overruns a word while keys are searched for a salt and solved in thirds of a given length,
where `room` says that a word holds the number of the bits of all slots. -/
inductive Settings.OverrunsIn (s : Settings) (room : Prop) (keys : List UInt64) (third : Nat) :
    Prop where
  /-- The counter of the attempts. -/
  | attempts (endless : s.Endless keys third) : s.OverrunsIn room keys third
  /-- A product that leads to a slot, in an attempt that the search comes to. -/
  | place {n : Nat} (reached : s.Reaches keys third n)
      (breaks : BreaksOff third (s.saltAt n) keys) : s.OverrunsIn room keys third
  /-- The number of bits, after an attempt in which the keys peel. -/
  | bits {n : Nat} (reached : s.Reaches keys third n) (peels : Peels keys third (s.saltAt n))
      (large : ¬room) : s.OverrunsIn room keys third

section Arrays

variable {σ : Type} [SlotArray σ] {room : Prop}

/-- What overruns a word breaks the construction off. -/
theorem Settings.OverrunsIn.eq_overflow (hpos : 0 < third) (hsmall : 3 * third < 2 ^ 64)
    (hunbounded : s.maxAttempts = none)
    (hroomless : ¬room → (SlotArray.zeros (3 * third) width : Outcome σ) = violate .overflow)
    (h : s.OverrunsIn room keys third) :
    ((search keys third s.maxAttempts attemptRoom 0 s.salt).outcome >>= complete third width :
      Outcome (Table σ)) = violate .overflow := by
  cases h with
  | attempts endless =>
    rw [search_of_endless endless]
    rfl
  | place reached breaks =>
    rw [reached.search_of_breaksOff hpos hsmall breaks]
    rfl
  | bits reached peels large =>
    obtain ⟨order, hpeel⟩ := peels
    rw [(Ending.peeled reached hpeel).outcome_eq (by simp [hunbounded]), ok_bind, complete,
      hroomless large]
    rfl

/-- Without a bound on the attempts, distinct keys leave three ways for a construction to end. -/
theorem complete_ends [LawfulSlots σ] (hpos : 0 < third) (hsmall : 3 * third < 2 ^ 64)
    (hdistinct : keys.Nodup) (hunbounded : s.maxAttempts = none)
    (hadmits : LawfulSlots.Admits σ width) (hwidth : width ≤ 64)
    (hroom : room → ∃ empty : σ, SlotArray.zeros (3 * third) width = .ok empty)
    (hroomless : ¬room → (SlotArray.zeros (3 * third) width : Outcome σ) = violate .overflow) :
    Ends NamesFullSlot (s.OverrunsIn room keys third)
      ((search keys third s.maxAttempts attemptRoom 0 s.salt).outcome >>= complete third width :
        Outcome (Table σ)) := by
  by_cases hover : s.OverrunsIn room keys third
  · rw [hover.eq_overflow hpos hsmall hunbounded hroomless]
    exact .overrun hover
  · have hpositive : ∀ limit ∈ s.maxAttempts, 0 < limit := by simp [hunbounded]
    have hplaces : ∀ n, s.Reaches keys third n → ¬BreaksOff third (s.saltAt n) keys :=
      fun n hreached hbreaks => hover (.place hreached hbreaks)
    obtain ⟨outcome, hending⟩ := exists_ending_of_not_breaksOff hpos hsmall hpositive hplaces
    rw [hending.outcome_eq hpositive]
    cases hending with
    | @peeled n order reached peels =>
      let found : Solution := ⟨s.saltAt n, order⟩
      have hpeel : peel keys third found.salt = .ok (.nothing found.order) := peels
      have hfits : room := by
        by_contra hlarge
        exact hover (.bits reached ⟨_, peels⟩ hlarge)
      obtain ⟨empty, hempty⟩ := hroom hfits
      obtain ⟨t, ht, -⟩ := complete_eq_ok hpos hadmits hwidth hempty hpeel
      rw [ok_bind, ht]
      exact .answer t hover
    | full reached overloads =>
      rcases peel_cases_of_not_breaksOff hpos hsmall (hplaces _ reached) with
        ⟨-, remainder, hpeel⟩ | ⟨-, slot, hpeel⟩
      · cases overloads.symm.trans hpeel
      · cases overloads.symm.trans hpeel
        exact .refused hover ⟨_, rfl⟩
    | repeated stalls smallest => exact absurd hdistinct smallest.not_nodup
    | exhausted bounded =>
      rw [hunbounded] at bounded
      cases bounded
    | overrun endless => exact absurd (.attempts endless) hover

end Arrays

/-! ### Thirds for a number of keys -/

/-- What overruns a word while a filter is built: the number of slots, or something in the thirds of
that length. -/
def Settings.Overruns (s : Settings) (room : Nat → Prop) (keys : List UInt64) : Prop :=
  2 ^ 64 ≤ exactSlots keys.length ∨
    s.OverrunsIn (room (exactSlots keys.length / 3)) keys (exactSlots keys.length / 3)

theorem buildTable_ends {σ : Type} [SlotArray σ] [LawfulSlots σ] {room : Nat → Prop}
    (hdistinct : keys.Nodup) (hunbounded : s.maxAttempts = none)
    (hadmits : LawfulSlots.Admits σ width) (hwidth : width ≤ 64)
    (hroom : ∀ third, room third → ∃ empty : σ, SlotArray.zeros (3 * third) width = .ok empty)
    (hroomless : ∀ third, ¬room third →
      (SlotArray.zeros (3 * third) width : Outcome σ) = violate .overflow) :
    Ends NamesFullSlot (s.Overruns room keys)
      (buildTable s keys width : Traced (Table σ)).outcome := by
  by_cases hsmall : exactSlots keys.length < 2 ^ 64
  · have hthird := thirdFor_eq_ok_iff.2 ⟨hsmall, rfl⟩
    have hends := complete_ends (s := s) (thirdFor_pos hthird) (by omega) hdistinct hunbounded
      hadmits hwidth (hroom _) (hroomless _)
    rw [buildTable_outcome hthird, Settings.Overruns, propext (or_iff_right (by omega))]
    exact hends
  · have hlarge := Nat.le_of_not_lt hsmall
    rw [buildTable, Traced.outcome_bind, Traced.outcome_lift, thirdFor_eq_overflow hlarge]
    exact .overrun (.inl hlarge)

/-! ### The three kinds with the usual settings -/

/-- A word holds the number of the bits of all slots. -/
def BitsFit (width third : Nat) : Prop :=
  3 * third * width + 63 < 2 ^ 64

theorem packedOf_ends (hdistinct : keys.Nodup) (hpos : 0 < width) (hle : width ≤ 32) :
    Ends NamesFullSlot (Settings.Overruns { width := width } (BitsFit width) keys)
      (packedOf keys width).outcome := by
  have hwidth : width ≤ 64 := by omega
  have hadmits : LawfulSlots.Admits PackedArray width := ⟨hpos, hwidth⟩
  rw [packedOf, buildPacked_outcome ⟨hpos, hle⟩]
  exact buildTable_ends hdistinct rfl hadmits hwidth
    (fun _ hfits => PackedArray.zeros_eq_ok hfits)
    fun _ hlarge => PackedArray.zeros_eq_overflow (Nat.le_of_not_lt hlarge)

theorem bytesOf_ends (hdistinct : keys.Nodup) :
    Ends NamesFullSlot (Settings.Overruns {} (fun _ => True) keys) (bytesOf keys).outcome :=
  buildTable_ends hdistinct rfl rfl (by decide) (fun _ _ => ⟨_, rfl⟩)
    fun _ hfalse => absurd trivial hfalse

theorem wordsOf_ends (hdistinct : keys.Nodup) :
    Ends NamesFullSlot (Settings.Overruns {} (fun _ => True) keys) (wordsOf keys).outcome :=
  buildTable_ends hdistinct rfl rfl (by decide) (fun _ _ => ⟨_, rfl⟩)
    fun _ hfalse => absurd trivial hfalse

/-! ### Few keys -/

/-- With the usual settings, the keys do not peel in as many attempts as can be counted. -/
def Stuck (keys : List UInt64) : Prop :=
  ∃ third, thirdFor keys.length = .ok third ∧ Settings.Endless {} keys third

/-- Up to `2 ^ 32` keys can only be stuck. Neither the first salt nor the bound on the attempts
depends on the fingerprint width. -/
theorem overruns_iff_stuck {room : Nat → Prop} (h : keys.length ≤ 2 ^ 32)
    (hroom : ∀ third ≤ 2 ^ 32, room third) :
    Settings.Overruns { width := given } room keys ↔ Stuck keys := by
  obtain ⟨third, hthird, hle⟩ := thirdFor_eq_ok h
  obtain ⟨hsmall, hslots⟩ := thirdFor_eq_ok_iff.1 hthird
  rw [Settings.Overruns, hslots]
  constructor
  · rintro (hlarge | hover)
    · omega
    · cases hover with
      | attempts endless => exact ⟨third, hthird, endless⟩
      | place _ breaks => exact absurd breaks (not_breaksOff hle)
      | bits _ _ large => exact absurd (hroom third hle) large
  · rintro ⟨third', hthird', hendless⟩
    cases hthird.symm.trans hthird'
    exact .inr (.attempts hendless)

end ApproxSet.XorSet
