import ApproxSet.Hash.Mix
import ApproxSet.Proofs.Success

/-!
# What a request is turned down for

A construction is made of many steps, and only few of them turn a request down or break a promise.
The failures of the whole are those of its steps: each rule here goes from the parts of an outcome
to the outcome. Where only the refusals are of interest, broken promises may be of any sort, so the
steps of the arithmetic and the accesses to tables count for nothing. Where all promises but one are
known to be kept, the ends of a construction can be listed in full.
-/

namespace ApproxSet

namespace Outcome

variable {α β σ : Type}

/-! ### Failures of both sorts -/

/-- If the outcome is a failure, it is one of these. -/
def FailsFor (failures : Failure → Prop) (outcome : Outcome α) : Prop :=
  ∀ failure, outcome = .error failure → failures failure

variable {failures more : Failure → Prop}

theorem FailsFor.ok (value : α) : FailsFor failures (.ok value) := nofun

theorem FailsFor.refuse {reason : Refusal} (h : failures (.refused reason)) :
    FailsFor failures (Outcome.refuse reason : Outcome α) := by
  intro failure hfailure
  cases hfailure
  exact h

theorem FailsFor.violate {breach : Breach} (h : failures (.broken breach)) :
    FailsFor failures (Outcome.violate breach : Outcome α) := by
  intro failure hfailure
  cases hfailure
  exact h

theorem FailsFor.demand {condition : Prop} [Decidable condition] {reason : Refusal}
    (h : failures (.refused reason)) : FailsFor failures (Outcome.demand condition reason) := by
  unfold Outcome.demand
  split
  · exact .ok ()
  · exact .refuse h

theorem FailsFor.require {condition : Prop} [Decidable condition] {breach : Breach}
    (h : failures (.broken breach)) : FailsFor failures (Outcome.require condition breach) := by
  unfold Outcome.require
  split
  · exact .ok ()
  · exact .violate h

theorem FailsFor.mono {outcome : Outcome α} (h : FailsFor failures outcome)
    (hle : ∀ failure, failures failure → more failure) : FailsFor more outcome :=
  fun failure hfailure => hle failure (h failure hfailure)

theorem FailsFor.bind {first : Outcome α} {next : α → Outcome β}
    (hfirst : FailsFor failures first)
    (hnext : ∀ value, first = .ok value → FailsFor failures (next value)) :
    FailsFor failures (first >>= next) := by
  cases first with
  | ok value => exact hnext value rfl
  | error failure =>
    intro other h
    cases h
    exact hfirst failure rfl

theorem FailsFor.mapM {step : α → Outcome β} (h : ∀ a, FailsFor failures (step a))
    (xs : List α) : FailsFor failures (xs.mapM step) := by
  induction xs with
  | nil => exact .ok []
  | cons a xs ih =>
    rw [List.mapM_cons]
    exact (h a).bind fun b _ => ih.bind fun bs _ => .ok (b :: bs)

/-! ### Refusals -/

variable {reasons : Refusal → Prop}

/-- If the outcome is a refusal, it is one for these reasons. -/
def RefusedFor (reasons : Refusal → Prop) (outcome : Outcome α) : Prop :=
  ∀ reason, outcome = refuse reason → reasons reason

/-- Refusals for these reasons, and broken promises of any sort. -/
def OrBroken (reasons : Refusal → Prop) : Failure → Prop
  | .refused reason => reasons reason
  | .broken _ => True

theorem refusedFor_iff {outcome : Outcome α} :
    RefusedFor reasons outcome ↔ FailsFor (OrBroken reasons) outcome := by
  constructor
  · intro h failure hfailure
    cases failure with
    | refused reason => exact h reason hfailure
    | broken breach => trivial
  · intro h reason hreason
    exact h _ hreason

theorem RefusedFor.ok (value : α) : RefusedFor reasons (.ok value) := nofun

theorem RefusedFor.violate (breach : Breach) :
    RefusedFor reasons (Outcome.violate breach : Outcome α) := nofun

theorem RefusedFor.refuse {reason : Refusal} (h : reasons reason) :
    RefusedFor reasons (Outcome.refuse reason : Outcome α) :=
  refusedFor_iff.2 (.refuse h)

theorem RefusedFor.require (condition : Prop) [Decidable condition] (breach : Breach) :
    RefusedFor reasons (Outcome.require condition breach) :=
  refusedFor_iff.2 (.require trivial)

theorem RefusedFor.demand {condition : Prop} [Decidable condition] {reason : Refusal}
    (h : reasons reason) : RefusedFor reasons (Outcome.demand condition reason) :=
  refusedFor_iff.2 (.demand h)

theorem RefusedFor.bind {first : Outcome α} {next : α → Outcome β}
    (hfirst : RefusedFor reasons first)
    (hnext : ∀ value, first = .ok value → RefusedFor reasons (next value)) :
    RefusedFor reasons (first >>= next) := by
  simp only [refusedFor_iff] at hfirst hnext ⊢
  exact hfirst.bind hnext

theorem RefusedFor.mapM {step : α → Outcome β} (h : ∀ a, RefusedFor reasons (step a))
    (xs : List α) : RefusedFor reasons (xs.mapM step) := by
  simp only [refusedFor_iff] at h ⊢
  exact .mapM h xs

theorem RefusedFor.foldlM {step : σ → α → Outcome σ}
    (h : ∀ s a, RefusedFor reasons (step s a)) (xs : List α) (s : σ) :
    RefusedFor reasons (xs.foldlM step s) := by
  induction xs generalizing s with
  | nil => exact .ok s
  | cons a xs ih =>
    rw [List.foldlM_cons]
    exact (h s a).bind fun s' _ => ih s'

/-- The refusals are among the failures. -/
theorem FailsFor.refusedFor {outcome : Outcome α} (h : FailsFor failures outcome)
    (hreasons : ∀ reason, failures (.refused reason) → reasons reason) :
    RefusedFor reasons outcome :=
  fun reason hreason => hreasons reason (h _ hreason)

/-! ### All ends -/

/-- Under a condition a number overruns its word. Otherwise there is an answer, or a refusal for one
of these reasons. -/
inductive Ends (reasons : Refusal → Prop) (overrun : Prop) : Outcome α → Prop where
  | overrun : overrun → Ends reasons overrun (Outcome.violate .overflow)
  | answer (value : α) : ¬overrun → Ends reasons overrun (.ok value)
  | refused {reason : Refusal} :
      ¬overrun → reasons reason → Ends reasons overrun (Outcome.refuse reason)

theorem Ends.bind {overrun : Prop} {first : Outcome α} {next : α → Outcome β}
    (hfirst : Ends reasons overrun first)
    (hnext : ∀ value, first = .ok value → ¬overrun → Ends reasons overrun (next value)) :
    Ends reasons overrun (first >>= next) := by
  cases hfirst with
  | overrun hoverrun => exact .overrun hoverrun
  | answer value hfits => exact hnext value rfl hfits
  | refused hfits hreason => exact .refused hfits hreason

theorem Ends.eq_overflow {overrun : Prop} {outcome : Outcome α}
    (h : Ends reasons overrun outcome) (hoverrun : overrun) : outcome = violate .overflow := by
  cases h with
  | overrun _ => rfl
  | answer _ hfits => exact absurd hoverrun hfits
  | refused hfits _ => exact absurd hoverrun hfits

theorem Ends.ok_or_refused {overrun : Prop} {outcome : Outcome α}
    (h : Ends reasons overrun outcome) (hfits : ¬overrun) :
    (∃ value, outcome = .ok value) ∨ ∃ reason, reasons reason ∧ outcome = refuse reason := by
  cases h with
  | overrun hoverrun => exact absurd hoverrun hfits
  | answer value => exact .inl ⟨value, rfl⟩
  | refused _ hreason => exact .inr ⟨_, hreason, rfl⟩

end Outcome

/-! ### Checked arithmetic -/

namespace Checked

open Outcome

variable {reasons : Refusal → Prop}

theorem failsFor_fit (width value : Nat) : FailsFor (· = .broken .overflow) (fit width value) := by
  unfold fit
  split
  · exact .ok value
  · exact .violate rfl

theorem failsFor_sub (a b : Nat) : FailsFor (· = .broken .overflow) (sub a b) := by
  unfold sub
  split
  · exact .ok (a - b)
  · exact .violate rfl

theorem refusedFor_fit (width value : Nat) : RefusedFor reasons (fit width value) :=
  (failsFor_fit width value).refusedFor nofun

theorem refusedFor_sub (a b : Nat) : RefusedFor reasons (sub a b) :=
  (failsFor_sub a b).refusedFor nofun

end Checked

theorem Hash.failsFor_scale (hash : UInt32) (n : Nat) :
    (Hash.scale hash n).FailsFor (· = .broken .overflow) :=
  (Checked.failsFor_fit _ _).bind fun product _ => .ok (product / 2 ^ 32)

theorem Hash.refusedFor_scale {reasons : Refusal → Prop} (hash : UInt32) (n : Nat) :
    (Hash.scale hash n).RefusedFor reasons :=
  (Hash.failsFor_scale hash n).refusedFor nofun

end ApproxSet
