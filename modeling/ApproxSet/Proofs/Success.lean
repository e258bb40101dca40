import ApproxSet.Checked
import ApproxSet.Journal

/-!
# From a success back to its steps

An outcome is built from steps, each of which may fail. The lemmas here go from the success of the
whole to the success of each step, for outcomes, for traced outcomes and for checked arithmetic, and
from the steps of a fold to what the whole fold keeps.
-/

namespace ApproxSet

/-! ### Outcomes -/

namespace Outcome

variable {α β σ : Type}

theorem ok_bind (value : α) (next : α → Outcome β) : (Except.ok value >>= next) = next value := rfl

theorem pure_eq_ok (value : α) : (pure value : Outcome α) = .ok value := rfl

theorem bind_eq_ok_iff {first : Outcome α} {next : α → Outcome β} {result : β} :
    (first >>= next) = .ok result ↔ ∃ value, first = .ok value ∧ next value = .ok result := by
  cases first with
  | ok value => simp [ok_bind]
  | error failure =>
    show Except.error failure = Except.ok result ↔ _
    simp

theorem refuse_bind (reason : Refusal) (next : α → Outcome β) :
    (refuse reason >>= next) = refuse reason := rfl

theorem demand_eq_refuse {condition : Prop} [Decidable condition] {reason : Refusal}
    (h : ¬condition) : demand condition reason = refuse reason :=
  if_neg h

theorem violate_ne_ok {breach : Breach} {value : α} :
    ¬(violate breach : Outcome α) = .ok value := by
  simp [violate]

theorem refuse_ne_ok {reason : Refusal} {value : α} :
    ¬(refuse reason : Outcome α) = .ok value := by
  simp [refuse]

theorem require_bind_eq_ok_iff {condition : Prop} [Decidable condition] {breach : Breach}
    {next : Unit → Outcome α} {result : α} :
    (require condition breach >>= next) = .ok result ↔ condition ∧ next () = .ok result := by
  rw [bind_eq_ok_iff]
  constructor
  · rintro ⟨⟨⟩, h, hnext⟩
    exact ⟨require_eq_ok_iff.1 h, hnext⟩
  · rintro ⟨h, hnext⟩
    exact ⟨(), require_eq_ok_iff.2 h, hnext⟩

theorem demand_bind_eq_ok_iff {condition : Prop} [Decidable condition] {reason : Refusal}
    {next : Unit → Outcome α} {result : α} :
    (demand condition reason >>= next) = .ok result ↔ condition ∧ next () = .ok result := by
  rw [bind_eq_ok_iff]
  constructor
  · rintro ⟨⟨⟩, h, hnext⟩
    exact ⟨demand_eq_ok_iff.1 h, hnext⟩
  · rintro ⟨h, hnext⟩
    exact ⟨(), demand_eq_ok_iff.2 h, hnext⟩

/-- For outcomes that are evaluated: a success has a value. -/
theorem exists_eq_ok {outcome : Outcome α} (h : outcome.toOption.isSome = true) :
    ∃ value, outcome = .ok value := by
  cases outcome with
  | ok value => exact ⟨value, rfl⟩
  | error failure => cases h

/-- What every step of a fold keeps, the whole fold keeps. The invariant also speaks of the elements
that are still to come. -/
theorem foldlM_keeps {step : σ → α → Outcome σ} (keeps : List α → σ → Prop)
    (one : ∀ a rest s s', keeps (a :: rest) s → step s a = .ok s' → keeps rest s') :
    ∀ {xs : List α} {s s' : σ}, keeps xs s → xs.foldlM step s = .ok s' → keeps [] s' := by
  intro xs
  induction xs with
  | nil =>
    intro s s' hs h
    rw [List.foldlM_nil, pure_eq_ok] at h
    cases h
    exact hs
  | cons a rest ih =>
    intro s s' hs h
    rw [List.foldlM_cons] at h
    obtain ⟨mid, hmid, hrest⟩ := bind_eq_ok_iff.1 h
    exact ih (one a rest s mid hs hmid) hrest

/-- A fold that fails has failed at one of the elements, and succeeded on those before it. -/
theorem foldlM_eq_error {step : σ → α → Outcome σ} {failure : Failure} {xs : List α} {s : σ}
    (h : xs.foldlM step s = .error failure) :
    ∃ before x after mid, xs = before ++ x :: after ∧ before.foldlM step s = .ok mid ∧
      step mid x = .error failure := by
  induction xs generalizing s with
  | nil => cases h
  | cons a rest ih =>
    rw [List.foldlM_cons] at h
    cases hstep : step s a with
    | error failure' =>
      rw [hstep] at h
      exact ⟨[], a, rest, s, rfl, rfl, hstep.trans h⟩
    | ok s' =>
      rw [hstep, ok_bind] at h
      obtain ⟨before, x, after, mid, rfl, hbefore, hx⟩ := ih h
      refine ⟨a :: before, x, after, mid, rfl, ?_, hx⟩
      rw [List.foldlM_cons, hstep, ok_bind, hbefore]

/-- If a step succeeds on each element, the list of its answers is the image of the list. -/
theorem mapM_eq_ok_map {step : α → Outcome β} {answer : α → β} :
    ∀ {xs : List α}, (∀ a ∈ xs, step a = .ok (answer a)) → xs.mapM step = .ok (xs.map answer) := by
  intro xs
  induction xs with
  | nil => exact fun _ => rfl
  | cons a rest ih =>
    intro h
    rw [List.mapM_cons, h a (by simp), ok_bind, ih fun b hb => h b (by simp [hb])]
    rfl

/-- If all answers of a step are known beforehand, a successful pass answers the image of a list. -/
theorem mapM_eq_map {step : α → Outcome β} {answer : α → β}
    (known : ∀ a b, step a = .ok b → b = answer a) :
    ∀ {xs : List α} {ys : List β}, xs.mapM step = .ok ys →
      ys = xs.map answer ∧ ∀ a ∈ xs, step a = .ok (answer a) := by
  intro xs
  induction xs with
  | nil =>
    intro ys h
    rw [List.mapM_nil, pure_eq_ok] at h
    cases h
    exact ⟨rfl, by simp⟩
  | cons a rest ih =>
    intro ys h
    rw [List.mapM_cons] at h
    obtain ⟨b, hb, h⟩ := bind_eq_ok_iff.1 h
    obtain ⟨bs, hbs, h⟩ := bind_eq_ok_iff.1 h
    rw [pure_eq_ok] at h
    cases h
    obtain ⟨rfl, hall⟩ := ih hbs
    obtain rfl := known a b hb
    exact ⟨rfl, fun c hc => (List.mem_cons.1 hc).elim (fun e => e ▸ hb) (hall c)⟩

end Outcome

/-! ### Traced outcomes -/

namespace Traced

open Outcome

variable {α β : Type}

@[simp]
theorem outcome_lift (outcome : Outcome α) : (liftM outcome : Traced α).outcome = outcome := rfl

theorem outcome_bind_eq_ok_iff {first : Traced α} {next : α → Traced β} {result : β} :
    (first >>= next).outcome = .ok result ↔
      ∃ value, first.outcome = .ok value ∧ (next value).outcome = .ok result := by
  rw [outcome_bind, bind_eq_ok_iff]

theorem lift_ok_bind (value : α) (next : α → Traced β) :
    ((liftM (Except.ok value : Outcome α) : Traced α) >>= next) = next value := rfl

/-- The events of both parts stand in a row. -/
theorem bind_of_ok {first : Traced α} {value : α} (next : α → Traced β)
    (h : first.outcome = .ok value) :
    first >>= next = ⟨first.events ++ (next value).events, (next value).outcome⟩ := by
  show andThen first next = _
  rw [andThen, h]

/-- What follows a failure does not report anything. -/
theorem bind_of_error {first : Traced α} {failure : Failure} (next : α → Traced β)
    (h : first.outcome = .error failure) :
    first >>= next = ⟨first.events, .error failure⟩ := by
  show andThen first next = _
  rw [andThen, h]

end Traced

/-! ### Checked arithmetic -/

namespace Checked

variable {width a b result : Nat}

theorem add_eq_ok_iff : add width a b = .ok result ↔ a + b < 2 ^ width ∧ a + b = result :=
  fit_eq_ok_iff

theorem mul_eq_ok_iff : mul width a b = .ok result ↔ a * b < 2 ^ width ∧ a * b = result :=
  fit_eq_ok_iff

theorem add_eq_ok (h : a + b < 2 ^ width) : add width a b = .ok (a + b) :=
  fit_eq_ok h

theorem mul_eq_ok (h : a * b < 2 ^ width) : mul width a b = .ok (a * b) :=
  fit_eq_ok h

theorem fit_eq_overflow {value : Nat} (h : 2 ^ width ≤ value) :
    fit width value = Outcome.violate .overflow := by
  rw [fit, if_neg (by omega)]

theorem add_eq_overflow (h : 2 ^ width ≤ a + b) : add width a b = Outcome.violate .overflow :=
  fit_eq_overflow h

theorem mul_eq_overflow (h : 2 ^ width ≤ a * b) : mul width a b = Outcome.violate .overflow :=
  fit_eq_overflow h

theorem sub_eq_ok_iff : sub a b = .ok result ↔ b ≤ a ∧ a - b = result := by
  unfold sub
  split
  · simp [*]
  · simp [Outcome.violate, *]

end Checked

end ApproxSet
