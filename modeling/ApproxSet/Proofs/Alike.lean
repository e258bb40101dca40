import ApproxSet.Proofs.Success

/-!
# Two runs side by side

Two outcomes are alike if both are answers or both are failures, and what they hold is related. Runs
that go through the same steps are compared one step at a time: if the first steps are alike, and
related answers are taken on to outcomes that are alike, then so are the whole runs.

Constructions that end alike without an answer were turned down for related reasons. The one way in
which they can break off together is named by a condition of its own. Runs that keep a journal agree
if they also report the same events.
-/

namespace ApproxSet

/-- How two runs fail alike: both are turned down, for related reasons, or, under a condition, both
overrun a machine word. -/
inductive FailAlike (reasons : Refusal → Refusal → Prop) (overrun : Prop) :
    Failure → Failure → Prop where
  | refused {reason reason' : Refusal} :
      reasons reason reason' → FailAlike reasons overrun (.refused reason) (.refused reason')
  | overrun : overrun → FailAlike reasons overrun (.broken .overflow) (.broken .overflow)

namespace Outcome

variable {α β γ δ : Type}

/-- Both outcomes are answers, which are related, or both are failures, which are related. -/
inductive Alike (failures : Failure → Failure → Prop) (answers : α → β → Prop) :
    Outcome α → Outcome β → Prop where
  | answer {a : α} {b : β} : answers a b → Alike failures answers (.ok a) (.ok b)
  | failure {f g : Failure} : failures f g → Alike failures answers (.error f) (.error g)

variable {failures failures' : Failure → Failure → Prop} {answers answers' : α → β → Prop}
  {results : γ → δ → Prop} {first : Outcome α} {second : Outcome β}

theorem alike_ok_iff {a : α} {b : β} :
    Alike failures answers (.ok a) (.ok b) ↔ answers a b := by
  constructor
  · intro h
    cases h with
    | answer hab => exact hab
  · exact Alike.answer

/-- An outcome that is alike to an answer, but for its failures, is the same answer. -/
theorem Alike.eq_ok {a : α} {second : Outcome α} (h : Alike failures Eq (.ok a) second) :
    second = .ok a := by
  cases h with
  | answer hab => exact congrArg Except.ok hab.symm

/-- An outcome that is alike to an answer is a related answer. -/
theorem Alike.exists_ok {b : β} (h : Alike failures answers first (.ok b)) :
    ∃ a, first = .ok a ∧ answers a b := by
  cases h with
  | answer hab => exact ⟨_, rfl, hab⟩

/-- An outcome that is alike to a failure is a related failure. -/
theorem Alike.exists_error {g : Failure} (h : Alike failures answers first (.error g)) :
    ∃ f, first = .error f ∧ failures f g := by
  cases h with
  | failure hfg => exact ⟨_, rfl, hfg⟩

/-- An outcome that is alike to a refusal is a refusal for a related reason. -/
theorem Alike.eq_refuse {reasons : Refusal → Refusal → Prop} {overrun : Prop} {reason : Refusal}
    (h : Alike (FailAlike reasons overrun) answers (refuse reason) second) :
    ∃ reason', second = refuse reason' ∧ reasons reason reason' := by
  cases h with
  | failure hfg =>
    cases hfg with
    | refused hreason => exact ⟨_, rfl, hreason⟩

theorem Alike.symm (h : Alike failures answers first second) :
    Alike (fun g f => failures f g) (fun b a => answers a b) second first := by
  cases h with
  | answer hab => exact .answer hab
  | failure hfg => exact .failure hfg

theorem Alike.eq {second : Outcome α} (h : Alike failures Eq first second)
    (hfailures : ∀ f g, failures f g → f = g) : first = second := by
  cases h with
  | answer hab => exact congrArg Except.ok hab
  | failure hfg => exact congrArg Except.error (hfailures _ _ hfg)

/-- Runs in lockstep. -/
theorem Alike.bind {next : α → Outcome γ} {next' : β → Outcome δ}
    (h : Alike failures answers first second)
    (hnext : ∀ a b, answers a b → Alike failures results (next a) (next' b)) :
    Alike failures results (first >>= next) (second >>= next') := by
  cases h with
  | answer hab => exact hnext _ _ hab
  | failure hfg => exact .failure hfg

/-- What is known of related answers, and of the runs that gave them, may be used to relate them
in another way; likewise for failures. -/
theorem Alike.imp (h : Alike failures answers first second)
    (hanswers : ∀ a b, first = .ok a → second = .ok b → answers a b → answers' a b)
    (hfailures : ∀ f g, first = .error f → failures f g → failures' f g) :
    Alike failures' answers' first second := by
  cases h with
  | answer hab => exact .answer (hanswers _ _ rfl rfl hab)
  | failure hfg => exact .failure (hfailures _ _ rfl hfg)

theorem alike_demand {reasons : Refusal → Refusal → Prop} {overrun : Prop} {reason : Refusal}
    {condition : Prop} [Decidable condition] (hreason : reasons reason reason) :
    Alike (FailAlike reasons overrun) Eq (demand condition reason) (demand condition reason) := by
  unfold demand
  split
  · exact .answer rfl
  · exact .failure (.refused hreason)

end Outcome

/-! ### Runs with a journal -/

/-- The runs report the same events, and they end with related answers or in the same failure. -/
structure Traced.Agree {α β : Type} (answers : α → β → Prop) (first : Traced α)
    (second : Traced β) : Prop where
  events : first.events = second.events
  outcomes : Outcome.Alike Eq answers first.outcome second.outcome

namespace Traced

variable {α β γ δ : Type} {answers : α → β → Prop} {results : γ → δ → Prop} {first : Traced α}
  {second : Traced β}

/-- Runs that agree go on to runs that agree. -/
theorem Agree.bind {next : α → Traced γ} {next' : β → Traced δ} (h : Agree answers first second)
    (hnext : ∀ a b, answers a b → Agree results (next a) (next' b)) :
    Agree results (first >>= next) (second >>= next') := by
  obtain ⟨events, outcome⟩ := first
  obtain ⟨events', outcome'⟩ := second
  obtain ⟨hevents, houtcomes⟩ := h
  dsimp only at hevents houtcomes
  subst hevents
  cases houtcomes with
  | answer hab =>
    rw [bind_of_ok next rfl, bind_of_ok next' rfl]
    have hrest := hnext _ _ hab
    exact ⟨congrArg (events ++ ·) hrest.events, hrest.outcomes⟩
  | failure hfg =>
    subst hfg
    exact ⟨rfl, .failure rfl⟩

theorem agree_refl (run : Traced α) : Agree Eq run run := by
  obtain ⟨events, outcome⟩ := run
  cases outcome with
  | ok answer => exact ⟨rfl, .answer rfl⟩
  | error failure => exact ⟨rfl, .failure rfl⟩

/-- Runs that agree, with equal answers, are the same. -/
theorem Agree.eq {second : Traced α} (h : Agree Eq first second) : first = second := by
  obtain ⟨events, outcome⟩ := first
  obtain ⟨events', outcome'⟩ := second
  obtain ⟨hevents, houtcomes⟩ := h
  dsimp only at hevents houtcomes
  subst hevents
  cases houtcomes with
  | answer hab => rw [hab]
  | failure hfg => rw [hfg]

end Traced

end ApproxSet
