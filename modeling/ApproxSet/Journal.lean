import ApproxSet.Failure.Basic

/-!
# The journal of a construction

A construction that tries again, or gives up, says so. What it says is an `Event`; the events of a
run are kept in order beside its outcome, also when the outcome is a failure. Nothing that a
construction does depends on the journal.
-/

namespace ApproxSet

/-- Something that a construction reports on its way. -/
inductive Event where
  /-- Some of the keys could not be peeled, and the next salt is tried. -/
  | peelingStalled (peeled keys : Nat) (salt : UInt64)
  /-- A block got too many keys, and the keys per block are reduced. -/
  | blockOverloaded (keysPerBlock block load : Nat)
  /-- No salt peeled a block, and the keys are split anew. -/
  | blockStalled (block keys : Nat) (seed : UInt64)
  /-- A blocked filter is complete. -/
  | blocksPlaced (blocks keys offset : Nat)
  /-- The race for cache lines had no winner. -/
  | noLineFound
  /-- A fingerprint found no entry. -/
  | evictionGaveUp (rounds keys buckets : Nat)
deriving DecidableEq

namespace Event

/-- Whether the event points at something that the caller may want to change. -/
def isWarning : Event → Bool
  | .noLineFound | .evictionGaveUp .. => true
  | _ => false

/-- The wording of an event. -/
def message : Event → String
  | .peelingStalled peeled keys salt =>
    "xor peeling stalled after " ++ toString peeled ++ " of " ++ toString keys
      ++ " keys with hash index " ++ toString salt ++ "; retrying"
  | .blockOverloaded keysPerBlock block load =>
    toString keysPerBlock ++ " keys per block overloads block " ++ toString block ++ " with "
      ++ toString load ++ " keys; shrinking"
  | .blockStalled block keys seed =>
    "block " ++ toString block ++ " with " ++ toString keys ++ " keys did not peel under seed "
      ++ toString seed ++ "; repartitioning"
  | .blocksPlaced blocks keys offset =>
    "blocked xor8 filter: " ++ toString blocks ++ " blocks for " ++ toString keys
      ++ " keys at offset " ++ toString offset
  | .noLineFound => "cache line probe found no clean signal; assuming offset 0"
  | .evictionGaveUp rounds keys buckets =>
    "cuckoo eviction gave up after " ++ toString rounds ++ " rounds with " ++ toString keys
      ++ " keys in " ++ toString buckets ++ " buckets"

/-- A line of the journal. -/
def line (event : Event) : String :=
  (if event.isWarning then "WARN " else "DEBUG ") ++ event.message

end Event

/-- An outcome with the events on the way to it. -/
structure Traced (α : Type) where
  events : List Event
  outcome : Outcome α

namespace Traced

/-- Goes on after a success, and keeps the events of both parts. -/
def andThen {α β : Type} (first : Traced α) (next : α → Traced β) : Traced β :=
  match first.outcome with
  | .ok value =>
    let second := next value
    ⟨first.events ++ second.events, second.outcome⟩
  | .error failure => ⟨first.events, .error failure⟩

instance : Monad Traced where
  pure value := ⟨[], .ok value⟩
  bind := andThen

/-- An outcome without events. -/
def silent {α : Type} (outcome : Outcome α) : Traced α :=
  ⟨[], outcome⟩

instance : MonadLift Outcome Traced where
  monadLift := silent

/-- Reports an event. -/
def report (event : Event) : Traced Unit :=
  ⟨[event], .ok ()⟩

/-- Turns the request down. -/
def refuse {α : Type} (reason : Refusal) : Traced α :=
  silent (Outcome.refuse reason)

/-! ### Laws -/

theorem andThen_pure {α : Type} (first : Traced α) : andThen first pure = first := by
  rcases first with ⟨events, outcome⟩
  cases outcome with
  | ok value =>
    show Traced.mk (events ++ []) (.ok value) = _
    rw [List.append_nil]
  | error failure => rfl

theorem pure_andThen {α β : Type} (value : α) (next : α → Traced β) :
    andThen (pure value) next = next value := rfl

theorem andThen_assoc {α β γ : Type} (first : Traced α) (next : α → Traced β)
    (last : β → Traced γ) :
    andThen (andThen first next) last = andThen first fun value => andThen (next value) last := by
  rcases first with ⟨events, outcome⟩
  cases outcome with
  | ok value =>
    simp only [andThen]
    cases (next value).outcome with
    | ok result => simp only [List.append_assoc]
    | error failure => rfl
  | error failure => rfl

instance : LawfulMonad Traced :=
  LawfulMonad.mk' Traced andThen_pure pure_andThen andThen_assoc

/-! ### The outcome without the journal -/

theorem outcome_pure {α : Type} (value : α) : (pure value : Traced α).outcome = .ok value := rfl

theorem outcome_bind {α β : Type} (first : Traced α) (next : α → Traced β) :
    (first >>= next).outcome = first.outcome >>= fun value => (next value).outcome := by
  show (andThen first next).outcome = _
  unfold andThen
  cases first.outcome <;> rfl

theorem outcome_report (event : Event) : (report event).outcome = .ok () := rfl

end Traced

end ApproxSet
