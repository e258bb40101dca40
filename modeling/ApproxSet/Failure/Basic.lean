/-!
# Refusals and breaches

Building, decoding and querying a filter end in one of three ways. Either there is an answer, or
the request is turned down for a reason that the caller is told (a `Refusal`), or a promise is
broken (a `Breach`): a number leaves its machine width, an index its table, or an argument the
range that its operation demands.

Only the causes stand here. Their wording is in `ApproxSet.Failure.Message`.
-/

namespace ApproxSet

/-- Why an argument of a construction cannot be used. -/
inductive Misuse where
  /-- A Bloom filter with no bits at all for each key. -/
  | noBitsPerKey
  /-- A fingerprint width outside `1` to `32`. -/
  | fingerprintWidth (given : Nat)
  /-- Buckets without entries. -/
  | emptyBucket
  /-- A load factor that is not in the interval from `0`, exclusive, to `1`, inclusive. -/
  | loadFactor (given : Float)
  /-- A key that occurs twice where the keys have to be distinct. -/
  | repeatedKey (key : UInt64)
  /-- A name that no kind of filter has. -/
  | unknownName (name : String)
deriving DecidableEq

/-- What is wrong with the bytes of a serialized filter. -/
inductive Damage where
  /-- The slot count is zero or no multiple of three. -/
  | slotCount (given : Nat)
  /-- The fingerprint width is above `32`. -/
  | fingerprintWidth (given : Nat)
  /-- More nonzero slots are announced than there are slots. -/
  | nonzeroCount (given slots : Nat)
  /-- The list of nonzero values holds a zero. -/
  | zeroValue
  /-- The bitmap marks more slots than were announced. -/
  | marksMore (announced : Nat)
  /-- The bitmap marks fewer slots than were announced. -/
  | marksFewer (announced : Nat)
  /-- At least a byte follows the filter. -/
  | trailingBits (count : Nat)
  /-- The range coded stream does not open with a zero byte. -/
  | rangeStart (bit : Nat)
  /-- A delta code opens with seven zero bits. -/
  | deltaLength (bit : Nat)
  /-- A delta code describes a value wider than a word. -/
  | deltaWidth (bit width : Nat)
deriving DecidableEq

/-- A reason to turn a request down. -/
inductive Refusal where
  | invalidArgument (cause : Misuse)
  /-- A slot, or a block of a blocked filter, collected far too many keys. -/
  | degenerateSlot (slot degree : Nat)
  /-- An insertion used up its evictions. -/
  | evictionLimit (rounds : Nat)
  /-- No attempt within the bound peeled the keys. -/
  | attemptsExhausted (attempts : Nat)
  /-- The input ends inside the value that starts at this bit. -/
  | truncated (bit : Nat)
  | corrupt (cause : Damage)
deriving DecidableEq

/-- A broken promise of the caller or of the arithmetic. -/
inductive Breach where
  /-- A result does not fit the width of its machine word. -/
  | overflow
  /-- An index lies outside its table. -/
  | outOfBounds
  /-- A condition without a wording of its own does not hold. -/
  | unmet
  /-- A table would take `2 ^ 63` bytes or more. -/
  | capacity
  /-- A bit field is empty or wider than a word. -/
  | fieldWidth (width : Nat)
  /-- A bit field reaches beyond the store. -/
  | fieldRange (first stop length : Nat)
  /-- A value has bits beyond its field. -/
  | valueTooWide (width : Nat)
  /-- A field that has to be empty is not. -/
  | notZeroed (bit : Nat)
  /-- A field does not read back as the value just written. -/
  | readback (bit : Nat)
  /-- Zero has no delta code. -/
  | deltaOfZero
  /-- A construction is allowed no attempt. -/
  | noAttempts
  /-- The largest salt has no serialized form. -/
  | largestSalt (salt : UInt64)
  /-- A buffer is too short to be raced on. -/
  | probeBuffer
deriving DecidableEq

/-- The two ways not to give an answer. -/
inductive Failure where
  | refused (reason : Refusal)
  | broken (breach : Breach)
deriving DecidableEq

/-- An answer, or the failure that stands in its place. -/
abbrev Outcome (α : Type) := Except Failure α

instance {α : Type} [DecidableEq α] : DecidableEq (Outcome α)
  | .ok a, .ok b =>
    if h : a = b then .isTrue (congrArg Except.ok h)
    else .isFalse fun same => h (Except.ok.inj same)
  | .error a, .error b =>
    if h : a = b then .isTrue (congrArg Except.error h)
    else .isFalse fun same => h (Except.error.inj same)
  | .ok _, .error _ => .isFalse nofun
  | .error _, .ok _ => .isFalse nofun

namespace Outcome

/-- Turns the request down. -/
def refuse {α : Type} (reason : Refusal) : Outcome α :=
  .error (.refused reason)

/-- Reports a broken promise. -/
def violate {α : Type} (breach : Breach) : Outcome α :=
  .error (.broken breach)

/-- Succeeds exactly when the condition holds. The caller has promised it. -/
def require (condition : Prop) [Decidable condition] (breach : Breach) : Outcome Unit :=
  if condition then .ok () else violate breach

/-- Succeeds exactly when the condition holds. The caller is told why it has to. -/
def demand (condition : Prop) [Decidable condition] (reason : Refusal) : Outcome Unit :=
  if condition then .ok () else refuse reason

theorem require_eq_ok_iff {condition : Prop} [Decidable condition] {breach : Breach} :
    require condition breach = .ok () ↔ condition := by
  unfold require
  split <;> simp_all [violate]

theorem demand_eq_ok_iff {condition : Prop} [Decidable condition] {reason : Refusal} :
    demand condition reason = .ok () ↔ condition := by
  unfold demand
  split <;> simp_all [refuse]

theorem require_bind {α : Type} {condition : Prop} [Decidable condition] {breach : Breach}
    (next : Unit → Outcome α) (holds : condition) :
    (require condition breach >>= next) = next () := by
  rw [require_eq_ok_iff.2 holds]
  rfl

theorem demand_bind {α : Type} {condition : Prop} [Decidable condition] {reason : Refusal}
    (next : Unit → Outcome α) (holds : condition) :
    (demand condition reason >>= next) = next () := by
  rw [demand_eq_ok_iff.2 holds]
  rfl

/-- Two steps in a row that keep a state when they fail. -/
theorem run_bind {σ α β : Type} (first : ExceptT Failure (StateM σ) α)
    (next : α → ExceptT Failure (StateM σ) β) (s : σ) :
    (first >>= next).run.run s =
      match first.run.run s with
      | (.ok value, t) => (next value).run.run t
      | (.error failure, t) => (.error failure, t) := by
  show ExceptT.bindCont next (first s).1 (first s).2 = _
  unfold ExceptT.run StateT.run
  rcases first s with ⟨outcome, t⟩
  cases outcome <;> rfl

end Outcome

end ApproxSet
