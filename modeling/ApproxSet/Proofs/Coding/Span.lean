import ApproxSet.Coding.Range

/-!
# The interval of a range coder

A span is the interval that flags have narrowed, as the encoder means it: its low end is the whole
number coded so far, with nothing held back and no carry open. A code belongs to all spans that were
passed on the way to its own, each time without the octets that came later.

Flags and octets keep each other in balance. A cleared flag of a probability of at most one half
halves the interval, and only octets make it longer, so they are at least as many as the cleared
flags need at one bit each. No flag needs more than four bits, so they are not many more either.
-/

namespace ApproxSet.Coding.Range

/-- An interval of codes, with the number of octets by which it was stretched. -/
structure Span where
  base : Nat
  range : Nat
  shifts : Nat

namespace Span

/-- The interval before the first flag. -/
def start : Span :=
  ⟨0, 2 ^ 32 - 1, 0⟩

/-- Keeps the lower part of the interval for a cleared flag, and what is above it for a set one. -/
def narrow (s : Span) (flag : Bool) (probability : Nat) : Span :=
  let lower := s.range / 2 ^ 11 * probability
  if flag then { s with base := s.base + lower, range := s.range - lower }
  else { s with range := lower }

/-- Makes room for another octet. -/
def widen (s : Span) : Span :=
  ⟨256 * s.base, 256 * s.range, s.shifts + 1⟩

/-- Widens a short interval. -/
def stretch : (steps : Nat) → Span → Span
  | 0, s => s
  | steps + 1, s => if leastRange ≤ s.range then s else stretch steps s.widen

/-- What a flag makes of the interval. -/
def step (s : Span) (flag : Bool) (probability : Nat) : Span :=
  (s.narrow flag probability).stretch 3

/-- What flags make of the interval. -/
def run (s : Span) (flags : List (Bool × Nat)) : Span :=
  flags.foldl (fun s flag => s.step flag.1 flag.2) s

/-- The code lies in the interval. -/
def Holds (s : Span) (code : Nat) : Prop :=
  s.base ≤ code ∧ code < s.base + s.range

/-- The interval is neither too short nor too long for another flag. -/
def Usable (s : Span) : Prop :=
  leastRange ≤ s.range ∧ s.range < 2 ^ 32

/-- The probability leaves something to either part of the interval. -/
def Proper (probability : Nat) : Prop :=
  0 < probability ∧ probability < 2 ^ 11

/-- The probability is at most one half and more than one sixteenth. -/
def Balanced (probability : Nat) : Prop :=
  2 ^ 7 < probability ∧ probability ≤ 2 ^ 10

/-- The octets shifted out so far pay for that many halvings of the first interval. -/
def Pays (s : Span) (halvings : Nat) : Prop :=
  s.range * 2 ^ halvings < 2 ^ (32 + 8 * s.shifts)

/-- With that many doublings the interval gets as long as the octets shifted out so far can make
it. -/
def Owes (s : Span) (doublings : Nat) : Prop :=
  2 ^ (31 + 8 * s.shifts) ≤ s.range * 2 ^ doublings

variable {s : Span} {flag : Bool} {probability code : Nat}

theorem usable_start : start.Usable :=
  ⟨by decide, by decide⟩

/-! ### Lengths -/

theorem lower_lt (hs : s.Usable) (hp : Proper probability) :
    2 ^ 13 ≤ s.range / 2 ^ 11 * probability ∧
      s.range / 2 ^ 11 * probability + 2 ^ 13 ≤ s.range := by
  obtain ⟨hlow, -⟩ := hs
  obtain ⟨hpos, hlt⟩ := hp
  have hpart : 2 ^ 13 ≤ s.range / 2 ^ 11 := by
    unfold leastRange at hlow
    omega
  have hleast : s.range / 2 ^ 11 * 1 ≤ s.range / 2 ^ 11 * probability :=
    Nat.mul_le_mul_left _ hpos
  have hmost : s.range / 2 ^ 11 * probability ≤ s.range / 2 ^ 11 * (2 ^ 11 - 1) :=
    Nat.mul_le_mul_left _ (by omega)
  omega

theorem narrow_range (hs : s.Usable) (hp : Proper probability) :
    2 ^ 13 ≤ (s.narrow flag probability).range ∧
      (s.narrow flag probability).range < 2 ^ 32 := by
  obtain ⟨hleast, hmost⟩ := lower_lt hs hp
  have hlt := hs.2
  cases flag with
  | false =>
    show 2 ^ 13 ≤ s.range / 2 ^ 11 * probability ∧ s.range / 2 ^ 11 * probability < 2 ^ 32
    omega
  | true =>
    show 2 ^ 13 ≤ s.range - s.range / 2 ^ 11 * probability ∧
      s.range - s.range / 2 ^ 11 * probability < 2 ^ 32
    omega

/-- Stretching by enough octets makes an interval usable. -/
theorem stretch_usable {steps : Nat} (hlow : leastRange ≤ s.range * 256 ^ steps)
    (hhigh : s.range < 2 ^ 32) : (s.stretch steps).Usable := by
  induction steps generalizing s with
  | zero =>
    rw [Nat.pow_zero, Nat.mul_one] at hlow
    exact ⟨hlow, hhigh⟩
  | succ steps ih =>
    unfold stretch
    split
    case isTrue hlong => exact ⟨hlong, hhigh⟩
    case isFalse hshort =>
      refine ih ?_ ?_
      · rw [Nat.pow_succ'] at hlow
        show leastRange ≤ 256 * s.range * 256 ^ steps
        rw [Nat.mul_comm 256, Nat.mul_assoc]
        exact hlow
      · show 256 * s.range < 2 ^ 32
        unfold leastRange at hshort
        omega

theorem step_usable (hs : s.Usable) (hp : Proper probability) :
    (s.step flag probability).Usable := by
  have hrange : 2 ^ 13 ≤ (s.narrow flag probability).range ∧ _ := narrow_range hs hp
  refine stretch_usable ?_ hrange.2
  unfold leastRange
  omega

theorem run_usable {flags : List (Bool × Nat)} (hs : s.Usable)
    (hflags : ∀ flag ∈ flags, Proper flag.2) : (s.run flags).Usable := by
  induction flags generalizing s with
  | nil => exact hs
  | cons flag flags ih =>
    exact ih (step_usable hs (hflags flag (by simp))) fun other h => hflags other (by simp [h])

/-! ### Shifts -/

/-- Stretching takes back nothing that was shifted out. -/
theorem le_stretch_shifts (steps : Nat) (s : Span) : s.shifts ≤ (s.stretch steps).shifts := by
  induction steps generalizing s with
  | zero => exact Nat.le_refl _
  | succ steps ih =>
    unfold stretch
    split
    · exact Nat.le_refl _
    · exact Nat.le_of_succ_le (ih s.widen)

theorem narrow_shifts (s : Span) (flag : Bool) (probability : Nat) :
    (s.narrow flag probability).shifts = s.shifts := by
  cases flag <;> rfl

theorem le_step_shifts (s : Span) (flag : Bool) (probability : Nat) :
    s.shifts ≤ (s.step flag probability).shifts := by
  have hstretch := le_stretch_shifts 3 (s.narrow flag probability)
  rw [narrow_shifts] at hstretch
  exact hstretch

theorem le_run_shifts (s : Span) (flags : List (Bool × Nat)) : s.shifts ≤ (s.run flags).shifts := by
  induction flags generalizing s with
  | nil => exact Nat.le_refl _
  | cons flag flags ih =>
    exact Nat.le_trans (le_step_shifts s flag.1 flag.2) (ih (s.step flag.1 flag.2))

/-! ### Flags and octets -/

theorem Balanced.proper (h : Balanced probability) : Proper probability := by
  obtain ⟨hlow, hhigh⟩ := h
  exact ⟨by omega, by omega⟩

section Pays

variable {halvings : Nat}

theorem Pays.widen (h : s.Pays halvings) : s.widen.Pays halvings := by
  show 256 * s.range * 2 ^ halvings < 2 ^ (32 + 8 * (s.shifts + 1))
  have hpow : 2 ^ (32 + 8 * (s.shifts + 1)) = 256 * 2 ^ (32 + 8 * s.shifts) := by
    rw [show 32 + 8 * (s.shifts + 1) = 8 + (32 + 8 * s.shifts) by omega, Nat.pow_add]
  rw [hpow, Nat.mul_assoc]
  exact Nat.mul_lt_mul_of_pos_left h (by omega)

theorem Pays.stretch {steps : Nat} (h : s.Pays halvings) : (s.stretch steps).Pays halvings := by
  induction steps generalizing s with
  | zero => exact h
  | succ steps ih =>
    unfold Span.stretch
    split
    · exact h
    · exact ih h.widen

/-- A cleared flag takes at least one halving. -/
theorem Pays.narrow (hp : probability ≤ 2 ^ 10) (h : s.Pays halvings) :
    (s.narrow flag probability).Pays (halvings + (!flag).toNat) := by
  refine Nat.lt_of_le_of_lt ?_ (by rw [narrow_shifts]; exact h)
  cases flag with
  | false =>
    have hlower : s.range / 2 ^ 11 * probability ≤ s.range / 2 ^ 11 * 2 ^ 10 :=
      Nat.mul_le_mul_left _ hp
    show s.range / 2 ^ 11 * probability * 2 ^ (halvings + 1) ≤ s.range * 2 ^ halvings
    have hpow : 2 ^ (halvings + 1) = 2 * 2 ^ halvings := Nat.pow_succ'
    rw [hpow, ← Nat.mul_assoc]
    exact Nat.mul_le_mul_right _ (by omega)
  | true => exact Nat.mul_le_mul_right _ (Nat.sub_le _ _)

theorem Pays.run {flags : List (Bool × Nat)} (hflags : ∀ flag ∈ flags, flag.2 ≤ 2 ^ 10)
    (h : s.Pays halvings) : (s.run flags).Pays (halvings + flags.countP fun flag => !flag.1) := by
  induction flags generalizing s halvings with
  | nil => exact h
  | cons flag flags ih =>
    have hstep : (s.step flag.1 flag.2).Pays (halvings + (!flag.1).toNat) :=
      (h.narrow (hflags flag (by simp))).stretch
    have hrest := ih (fun other hother => hflags other (by simp [hother])) hstep
    have hcount : (flag :: flags).countP (fun flag => !flag.1) =
        (!flag.1).toNat + flags.countP fun flag => !flag.1 := by
      rw [List.countP_cons, Nat.add_comm]
      cases flag.1 <;> rfl
    rw [hcount, ← Nat.add_assoc]
    exact hrest

/-- The cleared flags are fewer than the bits of the octets read for them and of one more. -/
theorem cleared_lt {flags : List (Bool × Nat)} (hflags : ∀ flag ∈ flags, Balanced flag.2) :
    (flags.countP fun flag => !flag.1) < 8 * (start.run flags).shifts + 8 := by
  have hstart : start.Pays 0 := show (2 ^ 32 - 1) * 2 ^ 0 < 2 ^ (32 + 8 * 0) by decide
  have hpays := hstart.run fun flag hflag => (hflags flag hflag).2
  have hlong := (run_usable usable_start fun flag hflag => (hflags flag hflag).proper).1
  rw [Nat.zero_add] at hpays
  have hbits : 2 ^ (24 + flags.countP fun flag => !flag.1) <
      2 ^ (32 + 8 * (start.run flags).shifts) := by
    rw [Nat.pow_add]
    exact Nat.lt_of_le_of_lt (Nat.mul_le_mul_right _ hlong) hpays
  have hexp := (Nat.pow_lt_pow_iff_right (by omega)).1 hbits
  omega

end Pays

section Owes

variable {doublings : Nat}

theorem Owes.widen (h : s.Owes doublings) : s.widen.Owes doublings := by
  show 2 ^ (31 + 8 * (s.shifts + 1)) ≤ 256 * s.range * 2 ^ doublings
  have hpow : 2 ^ (31 + 8 * (s.shifts + 1)) = 256 * 2 ^ (31 + 8 * s.shifts) := by
    rw [show 31 + 8 * (s.shifts + 1) = 8 + (31 + 8 * s.shifts) by omega, Nat.pow_add]
  rw [hpow, Nat.mul_assoc]
  exact Nat.mul_le_mul_left _ h

theorem Owes.stretch {steps : Nat} (h : s.Owes doublings) : (s.stretch steps).Owes doublings := by
  induction steps generalizing s with
  | zero => exact h
  | succ steps ih =>
    unfold Span.stretch
    split
    · exact h
    · exact ih h.widen

/-- Four doublings make up for a flag. -/
theorem Owes.narrow (hs : s.Usable) (hp : Balanced probability) (h : s.Owes doublings) :
    (s.narrow flag probability).Owes (doublings + 4) := by
  obtain ⟨hlow, hhigh⟩ := hp
  have hlong := hs.1
  unfold leastRange at hlong
  have hleast : s.range / 2 ^ 11 * (2 ^ 7 + 1) ≤ s.range / 2 ^ 11 * probability :=
    Nat.mul_le_mul_left _ hlow
  have hmost : s.range / 2 ^ 11 * probability ≤ s.range / 2 ^ 11 * 2 ^ 10 :=
    Nat.mul_le_mul_left _ hhigh
  have hrange : s.range ≤ (s.narrow flag probability).range * 2 ^ 4 := by
    cases flag with
    | false =>
      show s.range ≤ s.range / 2 ^ 11 * probability * 2 ^ 4
      omega
    | true =>
      show s.range ≤ (s.range - s.range / 2 ^ 11 * probability) * 2 ^ 4
      omega
  show 2 ^ (31 + 8 * (s.narrow flag probability).shifts) ≤ _
  rw [narrow_shifts, Nat.pow_add 2 doublings, Nat.mul_comm (2 ^ doublings), ← Nat.mul_assoc]
  exact Nat.le_trans h (Nat.mul_le_mul_right _ hrange)

theorem Owes.run {flags : List (Bool × Nat)} (hs : s.Usable)
    (hflags : ∀ flag ∈ flags, Balanced flag.2) (h : s.Owes doublings) :
    (s.run flags).Owes (doublings + 4 * flags.length) := by
  induction flags generalizing s doublings with
  | nil => exact h
  | cons flag flags ih =>
    have hflag := hflags flag (by simp)
    have hstep : (s.step flag.1 flag.2).Owes (doublings + 4) := (h.narrow hs hflag).stretch
    have hrest := ih (step_usable hs hflag.proper)
      (fun other hother => hflags other (by simp [hother])) hstep
    rw [List.length_cons, Nat.mul_succ, Nat.add_comm (4 * _), ← Nat.add_assoc]
    exact hrest

/-- No more than one octet is shifted out for two flags. -/
theorem shifts_le {flags : List (Bool × Nat)} (hflags : ∀ flag ∈ flags, Balanced flag.2) :
    2 * (start.run flags).shifts ≤ flags.length := by
  have hstart : start.Owes 0 := show 2 ^ (31 + 8 * 0) ≤ (2 ^ 32 - 1) * 2 ^ 0 by decide
  have howes := hstart.run usable_start hflags
  have hshort := (run_usable usable_start fun flag hflag => (hflags flag hflag).proper).2
  rw [Nat.zero_add] at howes
  have hbits : 2 ^ (31 + 8 * (start.run flags).shifts) < 2 ^ (32 + 4 * flags.length) := by
    rw [Nat.pow_add 2 32]
    exact Nat.lt_of_le_of_lt howes (Nat.mul_lt_mul_of_pos_right hshort (Nat.two_pow_pos _))
  have hexp := (Nat.pow_lt_pow_iff_right (by omega)).1 hbits
  omega

end Owes

/-! ### Codes -/

theorem Holds.of_widen (h : s.widen.Holds code) : s.Holds (code / 256) := by
  obtain ⟨hlow, hhigh⟩ := h
  have hlow : 256 * s.base ≤ code := hlow
  have hhigh : code < 256 * s.base + 256 * s.range := hhigh
  exact ⟨by omega, by omega⟩

theorem Holds.of_narrow (hs : s.range / 2 ^ 11 * probability ≤ s.range)
    (h : (s.narrow flag probability).Holds code) : s.Holds code := by
  obtain ⟨hlow, hhigh⟩ := h
  cases flag with
  | false =>
    have hlow : s.base ≤ code := hlow
    have hhigh : code < s.base + s.range / 2 ^ 11 * probability := hhigh
    exact ⟨hlow, by omega⟩
  | true =>
    have hlow : s.base + s.range / 2 ^ 11 * probability ≤ code := hlow
    have hhigh : code < s.base + s.range / 2 ^ 11 * probability +
      (s.range - s.range / 2 ^ 11 * probability) := hhigh
    exact ⟨by omega, by omega⟩

/-- The low end of an interval that is not empty belongs to it. -/
theorem holds_base (hs : s.Usable) : s.Holds s.base := by
  have hlow := hs.1
  unfold leastRange at hlow
  exact ⟨Nat.le_refl _, by omega⟩

end Span

end ApproxSet.Coding.Range
