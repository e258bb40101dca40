import ApproxSet.Proofs.Alike
import ApproxSet.Proofs.XorSet.Loading
import ApproxSet.Proofs.XorSet.Membership
import ApproxSet.Proofs.XorSet.Repeats

/-!
# How constructions fail

An attempt to peel keys has three ends: they peel, or there is a reason to turn them down, or the
next salt is tried. A search that fails without being turned down has tried as many salts as its
counter can count, for which its bound has to be `2 ^ 32` at least, or missing. Nothing is assumed
about the hash that would rule this out for all keys; such a search is called endless.

What follows a search does not fail: the keys have peeled, so the slots can be solved, and the table
shows the solution of the peeling order. Tables of two kinds and widths that are built from the same
keys therefore have one salt, and they show solutions of one peeling order.
-/

namespace ApproxSet.XorSet

open Outcome

/-- An attempt fails, and there is no reason not to go on after it. -/
structure GoesOn (keys : List UInt64) (third : Nat) (bound : Option Nat) (attempts : Nat)
    (salt : UInt64) : Prop where
  stalls : ∃ peeled, peel keys third salt = .ok (.core peeled)
  distinct : attempts = 0 → keys.Nodup
  unbounded : ∀ limit ∈ bound, attempts + 1 < limit

/-- All attempts that can be counted fail, with no reason to stop after any of them. -/
def Settings.Endless (s : Settings) (keys : List UInt64) (third : Nat) : Prop :=
  ∀ n < attemptRoom, GoesOn keys third s.maxAttempts n (s.salt + UInt64.ofNat n)

variable {s : Settings} {keys : List UInt64} {third width width' room attempts : Nat}
  {bound : Option Nat} {salt : UInt64} {order : List Peeled}

/-! ### Attempts -/

/-- An attempt after which the search goes on is followed by the next one. -/
theorem search_of_goesOn_first (h : GoesOn keys third bound attempts salt) (room : Nat) :
    (search keys third bound (room + 1) attempts salt).outcome =
      (search keys third bound room (attempts + 1) (salt + 1)).outcome := by
  obtain ⟨⟨peeled, hpeel⟩, hdistinct, hunbounded⟩ := h
  have hall : bound.all (attempts + 1 < ·) = true := by
    simpa [Option.all_eq_true] using hunbounded
  rcases demandDistinctIf_cases (attempts = 0) keys with ⟨-, hok⟩ | ⟨hfirst, key, hrepeated, -⟩
  · rw [search, hpeel, Traced.lift_ok_bind]
    simp only [Traced.outcome_bind, Traced.outcome_lift, Traced.outcome_report]
    rw [hok, ok_bind, demand_bind _ hall, ok_bind]
  · exact absurd (hdistinct hfirst) hrepeated.not_nodup

/-- The three ends of an attempt. -/
theorem search_cases (hpos : 0 < third) (hle : third ≤ 2 ^ 32) (keys : List UInt64)
    (bound : Option Nat) (room attempts : Nat) (salt : UInt64) :
    (∃ order, peel keys third salt = .ok (.nothing order) ∧
        (search keys third bound (room + 1) attempts salt).outcome = .ok ⟨salt, order⟩) ∨
      (GoesOn keys third bound attempts salt ∧
        (search keys third bound (room + 1) attempts salt).outcome =
          (search keys third bound room (attempts + 1) (salt + 1)).outcome) ∨
      ∃ reason, (search keys third bound (room + 1) attempts salt).outcome = refuse reason := by
  rcases peel_cases hpos hle keys salt with ⟨-, remainder, hpeel⟩ | ⟨-, slot, hrefused⟩
  · cases remainder with
    | nothing order =>
      refine .inl ⟨order, hpeel, ?_⟩
      rw [search, hpeel, Traced.lift_ok_bind]
      rfl
    | core peeled =>
      by_cases hgoes : GoesOn keys third bound attempts salt
      · exact .inr (.inl ⟨hgoes, search_of_goesOn_first hgoes room⟩)
      · right
        right
        rw [search, hpeel, Traced.lift_ok_bind]
        simp only [Traced.outcome_bind, Traced.outcome_lift]
        rcases demandDistinctIf_cases (attempts = 0) keys with
          ⟨hdistinct, hok⟩ | ⟨-, key, -, hrefused⟩
        · have hbound : ¬bound.all (attempts + 1 < ·) = true := by
            intro hall
            exact hgoes ⟨⟨peeled, hpeel⟩, hdistinct, by simpa [Option.all_eq_true] using hall⟩
          rw [hok, ok_bind, demand, if_neg hbound]
          exact ⟨_, rfl⟩
        · rw [hrefused]
          exact ⟨_, rfl⟩
  · rw [search, hrefused]
    exact .inr (.inr ⟨_, rfl⟩)

/-- A salt that is further from one salt is nearer to the next. -/
theorem add_ofNat_succ (salt : UInt64) (n : Nat) :
    salt + UInt64.ofNat (n + 1) = salt + 1 + UInt64.ofNat n := by
  rw [UInt64.ofNat_add, UInt64.add_comm (UInt64.ofNat n), ← UInt64.add_assoc]
  rfl

/-- Attempts after which the search goes on can be passed over. -/
theorem search_skip {count : Nat}
    (h : ∀ n < count, GoesOn keys third bound (attempts + n) (salt + UInt64.ofNat n)) (room : Nat) :
    (search keys third bound (count + room) attempts salt).outcome =
      (search keys third bound room (attempts + count) (salt + UInt64.ofNat count)).outcome := by
  induction count generalizing attempts salt with
  | zero => simp
  | succ count ih =>
    -- The attempts of the rest are those of the whole, counted and salted one further.
    have hnumber : ∀ n, attempts + (n + 1) = attempts + 1 + n := fun n => by omega
    have hfirst : GoesOn keys third bound attempts salt := by simpa using h 0 (by omega)
    have hlater : ∀ n < count,
        GoesOn keys third bound (attempts + 1 + n) (salt + 1 + UInt64.ofNat n) := by
      intro n hn
      rw [← hnumber, ← add_ofNat_succ]
      exact h (n + 1) (by omega)
    rw [Nat.add_right_comm, search_of_goesOn_first hfirst, ih hlater, hnumber count,
      add_ofNat_succ]

/-- A search that fails is turned down, or it goes on after all attempts that it has room for. -/
theorem search_failure_from (hpos : 0 < third) (hle : third ≤ 2 ^ 32) {failure : Failure}
    (h : (search keys third bound room attempts salt).outcome = .error failure) :
    (∃ reason, failure = .refused reason) ∨
      failure = .broken .overflow ∧
        ∀ n < room, GoesOn keys third bound (attempts + n) (salt + UInt64.ofNat n) := by
  induction room generalizing attempts salt with
  | zero =>
    cases h
    exact .inr ⟨rfl, fun n hn => absurd hn (Nat.not_lt_zero n)⟩
  | succ room ih =>
    rcases search_cases hpos hle keys bound room attempts salt with
      ⟨order, -, hfound⟩ | ⟨hgoes, hnext⟩ | ⟨reason, hrefused⟩
    · rw [hfound] at h
      cases h
    · rcases ih (hnext.symm.trans h) with hreason | ⟨hoverflow, hall⟩
      · exact .inl hreason
      · refine .inr ⟨hoverflow, fun n hn => ?_⟩
        cases n with
        | zero => simpa using hgoes
        | succ n =>
          have hlater := hall n (by omega)
          rw [Nat.add_right_comm] at hlater
          rwa [add_ofNat_succ]
    · rw [hrefused] at h
      cases h
      exact .inl ⟨reason, rfl⟩

/-- A search that fails is turned down, or it is endless. -/
theorem search_failure (hpos : 0 < third) (hle : third ≤ 2 ^ 32) {failure : Failure}
    (h : (search keys third s.maxAttempts attemptRoom 0 s.salt).outcome = .error failure) :
    (∃ reason, failure = .refused reason) ∨
      failure = .broken .overflow ∧ s.Endless keys third := by
  rcases search_failure_from hpos hle h with hreason | ⟨hoverflow, hall⟩
  · exact .inl hreason
  · refine .inr ⟨hoverflow, fun n hn => ?_⟩
    simpa using hall n hn

/-- A bound that fits into 32 bits ends every search. -/
theorem Settings.not_endless {limit : Nat} (hlimit : limit ∈ s.maxAttempts)
    (hfits : limit < 2 ^ 32) : ¬s.Endless keys third := by
  intro h
  have hlast := (h (attemptRoom - 1) (by decide)).unbounded limit hlimit
  unfold attemptRoom at hlast
  omega

/-- Runs that break off together in an endless search only do not do so under such a bound. -/
theorem Settings.alike_of_bounded {α β : Type} {reasons : Refusal → Refusal → Prop}
    {answers : α → β → Prop} {first : Outcome α} {second : Outcome β} {limit : Nat}
    (hlimit : limit ∈ s.maxAttempts) (hfits : limit < 2 ^ 32)
    (h : Alike (FailAlike reasons (s.Endless keys third)) answers first second) :
    Alike (FailAlike reasons False) answers first second := by
  refine h.imp (fun _ _ _ _ hanswers => hanswers) fun _ _ _ hfailures => ?_
  cases hfailures with
  | refused hreasons => exact .refused hreasons
  | overrun hendless => exact absurd hendless (not_endless hlimit hfits)

/-! ### What follows a search -/

section Arrays

variable {σ τ : Type} [SlotArray σ] [SlotArray τ]

/-- The table of keys that have peeled. -/
def complete (third width : Nat) (found : Solution) : Outcome (Table σ) := do
  let slots ← SlotArray.zeros (3 * third) width
  let slots ← solve third found.salt width found.order slots
  return ⟨found.salt, third, width, slots⟩

/-- A construction is a search and what follows it. -/
theorem buildTable_outcome (hthird : thirdFor keys.length = .ok third) :
    (buildTable s keys width : Traced (Table σ)).outcome =
      (search keys third s.maxAttempts attemptRoom 0 s.salt).outcome >>= complete third width := by
  rw [buildTable, Traced.outcome_bind, Traced.outcome_lift, hthird, ok_bind, Traced.outcome_bind]
  refine congrArg _ (funext fun found => ?_)
  simp only [Traced.outcome_bind, Traced.outcome_lift, Traced.outcome_pure]
  rfl

variable [LawfulSlots σ] [LawfulSlots τ]

/-- The table shows the solution of a peeling order. -/
structure Table.Solves (t : Table σ) (salt : UInt64) (third width : Nat) (order : List Peeled) :
    Prop where
  salt_eq : t.salt = salt
  third_eq : t.third = third
  width_eq : t.width = width
  shows : LawfulSlots.Shows t.slots (3 * third) width
    (solution third salt (Bits.mask width) order)

theorem complete_eq_ok {found : Solution} {empty : σ} (hpos : 0 < third)
    (hadmits : LawfulSlots.Admits σ width) (hwidth : width ≤ 64)
    (hempty : SlotArray.zeros (3 * third) width = .ok empty)
    (hpeel : peel keys third found.salt = .ok (.nothing found.order)) :
    ∃ t : Table σ, complete third width found = .ok t ∧
      t.Solves found.salt third width found.order := by
  obtain ⟨slots, hslots, hshows⟩ :=
    solve_of_peeled hpos hwidth hpeel (LawfulSlots.zeros_shows hadmits hempty)
  refine ⟨⟨found.salt, third, width, slots⟩, ?_, rfl, rfl, rfl, hshows⟩
  rw [complete, hempty, ok_bind, hslots]
  rfl

/-- Two constructions from the same keys end alike: they find the same salt and peeling order, and
both tables show its solution, each with fingerprints of its own width. -/
theorem buildTable_alike {empty : σ} {empty' : τ} (hthird : thirdFor keys.length = .ok third)
    (hle : third ≤ 2 ^ 32) (hadmits : LawfulSlots.Admits σ width) (hwidth : width ≤ 64)
    (hempty : SlotArray.zeros (3 * third) width = .ok empty)
    (hadmits' : LawfulSlots.Admits τ width') (hwidth' : width' ≤ 64)
    (hempty' : SlotArray.zeros (3 * third) width' = .ok empty') :
    Alike (FailAlike Eq (s.Endless keys third))
      (fun t u => ∃ salt order, t.Solves salt third width order ∧ u.Solves salt third width' order)
      (buildTable s keys width : Traced (Table σ)).outcome
      (buildTable s keys width' : Traced (Table τ)).outcome := by
  have hpos := thirdFor_pos hthird
  rw [buildTable_outcome hthird, buildTable_outcome hthird]
  cases hfound : (search keys third s.maxAttempts attemptRoom 0 s.salt).outcome with
  | ok found =>
    have hpeel := search_peels hfound
    obtain ⟨t, ht, hsolves⟩ := complete_eq_ok hpos hadmits hwidth hempty hpeel
    obtain ⟨u, hu, hsolves'⟩ := complete_eq_ok hpos hadmits' hwidth' hempty' hpeel
    rw [ok_bind, ok_bind, ht, hu]
    exact .answer ⟨found.salt, found.order, hsolves, hsolves'⟩
  | error failure =>
    rcases search_failure hpos hle hfound with ⟨reason, rfl⟩ | ⟨rfl, hendless⟩
    · exact .failure (.refused rfl)
    · exact .failure (.overrun hendless)

end Arrays

/-! ### Packed filters -/

theorem buildPacked_eq (hwidth : 0 < s.width ∧ s.width ≤ 32) :
    buildPacked s keys = buildTable s keys s.width := by
  have hdemand : demandWidth s.width = .ok () := demand_eq_ok_iff.2 hwidth
  rw [buildPacked, hdemand, Traced.lift_ok_bind]

theorem buildPacked_outcome (hwidth : 0 < s.width ∧ s.width ≤ 32) :
    (buildPacked s keys).outcome = (buildTable s keys s.width : Traced Packed).outcome := by
  rw [buildPacked_eq hwidth]

/-- There is room for packed slots of any width that a filter can have. -/
theorem PackedArray.zeros_of_third_le (hthird : third ≤ 2 ^ 32) (hwidth : width ≤ 32) :
    ∃ slots, PackedArray.zeros (3 * third) width = .ok slots := by
  have hbits : 3 * third * width ≤ 3 * 2 ^ 32 * 32 :=
    Nat.mul_le_mul (Nat.mul_le_mul_left 3 hthird) hwidth
  exact PackedArray.zeros_eq_ok (by omega)

end ApproxSet.XorSet
