import ApproxSet.Proofs.XorSet.Distinct
import Mathlib.Data.Nat.Find

/-!
# The attempt that decides

A search looks at the salts one after the other. It comes to an attempt if the keys stalled in all
attempts before it, the bound admits it and, unless it is the first, the keys are distinct. The
first attempt that does not stall, or after which there is a reason to stop, decides: there are five
ways for a search to end, and each is read off the salts that were tried.

So the table is made under the first salt that peels the keys. Neither a bound that lets the search
come so far nor a start among the salts that stall has an influence on it.
-/

namespace ApproxSet.XorSet

open Outcome

variable {s : Settings} {keys : List UInt64} {third width n : Nat} {salt : UInt64}
  {order : List Peeled}

/-- The keys peel under a salt. -/
def Peels (keys : List UInt64) (third : Nat) (salt : UInt64) : Prop :=
  ∃ order, peel keys third salt = .ok (.nothing order)

/-- The keys leave a core under a salt. -/
def Stalls (keys : List UInt64) (third : Nat) (salt : UInt64) : Prop :=
  ∃ peeled, peel keys third salt = .ok (.core peeled)

/-- What leaves a core does not peel. -/
theorem Stalls.not_peels (h : Stalls keys third salt) : ¬Peels keys third salt := by
  intro hpeels
  obtain ⟨peeled, hcore⟩ := h
  obtain ⟨order, hpeel⟩ := hpeels
  rw [hcore] at hpeel
  cases hpeel

namespace Settings

/-- The salt of an attempt. The attempts are counted from zero, and the salts wrap around. -/
def saltAt (s : Settings) (n : Nat) : UInt64 :=
  s.salt + UInt64.ofNat n

/-- The settings of a search that starts at attempt `n`, under a bound of its own. -/
def startedAt (s : Settings) (n : Nat) (bound : Option Nat) : Settings :=
  { s with salt := s.saltAt n, maxAttempts := bound }

/-- Every bound that can be set allows an attempt. -/
theorem positive_of_withMaxAttempts {t : Settings} {attempts : Nat}
    (h : s.withMaxAttempts attempts = .ok t) : ∀ limit ∈ t.maxAttempts, 0 < limit := by
  obtain ⟨hpos, h⟩ := require_bind_eq_ok_iff.1 h
  cases h
  intro limit hlimit
  cases hlimit
  exact hpos

/-- A search comes to attempt `n`. -/
structure Reaches (s : Settings) (keys : List UInt64) (third n : Nat) : Prop where
  counted : n < attemptRoom
  admitted : ∀ limit ∈ s.maxAttempts, n < limit
  stalled : ∀ earlier < n, Stalls keys third (s.saltAt earlier)
  distinct : 0 < n → keys.Nodup

@[simp] theorem saltAt_zero (s : Settings) : s.saltAt 0 = s.salt := UInt64.add_zero s.salt

theorem saltAt_startedAt (s : Settings) (start : Nat) (bound : Option Nat) (n : Nat) :
    (s.startedAt start bound).saltAt n = s.saltAt (start + n) := by
  simp only [startedAt, saltAt, UInt64.ofNat_add]
  exact UInt64.add_assoc _ _ _

end Settings

/-- The ways for a search to end, each with what was found under the salts before. -/
inductive Ending (s : Settings) (keys : List UInt64) (third : Nat) : Outcome Solution → Prop where
  | peeled {n : Nat} {order : List Peeled} (reached : s.Reaches keys third n)
      (peels : peel keys third (s.saltAt n) = .ok (.nothing order)) :
      Ending s keys third (.ok ⟨s.saltAt n, order⟩)
  | full {n slot degree : Nat} (reached : s.Reaches keys third n)
      (overloads : peel keys third (s.saltAt n) = refuse (.degenerateSlot slot degree)) :
      Ending s keys third (refuse (.degenerateSlot slot degree))
  | repeated {key : UInt64} (stalls : Stalls keys third s.salt)
      (smallest : SmallestRepeated keys key) :
      Ending s keys third (refuse (.invalidArgument (.repeatedKey key)))
  | exhausted {limit : Nat} (bounded : s.maxAttempts = some limit) (counted : limit ≤ attemptRoom)
      (distinct : keys.Nodup) (stalled : ∀ n < limit, Stalls keys third (s.saltAt n)) :
      Ending s keys third (refuse (.attemptsExhausted limit))
  | overrun (endless : s.Endless keys third) : Ending s keys third (violate .overflow)

/-! ### How far a search comes -/

namespace Settings.Reaches

/-- The search goes on after all attempts before one that it comes to. -/
theorem goesOn (h : s.Reaches keys third n) :
    ∀ earlier < n, GoesOn keys third s.maxAttempts earlier (s.saltAt earlier) := by
  intro earlier hearlier
  refine ⟨h.stalled earlier hearlier, fun _ => h.distinct (by omega), fun limit hlimit => ?_⟩
  have hadmitted := h.admitted limit hlimit
  omega

/-- A search that goes on after all attempts before one comes to it. -/
theorem of_goesOn (hpositive : ∀ limit ∈ s.maxAttempts, 0 < limit) (hcounted : n < attemptRoom)
    (hgoes : ∀ earlier < n, GoesOn keys third s.maxAttempts earlier (s.saltAt earlier)) :
    s.Reaches keys third n where
  counted := hcounted
  admitted := by
    intro limit hlimit
    cases n with
    | zero => exact hpositive limit hlimit
    | succ n => exact (hgoes n (by omega)).unbounded limit hlimit
  stalled := fun earlier hearlier => (hgoes earlier hearlier).stalls
  distinct := fun hpos => (hgoes 0 hpos).distinct rfl

/-- The attempts before one that the search comes to can be passed over. -/
theorem search_eq (h : s.Reaches keys third n) :
    ∃ room, (search keys third s.maxAttempts attemptRoom 0 s.salt).outcome =
      (search keys third s.maxAttempts (room + 1) n (s.saltAt n)).outcome := by
  have hroom : attemptRoom = n + (attemptRoom - n - 1 + 1) := by
    have hcounted := h.counted
    omega
  have hgoes : ∀ earlier < n,
      GoesOn keys third s.maxAttempts (0 + earlier) (s.salt + UInt64.ofNat earlier) := by
    intro earlier hearlier
    rw [Nat.zero_add]
    exact h.goesOn earlier hearlier
  have hskip := search_skip hgoes (attemptRoom - n - 1 + 1)
  rw [← hroom, Nat.zero_add] at hskip
  exact ⟨attemptRoom - n - 1, hskip⟩

/-- A search that starts at an earlier attempt comes to the same one. -/
theorem startedAt (h : s.Reaches keys third n) {start : Nat} {bound : Option Nat}
    (hstart : start ≤ n) (hbound : ∀ limit ∈ bound, n - start < limit) :
    (s.startedAt start bound).Reaches keys third (n - start) where
  counted := by
    have hcounted := h.counted
    omega
  admitted := hbound
  stalled := by
    intro earlier hearlier
    rw [s.saltAt_startedAt]
    exact h.stalled (start + earlier) (by omega)
  distinct := fun hpos => h.distinct (by omega)

end Settings.Reaches

/-! ### The end of a search -/

/-- A search that goes on after every attempt overruns the counter of the attempts. -/
theorem search_of_endless (h : s.Endless keys third) :
    (search keys third s.maxAttempts attemptRoom 0 s.salt).outcome = violate .overflow := by
  have hgoes : ∀ n < attemptRoom,
      GoesOn keys third s.maxAttempts (0 + n) (s.salt + UInt64.ofNat n) := by
    intro n hn
    rw [Nat.zero_add]
    exact h n hn
  exact search_skip hgoes 0

/-- What a search ends with is told by the salts. -/
theorem Ending.outcome_eq {outcome : Outcome Solution}
    (hpositive : ∀ limit ∈ s.maxAttempts, 0 < limit) (h : Ending s keys third outcome) :
    (search keys third s.maxAttempts attemptRoom 0 s.salt).outcome = outcome := by
  cases h with
  | peeled reached peels =>
    obtain ⟨room, hskip⟩ := reached.search_eq
    rw [hskip, search, peels, Traced.lift_ok_bind]
    rfl
  | full reached overloads =>
    obtain ⟨room, hskip⟩ := reached.search_eq
    rw [hskip, search, overloads]
    rfl
  | repeated stalls smallest =>
    obtain ⟨peeled, hpeel⟩ := stalls
    have hroom : attemptRoom = 2 ^ 32 - 2 + 1 := rfl
    rw [hroom, search, hpeel, Traced.lift_ok_bind, demandDistinctIf, if_pos rfl,
      demandDistinct_of_repeated smallest]
    rfl
  | @exhausted limit bounded counted distinct stalled =>
    -- The last attempt is one that the search comes to, and the bound forbids the next.
    have hpos := hpositive limit bounded
    have hreached : s.Reaches keys third (limit - 1) := by
      refine ⟨by omega, fun given hgiven => ?_, fun earlier hearlier => stalled earlier (by omega),
        fun _ => distinct⟩
      cases bounded.symm.trans hgiven
      omega
    obtain ⟨room, hskip⟩ := hreached.search_eq
    obtain ⟨peeled, hpeel⟩ := stalled (limit - 1) (by omega)
    have hlast : ¬s.maxAttempts.all (limit - 1 + 1 < ·) = true := by
      simp [bounded]
      omega
    rw [hskip, search, hpeel, Traced.lift_ok_bind]
    simp only [Traced.outcome_bind, Traced.outcome_lift, demandDistinctIf_of_nodup _ distinct,
      ok_bind]
    rw [demand, if_neg hlast, Nat.sub_add_cancel hpos]
    rfl
  | overrun endless => exact search_of_endless endless

/-- A search that is not endless comes to an attempt after which it does not go on. -/
theorem Settings.exists_deciding (hpositive : ∀ limit ∈ s.maxAttempts, 0 < limit)
    (h : ¬s.Endless keys third) :
    ∃ n, s.Reaches keys third n ∧ ¬GoesOn keys third s.maxAttempts n (s.saltAt n) := by
  have hstop : ∃ n, n < attemptRoom ∧ ¬GoesOn keys third s.maxAttempts n (s.saltAt n) := by
    simpa [Settings.Endless, Settings.saltAt] using h
  classical
  obtain ⟨hcounted, hstops⟩ := Nat.find_spec hstop
  refine ⟨Nat.find hstop, .of_goesOn hpositive hcounted fun earlier hearlier => ?_, hstops⟩
  by_contra hstops
  exact Nat.find_min hstop hearlier ⟨by omega, hstops⟩

/-- An attempt that the search comes to and that fails, with a reason to stop after it, leaves two
reasons: the keys are repeated, or the bound is reached. -/
theorem Settings.Reaches.ending_of_stalls (h : s.Reaches keys third n)
    (hstalls : Stalls keys third (s.saltAt n))
    (hstops : ¬GoesOn keys third s.maxAttempts n (s.saltAt n)) :
    ∃ outcome, Ending s keys third outcome := by
  by_cases hdistinct : keys.Nodup
  · have hbound : ∃ limit ∈ s.maxAttempts, limit ≤ n + 1 := by
      by_contra hfree
      simp only [not_exists, not_and, Nat.not_le] at hfree
      exact hstops ⟨hstalls, fun _ => hdistinct, hfree⟩
    obtain ⟨limit, hlimit, hlate⟩ := hbound
    have hadmitted := h.admitted limit hlimit
    obtain rfl : limit = n + 1 := by omega
    refine ⟨_, .exhausted hlimit h.counted hdistinct fun earlier hearlier => ?_⟩
    rcases Nat.lt_succ_iff_lt_or_eq.1 hearlier with hbefore | rfl
    · exact h.stalled earlier hbefore
    · exact hstalls
  · -- Only the first attempt can have been made with repeated keys.
    have hfirst : n = 0 := by
      by_contra hlater
      exact hdistinct (h.distinct (by omega))
    subst hfirst
    rw [s.saltAt_zero] at hstalls
    obtain ⟨key, hkey⟩ :=
      Option.ne_none_iff_exists'.1 (mt smallestRepeated_eq_none_iff.1 hdistinct)
    exact ⟨_, .repeated hstalls (smallestRepeated_eq_some_iff.1 hkey)⟩

/-- A search has one of the ends unless it comes to an attempt that breaks off. -/
theorem exists_ending_of_not_breaksOff (hpos : 0 < third) (hsmall : 3 * third < 2 ^ 64)
    (hpositive : ∀ limit ∈ s.maxAttempts, 0 < limit)
    (h : ∀ n, s.Reaches keys third n → ¬BreaksOff third (s.saltAt n) keys) :
    ∃ outcome, Ending s keys third outcome := by
  by_cases hendless : s.Endless keys third
  · exact ⟨_, .overrun hendless⟩
  · obtain ⟨n, hreached, hstops⟩ := s.exists_deciding hpositive hendless
    rcases peel_cases_of_not_breaksOff hpos hsmall (h n hreached) with
      ⟨-, remainder, hpeel⟩ | ⟨-, slot, hpeel⟩
    · cases remainder with
      | nothing order => exact ⟨_, .peeled hreached hpeel⟩
      | core peeled => exact hreached.ending_of_stalls ⟨peeled, hpeel⟩ hstops
    · exact ⟨_, .full hreached hpeel⟩

/-- With thirds of up to `2 ^ 32` slots, every search has one of the ends. -/
theorem exists_ending (hpos : 0 < third) (hle : third ≤ 2 ^ 32)
    (hpositive : ∀ limit ∈ s.maxAttempts, 0 < limit) : ∃ outcome, Ending s keys third outcome :=
  exists_ending_of_not_breaksOff hpos (by omega) hpositive fun _ _ => not_breaksOff hle

/-- An attempt that breaks off breaks off the search that comes to it. -/
theorem Settings.Reaches.search_of_breaksOff (hpos : 0 < third) (hsmall : 3 * third < 2 ^ 64)
    (h : s.Reaches keys third n) (hbreaks : BreaksOff third (s.saltAt n) keys) :
    (search keys third s.maxAttempts attemptRoom 0 s.salt).outcome = violate .overflow := by
  obtain ⟨room, hskip⟩ := h.search_eq
  rw [hskip, search, peel_of_breaksOff hpos hsmall hbreaks]
  rfl

/-- A search ends as the salts tell, and not otherwise. -/
theorem search_eq_iff (hpos : 0 < third) (hle : third ≤ 2 ^ 32)
    (hpositive : ∀ limit ∈ s.maxAttempts, 0 < limit) (outcome : Outcome Solution) :
    (search keys third s.maxAttempts attemptRoom 0 s.salt).outcome = outcome ↔
      Ending s keys third outcome := by
  constructor
  · intro h
    obtain ⟨ending, hending⟩ := exists_ending hpos hle hpositive
    rwa [← h, hending.outcome_eq hpositive]
  · intro h
    exact h.outcome_eq hpositive

/-! ### What the salts decide -/

/-- A construction whose result has a salt is decided by the salts from the first attempt on. -/
structure DecidedByAttempts {α : Type} (resultSalt : α → UInt64) (construct : Settings → Outcome α)
    (s : Settings) (keys : List UInt64) (third : Nat) : Prop where
  /-- There is a result just if the search comes to an attempt in which the keys peel. -/
  built_iff : (∃ result, construct s = .ok result) ↔
    ∃ n, s.Reaches keys third n ∧ Peels keys third (s.saltAt n)
  /-- The result has the salt of that attempt. It is the same under any bound that is not reached
  before, and from any start that does not come after it. -/
  same : ∀ n, s.Reaches keys third n → Peels keys third (s.saltAt n) →
    ∃ result, construct s = .ok result ∧ resultSalt result = s.saltAt n ∧
      ∀ start ≤ n, ∀ bound : Option Nat, (∀ limit ∈ bound, n - start < limit) →
        construct (s.startedAt start bound) = .ok result
  /-- The attempts are exhausted just if there are as many as the bound allows, and all of them
  leave a core of distinct keys. -/
  exhausted_iff : ∀ count, construct s = refuse (.attemptsExhausted count) ↔
    s.maxAttempts = some count ∧ count ≤ attemptRoom ∧ keys.Nodup ∧
      ∀ n < count, Stalls keys third (s.saltAt n)
  /-- A slot has too many keys just if it has so in an attempt that the search comes to. -/
  full_iff : ∀ slot degree, construct s = refuse (.degenerateSlot slot degree) ↔
    ∃ n, s.Reaches keys third n ∧
      peel keys third (s.saltAt n) = refuse (.degenerateSlot slot degree)
  /-- A key is named just if the first attempt fails, and the key is the smallest repeated one. -/
  repeated_iff : ∀ key, construct s = refuse (.invalidArgument (.repeatedKey key)) ↔
    Stalls keys third s.salt ∧ SmallestRepeated keys key
  /-- The counter of the attempts overruns just if the search is endless. -/
  overrun_iff : construct s = violate .overflow ↔ s.Endless keys third

theorem search_decided (hpos : 0 < third) (hle : third ≤ 2 ^ 32)
    (hpositive : ∀ limit ∈ s.maxAttempts, 0 < limit) :
    DecidedByAttempts Solution.salt
      (fun s => (search keys third s.maxAttempts attemptRoom 0 s.salt).outcome) s keys third where
  built_iff := by
    simp only [search_eq_iff hpos hle hpositive]
    constructor
    · intro hbuilt
      obtain ⟨found, hending⟩ := hbuilt
      cases hending with
      | peeled reached peels => exact ⟨_, reached, _, peels⟩
    · intro hpeeled
      obtain ⟨n, hreached, order, hpeel⟩ := hpeeled
      exact ⟨_, .peeled hreached hpeel⟩
  same := by
    intro n hreached hpeels
    obtain ⟨order, hpeel⟩ := hpeels
    refine ⟨_, (Ending.peeled hreached hpeel).outcome_eq hpositive, rfl, ?_⟩
    intro start hstart bound hbound
    have hsalt : (s.startedAt start bound).saltAt (n - start) = s.saltAt n := by
      rw [s.saltAt_startedAt, Nat.add_sub_cancel' hstart]
    have hpositive' : ∀ limit ∈ bound, 0 < limit := by
      intro limit hlimit
      have hlater := hbound limit hlimit
      omega
    rw [← hsalt] at hpeel ⊢
    exact (Ending.peeled (hreached.startedAt hstart hbound) hpeel).outcome_eq hpositive'
  exhausted_iff := by
    intro count
    rw [search_eq_iff hpos hle hpositive]
    constructor
    · intro hending
      cases hending with
      | exhausted bounded counted distinct stalled => exact ⟨bounded, counted, distinct, stalled⟩
    · intro hexhausted
      obtain ⟨hbounded, hcounted, hdistinct, hstalled⟩ := hexhausted
      exact .exhausted hbounded hcounted hdistinct hstalled
  full_iff := by
    intro slot degree
    rw [search_eq_iff hpos hle hpositive]
    constructor
    · intro hending
      cases hending with
      | full reached overloads => exact ⟨_, reached, overloads⟩
    · intro hfull
      obtain ⟨n, hreached, hoverloads⟩ := hfull
      exact .full hreached hoverloads
  repeated_iff := by
    intro key
    rw [search_eq_iff hpos hle hpositive]
    constructor
    · intro hending
      cases hending with
      | repeated stalls smallest => exact ⟨stalls, smallest⟩
    · intro hrepeated
      exact .repeated hrepeated.1 hrepeated.2
  overrun_iff := by
    rw [search_eq_iff hpos hle hpositive]
    constructor
    · intro hending
      cases hending with
      | overrun endless => exact endless
    · intro hendless
      exact .overrun hendless

/-- What follows a construction does not change how it is decided, if it cannot fail and keeps the
salt. -/
theorem DecidedByAttempts.bind {α β : Type} {resultSalt : α → UInt64} {resultSalt' : β → UInt64}
    {first : Settings → Outcome α} {next : α → Outcome β} {construct : Settings → Outcome β}
    (h : DecidedByAttempts resultSalt first s keys third)
    (hconstruct : ∀ salt bound, construct { s with salt := salt, maxAttempts := bound } =
      first { s with salt := salt, maxAttempts := bound } >>= next)
    (hnext : ∀ a, first s = .ok a → ∃ b, next a = .ok b ∧ resultSalt' b = resultSalt a) :
    DecidedByAttempts resultSalt' construct s keys third := by
  have hself : construct s = first s >>= next := hconstruct s.salt s.maxAttempts
  have hfails : ∀ failure, construct s = .error failure ↔ first s = .error failure := by
    intro failure
    rw [hself]
    cases hfirst : first s with
    | error failure' =>
      constructor <;>
      · intro heq
        cases heq
        rfl
    | ok a =>
      obtain ⟨b, hb, -⟩ := hnext a hfirst
      rw [ok_bind, hb]
      exact ⟨nofun, nofun⟩
  refine ⟨?_, fun n hreached hpeels => ?_, fun count => (hfails _).trans (h.exhausted_iff count),
    fun slot degree => (hfails _).trans (h.full_iff slot degree),
    fun key => (hfails _).trans (h.repeated_iff key), (hfails _).trans h.overrun_iff⟩
  · rw [← h.built_iff]
    constructor
    · intro hbuilt
      obtain ⟨b, hb⟩ := hbuilt
      rw [hself, bind_eq_ok_iff] at hb
      obtain ⟨a, ha, -⟩ := hb
      exact ⟨a, ha⟩
    · intro hbuilt
      obtain ⟨a, ha⟩ := hbuilt
      obtain ⟨b, hb, -⟩ := hnext a ha
      exact ⟨b, by rw [hself, ha, ok_bind, hb]⟩
  · obtain ⟨a, ha, hsalt, hsame⟩ := h.same n hreached hpeels
    obtain ⟨b, hb, hsalt'⟩ := hnext a ha
    refine ⟨b, ?_, hsalt'.trans hsalt, fun start hstart bound hbound => ?_⟩
    · rw [hself, ha, ok_bind, hb]
    · have hstarted := hsame start hstart bound hbound
      rw [Settings.startedAt] at hstarted ⊢
      rw [hconstruct, hstarted, ok_bind, hb]

/-- Constructions of tables of any kind and width are decided by the salts. -/
theorem decided_of_buildTable {σ : Type} [SlotArray σ] [LawfulSlots σ]
    {construct : Settings → Outcome (Table σ)}
    (hconstruct : ∀ salt bound, construct { s with salt := salt, maxAttempts := bound } =
      (buildTable { s with salt := salt, maxAttempts := bound } keys width :
        Traced (Table σ)).outcome)
    (hpositive : ∀ limit ∈ s.maxAttempts, 0 < limit) (hthird : thirdFor keys.length = .ok third)
    (hle : third ≤ 2 ^ 32) (hadmits : LawfulSlots.Admits σ width) (hwidth : width ≤ 64)
    (hzeros : ∃ empty : σ, SlotArray.zeros (3 * third) width = .ok empty) :
    DecidedByAttempts Table.salt construct s keys third := by
  have hpos := thirdFor_pos hthird
  obtain ⟨empty, hempty⟩ := hzeros
  have hfollows : ∀ salt bound, construct { s with salt := salt, maxAttempts := bound } =
      (search keys third bound attemptRoom 0 salt).outcome >>= complete third width := by
    intro salt bound
    rw [hconstruct, buildTable_outcome hthird]
  refine (search_decided hpos hle hpositive).bind hfollows fun found hfound => ?_
  obtain ⟨t, ht, hsolves⟩ := complete_eq_ok hpos hadmits hwidth hempty (search_peels hfound)
  exact ⟨t, ht, hsolves.salt_eq⟩

/-- Filters of all three kinds are made under the first salt that peels the keys, whatever bound and
start let the search come to it. A search ends without a filter for one of the reasons that can be
read off the salts before. There has to be at least one attempt, as for all bounds that can be
set. -/
theorem first_salt_that_peels_is_taken (s : Settings) (keys : List UInt64) {third : Nat}
    (hpositive : ∀ limit ∈ s.maxAttempts, 0 < limit) (hthird : thirdFor keys.length = .ok third)
    (hle : third ≤ 2 ^ 32) :
    (0 < s.width → s.width ≤ 32 →
      DecidedByAttempts Table.salt (fun s => (buildPacked s keys).outcome) s keys third) ∧
    DecidedByAttempts Table.salt (fun s => (buildBytes s keys).outcome) s keys third ∧
    DecidedByAttempts Table.salt (fun s => (buildWords s keys).outcome) s keys third := by
  refine ⟨fun hpos hwidth => ?_, ?_, ?_⟩
  · have hword : s.width ≤ 64 := by omega
    have hadmits : LawfulSlots.Admits PackedArray s.width := ⟨hpos, hword⟩
    exact decided_of_buildTable (fun salt bound => buildPacked_outcome ⟨hpos, hwidth⟩) hpositive
      hthird hle hadmits hword (PackedArray.zeros_of_third_le hle hwidth)
  · exact decided_of_buildTable (fun salt bound => rfl) hpositive hthird hle rfl (by decide)
      ⟨_, rfl⟩
  · exact decided_of_buildTable (fun salt bound => rfl) hpositive hthird hle rfl (by decide)
      ⟨_, rfl⟩

/-- Three keys stall under the salt 7 and peel under the salt 8: two attempts make the table that is
made under the salt 8 at once, and one attempt is not enough. -/
theorem second_salt_is_taken :
    (∃ t, (buildBytes { salt := 7, maxAttempts := some 2 } [1, 2, 3]).outcome = .ok t ∧
      t.salt = 8 ∧ (buildBytes { salt := 8 } [1, 2, 3]).outcome = .ok t) ∧
    (buildBytes { salt := 7, maxAttempts := some 1 } [1, 2, 3]).outcome =
      refuse (.attemptsExhausted 1) := by
  have hthird : thirdFor [(1 : UInt64), 2, 3].length = .ok 2 := by decide +kernel
  have hstalls : Stalls [1, 2, 3] 2 7 := ⟨1, by decide +kernel⟩
  have hpeels : Peels [1, 2, 3] 2 8 := ⟨[⟨3, 4⟩, ⟨2, 1⟩, ⟨1, 5⟩], by decide +kernel⟩
  have hfirst : ∀ n < 1, Stalls [1, 2, 3] 2 (7 + UInt64.ofNat n) := by
    intro n hn
    obtain rfl : n = 0 := by omega
    exact hstalls
  have htwo : ({ salt := 7 } : Settings).withMaxAttempts 2 =
      .ok { salt := 7, maxAttempts := some 2 } := rfl
  have hone : ({ salt := 7 } : Settings).withMaxAttempts 1 =
      .ok { salt := 7, maxAttempts := some 1 } := rfl
  constructor
  · have hdecided := (first_salt_that_peels_is_taken { salt := 7, maxAttempts := some 2 } [1, 2, 3]
      (Settings.positive_of_withMaxAttempts htwo) hthird (by decide)).2.1
    obtain ⟨t, ht, hsalt, hsame⟩ :=
      hdecided.same 1 ⟨by decide, by simp, hfirst, fun _ => by decide⟩ hpeels
    exact ⟨t, ht, hsalt, hsame 1 (Nat.le_refl 1) none nofun⟩
  · have hdecided := (first_salt_that_peels_is_taken { salt := 7, maxAttempts := some 1 } [1, 2, 3]
      (Settings.positive_of_withMaxAttempts hone) hthird (by decide)).2.1
    exact (hdecided.exhausted_iff 1).2 ⟨rfl, by decide, by decide, hfirst⟩

end ApproxSet.XorSet
