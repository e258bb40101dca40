import ApproxSet.Proofs.XorSet.Searching

/-!
# The order of the keys

A mesh is determined by the keys on it, whatever order they came in. Peeling starts with the lone
slots of the mesh, so it takes the same course for any order of the keys, and so does the search for
a salt. Only the slot that is named when a slot has too many keys depends on the order: it is the
first one to overflow.
-/

namespace ApproxSet.XorSet

open Outcome

/-- The same reason to turn keys down, except that another slot may have too many of them. -/
inductive SameButSlot : Refusal → Refusal → Prop where
  | same (reason : Refusal) : SameButSlot reason reason
  | slot (slot slot' degree : Nat) :
      SameButSlot (.degenerateSlot slot degree) (.degenerateSlot slot' degree)

variable {s : Settings} {keys keys' : List UInt64} {third width room attempts : Nat}
  {bound : Option Nat} {salt : UInt64}

/-! ### Peeling -/

/-- Meshes that describe the same keys are equal. -/
theorem Mesh.Describes.unique {m m' : Mesh} (h : m.Describes third salt keys)
    (h' : m'.Describes third salt keys) : m = m' := by
  have hdegree : ∀ slot, m.degree slot = m'.degree slot := by
    intro slot
    rw [h.degree, h'.degree]
  have hsum : ∀ slot, m.sumAt slot = m'.sumAt slot := by
    intro slot
    rw [h.sum, h'.sum]
  obtain ⟨degrees, sums⟩ := m
  obtain ⟨degrees', sums'⟩ := m'
  have hdegrees : degrees = degrees' := by
    apply Array.ext
    · exact h.degrees_size.trans h'.degrees_size.symm
    · intro slot hslot hslot'
      simpa [Mesh.degree, Array.getD, hslot, hslot'] using hdegree slot
  have hsums : sums = sums' := by
    apply Array.ext
    · exact h.sums_size.trans h'.sums_size.symm
    · intro slot hslot hslot'
      simpa [Mesh.sumAt, Array.getD, hslot, hslot'] using hsum slot
  rw [hdegrees, hsums]

/-- Keys that fit on the mesh are peeled alike in any order. -/
theorem peel_perm (hpos : 0 < third) (hle : third ≤ 2 ^ 32) (hperm : keys.Perm keys')
    (hlight : Light third salt keys) : peel keys third salt = peel keys' third salt := by
  have hmul : Checked.mul 64 3 third = .ok (3 * third) := Checked.mul_eq_ok (by omega)
  rcases Mesh.addKeys_cases hpos hle keys salt with ⟨-, m, hm⟩ | ⟨hheavy, -⟩
  · rcases Mesh.addKeys_cases hpos hle keys' salt with
      ⟨-, m', hm'⟩ | ⟨hheavy, -⟩
    · have hdescribes := (Mesh.describes_addKeys hpos hm).1.perm hperm
      obtain rfl := hdescribes.unique (Mesh.describes_addKeys hpos hm').1
      rw [peel, peel, hmul, ok_bind, ok_bind, hm, hm', hperm.length_eq]
    · exact absurd (hlight.perm hperm) hheavy
  · exact absurd hlight hheavy

/-- Peeling ends alike for any order of the keys. -/
theorem peel_alike (hpos : 0 < third) (hle : third ≤ 2 ^ 32) (hperm : keys.Perm keys') :
    Alike (FailAlike SameButSlot True) Eq (peel keys third salt) (peel keys' third salt) := by
  rcases peel_cases hpos hle keys salt with ⟨hlight, remainder, hpeel⟩ | ⟨hheavy, slot, hrefused⟩
  · rw [← peel_perm hpos hle hperm hlight, hpeel]
    exact .answer rfl
  · rcases peel_cases hpos hle keys' salt with ⟨hlight, -⟩ | ⟨-, slot', hrefused'⟩
    · exact absurd (hlight.perm hperm.symm) hheavy
    · rw [hrefused, hrefused']
      exact .failure (.refused (.slot slot slot' _))

/-! ### The search for a salt -/

theorem demandDistinctIf_perm (condition : Prop) [Decidable condition] (hperm : keys.Perm keys') :
    demandDistinctIf condition keys = demandDistinctIf condition keys' := by
  rw [demandDistinctIf, demandDistinctIf, demandDistinct_perm hperm]

/-- The searches go through the same salts and end alike. -/
theorem search_alike (hpos : 0 < third) (hle : third ≤ 2 ^ 32) (hperm : keys.Perm keys') :
    Alike (FailAlike SameButSlot True) Eq (search keys third bound room attempts salt).outcome
      (search keys' third bound room attempts salt).outcome := by
  induction room generalizing attempts salt with
  | zero => exact .failure (.overrun trivial)
  | succ room ih =>
    rw [search, search, Traced.outcome_bind, Traced.outcome_bind, Traced.outcome_lift,
      Traced.outcome_lift]
    refine (peel_alike hpos hle hperm).bind fun remainder _ hsame => ?_
    subst hsame
    cases remainder with
    | nothing order => exact .answer rfl
    | core peeled =>
      simp only [Traced.outcome_bind, Traced.outcome_lift, Traced.outcome_report, ok_bind]
      rcases demandDistinctIf_cases (attempts = 0) keys with ⟨-, hok⟩ | ⟨-, key, -, hrefused⟩
      · rw [← demandDistinctIf_perm _ hperm, hok, ok_bind, ok_bind]
        exact (alike_demand (.same _)).bind fun _ _ _ => ih
      · rw [← demandDistinctIf_perm _ hperm, hrefused]
        exact .failure (.refused (.same _))

/-- Searches from the start find the same salt, under which the keys peel. If they break off
together, they are endless. -/
theorem search_perm (hpos : 0 < third) (hle : third ≤ 2 ^ 32) (hperm : keys.Perm keys') :
    Alike (FailAlike SameButSlot (s.Endless keys third))
      (fun found found' => found = found' ∧ peel keys third found.salt = .ok (.nothing found.order))
      (search keys third s.maxAttempts attemptRoom 0 s.salt).outcome
      (search keys' third s.maxAttempts attemptRoom 0 s.salt).outcome := by
  refine (search_alike hpos hle hperm).imp (fun found found' hfound _ hsame => ?_)
    fun failure failure' hfailure halike => ?_
  · exact ⟨hsame, search_peels hfound⟩
  · cases halike with
    | refused hreason => exact .refused hreason
    | overrun =>
      rcases search_failure hpos hle hfailure with ⟨reason, hreason⟩ | ⟨-, hendless⟩
      · cases hreason
      · exact .overrun hendless

/-! ### The constructions -/

/-- Tables of any kind and width are the same for any order of the keys. -/
theorem buildTable_perm {σ : Type} [SlotArray σ] [LawfulSlots σ] {empty : σ}
    (hperm : keys.Perm keys') (hthird : thirdFor keys.length = .ok third) (hle : third ≤ 2 ^ 32)
    (hadmits : LawfulSlots.Admits σ width) (hwidth : width ≤ 64)
    (hempty : SlotArray.zeros (3 * third) width = .ok empty) :
    Alike (FailAlike SameButSlot (s.Endless keys third)) Eq
      (buildTable s keys width : Traced (Table σ)).outcome
      (buildTable s keys' width : Traced (Table σ)).outcome := by
  have hpos := thirdFor_pos hthird
  rw [buildTable_outcome hthird, buildTable_outcome (hperm.length_eq ▸ hthird)]
  refine (search_perm hpos hle hperm).bind fun found found' hfound => ?_
  obtain ⟨rfl, hpeel⟩ := hfound
  obtain ⟨t, ht, -⟩ := complete_eq_ok hpos hadmits hwidth hempty hpeel
  rw [ht]
  exact .answer rfl

/-- Under a bound on the attempts that fits into 32 bits, keys in any order make the same table, or
they are turned down for the same reason. -/
theorem buildTable_perm_of_bounded {σ : Type} [SlotArray σ] [LawfulSlots σ] {empty : σ}
    {limit : Nat} (hlimit : limit ∈ s.maxAttempts) (hfits : limit < 2 ^ 32)
    (hperm : keys.Perm keys') (hthird : thirdFor keys.length = .ok third) (hle : third ≤ 2 ^ 32)
    (hadmits : LawfulSlots.Admits σ width) (hwidth : width ≤ 64)
    (hempty : SlotArray.zeros (3 * third) width = .ok empty) :
    Alike (FailAlike SameButSlot False) Eq (buildTable s keys width : Traced (Table σ)).outcome
      (buildTable s keys' width : Traced (Table σ)).outcome :=
  Settings.alike_of_bounded hlimit hfits (buildTable_perm hperm hthird hle hadmits hwidth hempty)

/-- For all settings, in tables with thirds of up to `2 ^ 32` slots: keys in any order make the very
same filter of each kind, or they are turned down for the same reason, but for the slot that may be
named in it. The third case is that of an endless search, which there is not under a bound below
`2 ^ 32`. -/
theorem order_of_keys_is_irrelevant (s : Settings) (hperm : keys.Perm keys')
    (hthird : thirdFor keys.length = .ok third) (hle : third ≤ 2 ^ 32) :
    Alike (FailAlike SameButSlot (s.Endless keys third)) Eq
      (buildPacked s keys).outcome (buildPacked s keys').outcome ∧
    Alike (FailAlike SameButSlot (s.Endless keys third)) Eq
      (buildBytes s keys).outcome (buildBytes s keys').outcome ∧
    Alike (FailAlike SameButSlot (s.Endless keys third)) Eq
      (buildWords s keys).outcome (buildWords s keys').outcome := by
  refine ⟨?_, ?_, ?_⟩
  · by_cases hwidth : 0 < s.width ∧ s.width ≤ 32
    · obtain ⟨slots, hslots⟩ := PackedArray.zeros_of_third_le hle hwidth.2
      have hadmits : LawfulSlots.Admits PackedArray s.width := ⟨hwidth.1, by omega⟩
      rw [buildPacked_outcome hwidth, buildPacked_outcome hwidth]
      exact buildTable_perm hperm hthird hle hadmits (by omega) hslots
    · rw [buildPacked, buildPacked, Traced.outcome_bind, Traced.outcome_bind, Traced.outcome_lift,
        demandWidth, demand, if_neg hwidth]
      exact .failure (.refused (.same _))
  · exact buildTable_perm hperm hthird hle rfl (by decide) rfl
  · exact buildTable_perm hperm hthird hle rfl (by decide) rfl

/-- Three keys in two orders, in packed slots and in octets; and two pairs of equal keys, of which
the smaller key is named in either order. -/
theorem three_keys_in_either_order :
    ((buildPacked { width := 5 } [1, 2, 3]).outcome = .ok ⟨2, 2, 5, ⟨⟨#[775454720], 30⟩, 5⟩⟩ ∧
      (buildPacked { width := 5 } [3, 1, 2]).outcome =
        .ok ⟨2, 2, 5, ⟨⟨#[775454720], 30⟩, 5⟩⟩) ∧
    ((buildBytes { salt := 7, maxAttempts := some 3 } [1, 2, 3]).outcome =
        .ok ⟨8, 2, 8, #[0, 87, 0, 0, 96, 122]⟩ ∧
      (buildBytes { salt := 7, maxAttempts := some 3 } [3, 1, 2]).outcome =
        .ok ⟨8, 2, 8, #[0, 87, 0, 0, 96, 122]⟩) ∧
    ((buildWords {} [7, 4, 7, 4]).outcome = refuse (.invalidArgument (.repeatedKey 4)) ∧
      (buildWords {} [4, 4, 7, 7]).outcome = refuse (.invalidArgument (.repeatedKey 4))) := by
  have hthird : thirdFor [(1 : UInt64), 2, 3].length = .ok 2 := by decide +kernel
  have hthird' : thirdFor [(7 : UInt64), 4, 7, 4].length = .ok 2 := by decide +kernel
  have hpacked : (buildPacked { width := 5 } [1, 2, 3]).outcome =
      .ok ⟨2, 2, 5, ⟨⟨#[775454720], 30⟩, 5⟩⟩ := by decide +kernel
  have hbytes : (buildBytes { salt := 7, maxAttempts := some 3 } [1, 2, 3]).outcome =
      .ok ⟨8, 2, 8, #[0, 87, 0, 0, 96, 122]⟩ := by decide +kernel
  have hwords : (buildWords {} [7, 4, 7, 4]).outcome =
      refuse (.invalidArgument (.repeatedKey 4)) := by decide +kernel
  have hsame := (order_of_keys_is_irrelevant { width := 5 }
    (show [(1 : UInt64), 2, 3].Perm [3, 1, 2] by decide) hthird (by decide)).1
  have hsame' := (order_of_keys_is_irrelevant { salt := 7, maxAttempts := some 3 }
    (show [(1 : UInt64), 2, 3].Perm [3, 1, 2] by decide) hthird (by decide)).2.1
  have hrefused := (order_of_keys_is_irrelevant {}
    (show [(7 : UInt64), 4, 7, 4].Perm [4, 4, 7, 7] by decide) hthird' (by decide)).2.2
  rw [hpacked] at hsame
  rw [hbytes] at hsame'
  rw [hwords] at hrefused
  obtain ⟨reason, hreason, hrelated⟩ := hrefused.eq_refuse
  cases hrelated
  exact ⟨⟨hpacked, hsame.eq_ok⟩, ⟨hbytes, hsame'.eq_ok⟩, ⟨hwords, hreason⟩⟩

end ApproxSet.XorSet
