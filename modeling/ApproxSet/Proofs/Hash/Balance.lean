import ApproxSet.Proofs.Hash.Scale
import Mathlib.Algebra.Order.Floor.Div
import Mathlib.Data.Set.Card
import Mathlib.Order.Interval.Finset.Nat

/-!
# Every place gets its share of the hashes

The hashes that are mapped onto a place form an interval. It begins at the first hash whose product
with the number of places reaches the place, and ends where the interval of the next place begins.
These borders are quotients that are rounded up, and the dividend grows by `2 ^ 32` from one border
to the next. So an interval has the `n`-th part of all hashes, rounded down or up.
-/

namespace ApproxSet.Hash

variable {n v : Nat} {hash hash' : UInt32}

/-! ### Quotients of sums -/

theorem add_ceilDiv_le (hpos : 0 < n) (a b : Nat) : (a + b) ⌈/⌉ n ≤ a ⌈/⌉ n + b ⌈/⌉ n := by
  rw [ceilDiv_le_iff_le_mul hpos, Nat.mul_add]
  exact Nat.add_le_add (le_smul_ceilDiv hpos) (le_smul_ceilDiv hpos)

theorem ceilDiv_add_div_le (hpos : 0 < n) (a b : Nat) : a ⌈/⌉ n + b / n ≤ (a + b) ⌈/⌉ n := by
  simp only [Nat.ceilDiv_eq_add_pred_div]
  have hsum : a + b + n - 1 = a + n - 1 + b := by omega
  rw [hsum]
  exact Nat.div_add_div_le_add_div

theorem ceilDiv_le_div_add_one (a n : Nat) : a ⌈/⌉ n ≤ a / n + 1 := by
  rcases Nat.eq_zero_or_pos n with rfl | hpos
  · simp
  · rw [ceilDiv_le_iff_le_mul hpos]
    exact (Nat.lt_mul_div_succ a hpos).le

/-! ### Borders -/

/-- The least number of a hash that is mapped onto the place `v` of `n`, or onto one behind it. -/
def border (n v : Nat) : Nat :=
  (v * 2 ^ 32) ⌈/⌉ n

theorem border_le_iff (hpos : 0 < n) {number : Nat} :
    border n v ≤ number ↔ v ≤ number * n / 2 ^ 32 := by
  rw [border, ceilDiv_le_iff_le_mul hpos, Nat.le_div_iff_mul_le (by decide), Nat.mul_comm n]

theorem place_eq_iff (hpos : 0 < n) :
    place hash n = v ↔ border n v ≤ hash.toNat ∧ hash.toNat < border n (v + 1) := by
  have hnext : hash.toNat < border n (v + 1) ↔ ¬v + 1 ≤ hash.toNat * n / 2 ^ 32 := by
    rw [← border_le_iff hpos, Nat.not_le]
  rw [border_le_iff hpos, hnext, place]
  omega

/-- No hash lies behind the last place. -/
theorem border_le (hpos : 0 < n) (h : v ≤ n) : border n v ≤ 2 ^ 32 := by
  rw [border_le_iff hpos, Nat.mul_div_cancel_left _ (by decide)]
  exact h

/-- The hashes of a place are counted by the borders on both sides of it. -/
theorem ncard_place_eq (hpos : 0 < n) (h : v < n) :
    {hash | place hash n = v}.ncard = border n (v + 1) - border n v := by
  have himage : UInt32.toNat '' {hash | place hash n = v} =
      (Finset.Ico (border n v) (border n (v + 1)) : Set Nat) := by
    ext number
    rw [Finset.coe_Ico, Set.mem_Ico]
    constructor
    · rintro ⟨hash, hplace, rfl⟩
      exact (place_eq_iff hpos).1 hplace
    · intro hnumber
      have hlast := border_le hpos (show v + 1 ≤ n from h)
      have hword : (UInt32.ofNat number).toNat = number :=
        UInt32.toNat_ofNat_of_lt' (Nat.lt_of_lt_of_le hnumber.2 hlast)
      exact ⟨UInt32.ofNat number, (place_eq_iff hpos).2 (hword.symm ▸ hnumber), hword⟩
  rw [← Set.ncard_image_of_injective _ fun _ _ => UInt32.toNat_inj.1, himage,
    Set.ncard_coe_finset, Nat.card_Ico]

/-- The share of a place is the `n`-th part of all hashes, rounded down or up. -/
theorem ncard_place_cases (hpos : 0 < n) (h : v < n) :
    {hash | place hash n = v}.ncard = 2 ^ 32 / n ∨
      {hash | place hash n = v}.ncard = 2 ^ 32 ⌈/⌉ n := by
  have hnext : (v + 1) * 2 ^ 32 = v * 2 ^ 32 + 2 ^ 32 := Nat.succ_mul _ _
  have hleast := ceilDiv_add_div_le hpos (v * 2 ^ 32) (2 ^ 32)
  have hmost := add_ceilDiv_le hpos (v * 2 ^ 32) (2 ^ 32)
  have hround := ceilDiv_le_div_add_one (2 ^ 32) n
  rw [ncard_place_eq hpos h, border, border, hnext]
  omega

theorem place_mono (n : Nat) (h : hash ≤ hash') : place hash n ≤ place hash' n :=
  Nat.div_le_div_right (Nat.mul_le_mul_right n (UInt32.le_iff_toNat_le.1 h))

/-- Up to `2 ^ 32` places, every hash has a place, which is the quotient of its product with their
number; greater hashes do not have smaller places; and each place is that of the `n`-th part of all
hashes, rounded down or up, and of one hash at least. -/
theorem places_are_in_order_and_share_evenly {n : Nat} (hpos : 0 < n) (hle : n ≤ 2 ^ 32) :
    (∀ hash : UInt32, hash.toNat * n < 2 ^ 64 ∧ hash.toNat * n / 2 ^ 32 < n ∧
      scale hash n = .ok (hash.toNat * n / 2 ^ 32)) ∧
    (∀ (hash hash' : UInt32) (v v' : Nat), hash ≤ hash' → scale hash n = .ok v →
      scale hash' n = .ok v' → v ≤ v') ∧
    ∀ v < n, (∃ hash, scale hash n = .ok v) ∧
      ({hash | scale hash n = .ok v}.ncard = 2 ^ 32 / n ∨
        {hash | scale hash n = .ok v}.ncard = 2 ^ 32 ⌈/⌉ n) := by
  refine ⟨fun hash => ?_, fun hash hash' v v' h hv hv' => ?_, fun v hv => ?_⟩
  · have hplace := scale_eq_ok hash hle
    exact ⟨(scale_eq_ok_iff.1 hplace).1, place_lt hash hpos, hplace⟩
  · rw [scale_eq_place hv, scale_eq_place hv']
    exact place_mono n h
  · have hsame : {hash | scale hash n = .ok v} = {hash | place hash n = v} := by
      ext hash
      rw [Set.mem_ofPred_eq, Set.mem_ofPred_eq, scale_eq_ok hash hle, Except.ok.injEq]
    have hshare := ncard_place_cases hpos hv
    rw [← hsame] at hshare
    refine ⟨?_, hshare⟩
    have hpositive : 0 < {hash | scale hash n = .ok v}.ncard := by
      have hfloor : 0 < 2 ^ 32 / n := Nat.div_pos hle hpos
      have hceil : 2 ^ 32 ⌊/⌋ n ≤ 2 ^ 32 ⌈/⌉ n := floorDiv_le_ceilDiv
      rw [Nat.floorDiv_eq_div] at hceil
      omega
    exact Set.nonempty_of_ncard_ne_zero (Nat.ne_of_gt hpositive)

/-- Three places: the hash `0x55555555` is the last of the first place. -/
theorem three_places_share_all_hashes :
    scale 0x55555555 3 = .ok 0 ∧ scale 0x55555556 3 = .ok 1 ∧ scale 0xffffffff 3 = .ok 2 ∧
    ({hash | scale hash 3 = .ok 0}.ncard = 1431655765 ∨
      {hash | scale hash 3 = .ok 0}.ncard = 1431655766) := by
  obtain ⟨hvalues, -, hshares⟩ := places_are_in_order_and_share_evenly (n := 3)
    (by decide) (by decide)
  exact ⟨(hvalues _).2.2, (hvalues _).2.2, (hvalues _).2.2, (hshares 0 (by decide)).2⟩

end ApproxSet.Hash
