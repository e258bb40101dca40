import ApproxSet.Proofs.CacheLine.Ranking
import ApproxSet.Proofs.Numbers.Products
import Mathlib.Algebra.Group.Fin.Basic
import Mathlib.Data.Fintype.Fin
import Mathlib.Tactic.Abel

/-!
# The verdict on the scores

The eight places in front of a line are the ones whose pair straddles its border. The verdict names
a line if these lead by the separation: each of them has a higher score than each of the other
places, and the lowest of their scores is at least the highest of the others times the separation.

A product by a number above one exceeds every score but zero. So the eighth and the ninth score can
only be equal, and the choice of the leaders arbitrary, when both are zero. Then ties are broken by
the index, and a line is named without any signal if the scoreless places that get to be leaders
complete a run.
-/

namespace ApproxSet.CacheLine

open Numbers

variable {scores : Scores} {separation : Float} {start line place : Fin 64}
  {places : List (Fin 64)} {chosen : Finset (Fin 64)} {distance : Nat}

/-! ### Runs -/

/-- The places that are less than the given distance behind the start. -/
def run (start : Fin 64) (distance : Nat) : Finset (Fin 64) :=
  Finset.univ.filter fun place => (place - start).val < distance

theorem mem_run : place ∈ run start distance ↔ (place - start).val < distance := by
  simp [run]

theorem card_run (start : Fin 64) (h : distance ≤ 64) : (run start distance).card = distance := by
  have hmoved : run start distance =
      (Finset.univ.filter fun offset : Fin 64 => offset.val < distance).map
        (Equiv.addRight start).toEmbedding := by
    ext place
    simp [mem_run, sub_eq_add_neg]
  rw [hmoved, Finset.card_map, Fin.card_filter_val_lt, min_eq_right h]

/-- Among places only one of which has no predecessor, a way back from any of them ends there. -/
theorem run_subset (hstart : ∀ place ∈ chosen, place - 1 ∉ chosen → place = start)
    (hplace : place ∈ chosen) : run start ((place - start).val + 1) ⊆ chosen := by
  induction hoffset : (place - start).val generalizing place with
  | zero =>
    intro other hother
    rw [mem_run] at hother
    have hsame : other - start = place - start := Fin.ext (by omega)
    rwa [sub_left_injective hsame]
  | succ offset ih =>
    intro other hother
    rw [mem_run] at hother
    rcases Nat.eq_or_lt_of_le (Nat.le_of_lt_succ hother) with hsame | hnear
    · rw [← hoffset] at hsame
      rwa [sub_left_injective (Fin.ext hsame)]
    · -- a place apart from the start has its predecessor among the chosen ones
      have hapart : place - start ≠ 0 := fun hzero => by
        rw [hzero] at hoffset
        cases hoffset
      have hback : place - 1 ∈ chosen := by
        by_contra hfirst
        exact hapart (sub_eq_zero.2 (hstart place hplace hfirst))
      have hoffset' : (place - 1 - start).val = offset := by
        rw [show place - 1 - start = place - start - 1 by abel, Fin.val_sub_one_of_ne_zero hapart,
          hoffset, Nat.add_sub_cancel]
      exact ih hback hoffset' (mem_run.2 hnear)

theorem runStart_eq_some_iff :
    runStart places = some start ↔
      ∀ place, place ∈ places ∧ place - 1 ∉ places ↔ place = start := by
  have hfilter : runStart places = some start ↔ (List.finRange 64).filter
      (fun place => places.contains place && !places.contains (place - 1)) = [start] := by
    rw [runStart]
    split
    case h_1 first hfirst => rw [hfirst, Option.some.injEq, List.singleton_inj]
    case h_2 hnone => exact ⟨nofun, fun hsome => absurd hsome (hnone start)⟩
  rw [hfilter]
  constructor
  · intro honly place
    have hmem : place ∈ [start] ↔ place ∈ places ∧ place - 1 ∉ places := by
      rw [← honly]
      simp
    rw [← hmem, List.mem_singleton]
  · intro honly
    have hcongr : ∀ place ∈ List.finRange 64,
        (places.contains place && !places.contains (place - 1)) = (place == start) :=
      fun place _ => by
        rw [Bool.eq_iff_iff, beq_iff_eq, ← honly place]
        simp
    rw [List.filter_congr hcongr, List.filter_beq,
      List.count_eq_one_of_mem (List.nodup_finRange 64) (List.mem_finRange start)]
    rfl

/-- Eight places have a start of their run exactly if they are a run. -/
theorem runStart_eq_some_iff_run (hcard : places.toFinset.card = pairDistance) :
    runStart places = some start ↔ places.toFinset = run start pairDistance := by
  rw [runStart_eq_some_iff]
  constructor
  · intro hunique
    have hstart : ∀ place ∈ places.toFinset, place - 1 ∉ places.toFinset → place = start :=
      fun place hplace hfirst => by
        rw [List.mem_toFinset] at hplace hfirst
        exact (hunique place).1 ⟨hplace, hfirst⟩
    have hsubset : places.toFinset ⊆ run start pairDistance := fun place hplace => by
      have hback := Finset.card_le_card (run_subset hstart hplace)
      rw [hcard, card_run start (place - start).isLt] at hback
      exact mem_run.2 hback
    exact Finset.eq_of_subset_of_card_le hsubset
      ((card_run start (by decide)).trans hcard.symm).le
  · intro hrun place
    rw [← List.mem_toFinset, ← List.mem_toFinset, hrun, mem_run, mem_run,
      show place - 1 - start = place - start - 1 by abel, ← sub_eq_zero (b := start)]
    generalize place - start = offset
    revert offset
    decide

/-! ### The verdict -/

/-- The eight places in front of a line. -/
def front (line : Fin 64) : Finset (Fin 64) :=
  Finset.univ.filter fun place => 0 < (line - place).val ∧ (line - place).val ≤ pairDistance

theorem front_eq_run (start : Fin 64) : front (start + 8) = run start pairDistance := by
  have hbefore : ∀ offset : Fin 64,
      0 < (8 - offset).val ∧ (8 - offset).val ≤ pairDistance ↔ offset.val < pairDistance := by
    decide
  ext place
  rw [front, Finset.mem_filter, mem_run, ← hbefore (place - start),
    show start + 8 - place = 8 - (place - start) by abel]
  exact and_iff_right (Finset.mem_univ place)

theorem card_front (line : Fin 64) : (front line).card = pairDistance := by
  rw [← sub_add_cancel line 8, front_eq_run, card_run _ (by decide)]

/-- A line is named if the eighth score is not too low, and the places in front of the line are
ranked first. -/
theorem lineStart_eq_some_iff {found : Nat} :
    lineStart scores separation = some found ↔ ∃ line : Fin 64, line.val = found ∧
      ¬(scoreAt scores (pairDistance - 1)).toFloat <
        (scoreAt scores pairDistance).toFloat * separation ∧
      (leaders scores).toFinset = front line := by
  have hcard : (leaders scores).toFinset.card = pairDistance := by
    rw [List.toFinset_card_of_nodup (nodup_leaders scores), length_leaders]
  rw [lineStart]
  split
  case isTrue hlow => simp [hlow]
  case isFalse hlow =>
    rw [← leaders, Option.map_eq_some_iff]
    constructor
    · rintro ⟨start, hstart, rfl⟩
      rw [runStart_eq_some_iff_run hcard, ← front_eq_run] at hstart
      exact ⟨start + 8, Fin.val_add start 8, hlow, hstart⟩
    · rintro ⟨line, rfl, -, hline⟩
      rw [← sub_add_cancel line 8, front_eq_run] at hline
      refine ⟨line - 8, (runStart_eq_some_iff_run hcard).2 hline, ?_⟩
      exact (Fin.val_add (line - 8) 8).symm.trans (congrArg Fin.val (sub_add_cancel line 8))

/-- The scores point at the line: each place in front of it has a higher score than each other
place, and the lowest score in front is at least the highest one elsewhere times the separation. -/
structure Leads (scores : Scores) (separation : Float) (line : Fin 64) : Prop where
  higher : ∀ place ∈ front line, ∀ other ∉ front line, scores.get other < scores.get place
  apart : ∃ lowest ∈ front line, ∃ highest ∉ front line,
    (∀ place ∈ front line, scores.get lowest ≤ scores.get place) ∧
    (∀ other ∉ front line, scores.get other ≤ scores.get highest) ∧
    (scores.get highest).toFloat * separation ≤ (scores.get lowest).toFloat

/-- Too few places have a score, and the first ones without any complete the places in front of the
line. -/
structure Padded (scores : Scores) (line : Fin 64) : Prop where
  short : ∃ place ∈ front line, scores.get place = 0
  silent : ∀ other ∉ front line, scores.get other = 0
  first : ∀ place ∈ front line, scores.get place = 0 → ∀ other ∉ front line, place < other

/-- The eighth and the ninth score belong to the lowest place in front of the line and to the
highest one elsewhere, if those in front are ranked first. -/
theorem exists_cut (hline : (leaders scores).toFinset = front line) :
    ∃ lowest ∈ front line, ∃ highest ∉ front line,
      scoreAt scores (pairDistance - 1) = scores.get lowest ∧
      scoreAt scores pairDistance = scores.get highest ∧
      (∀ place ∈ front line, scores.get lowest ≤ scores.get place) ∧
      ∀ other ∉ front line, scores.get other ≤ scores.get highest := by
  have hmem : ∀ place, place ∈ leaders scores ↔ place ∈ front line := fun place => by
    rw [← hline, List.mem_toFinset]
  obtain ⟨lowest, hlowest, heighth, hleast⟩ := exists_lowest scores
  obtain ⟨highest, hhighest, hninth, hmost⟩ := exists_highest scores
  simp only [hmem] at hlowest hleast hhighest hmost
  exact ⟨lowest, hlowest, highest, hhighest, heighth, hninth, hleast, hmost⟩

theorem Leads.leaders_eq (h : Leads scores separation line) :
    (leaders scores).toFinset = front line :=
  (leaders_eq_iff (front line) (card_front line)).2 fun place hplace other hother =>
    .inl (h.higher place hplace other hother)

theorem Padded.leaders_eq (h : Padded scores line) : (leaders scores).toFinset = front line := by
  refine (leaders_eq_iff (front line) (card_front line)).2 fun place hplace other hother => ?_
  by_cases hzero : scores.get place = 0
  · exact .inr ⟨hzero.trans (h.silent other hother).symm, h.first place hplace hzero other hother⟩
  · rw [Ahead, h.silent other hother]
    exact .inl (UInt64.pos_iff_ne_zero.2 hzero)

theorem Leads.cut (h : Leads scores separation line) :
    (scoreAt scores pairDistance).toFloat * separation ≤
      (scoreAt scores (pairDistance - 1)).toFloat := by
  obtain ⟨lowest, hlowest, highest, hhighest, heighth, hninth, hleast, hmost⟩ :=
    exists_cut h.leaders_eq
  obtain ⟨low, hlow, high, hhigh, hleast', hmost', hapart⟩ := h.apart
  rwa [heighth, hninth, UInt64.le_antisymm (hleast low hlow) (hleast' lowest hlowest),
    UInt64.le_antisymm (hmost' highest hhighest) (hmost high hhigh)]

theorem Padded.cut (h : Padded scores line) (hfinite : separation.isFinite = true)
    (habove : 1 < separation) : (scoreAt scores pairDistance).toFloat * separation ≤
      (scoreAt scores (pairDistance - 1)).toFloat := by
  obtain ⟨-, -, highest, hhighest, -, hninth, -⟩ := exists_cut h.leaders_eq
  rw [hninth, h.silent highest hhighest]
  exact zero_mul_le _ hfinite habove

/-- If the scores at the cut are different, then so are all in front from all elsewhere. If they are
equal, they are as great as their own product with the separation, and so they are zero. -/
theorem leads_or_padded (hline : (leaders scores).toFinset = front line)
    (hfinite : separation.isFinite = true) (habove : 1 < separation)
    (hcut : (scoreAt scores pairDistance).toFloat * separation ≤
      (scoreAt scores (pairDistance - 1)).toFloat) :
    Leads scores separation line ∨ Padded scores line := by
  have hahead := (leaders_eq_iff (front line) (card_front line)).1 hline
  obtain ⟨lowest, hlowest, highest, hhighest, heighth, hninth, hleast, hmost⟩ := exists_cut hline
  rw [heighth, hninth] at hcut
  rcases UInt64.le_iff_lt_or_eq.1 (hahead lowest hlowest highest hhighest).le with hlt | htie
  · refine .inl ⟨fun place hplace other hother => ?_,
      lowest, hlowest, highest, hhighest, hleast, hmost, hcut⟩
    exact UInt64.lt_of_le_of_lt (hmost other hother)
      (UInt64.lt_of_lt_of_le hlt (hleast place hplace))
  · rw [← htie, mul_le_self_iff _ hfinite habove] at hcut
    have hsilent : ∀ other ∉ front line, scores.get other = 0 := fun other hother =>
      UInt64.le_zero_iff.1 ((hmost other hother).trans_eq hcut)
    refine .inr ⟨⟨lowest, hlowest, htie.symm.trans hcut⟩, hsilent,
      fun place hplace hzero other hother => ?_⟩
    rcases hahead place hplace other hother with hhigher | ⟨-, hfirst⟩
    · rw [hzero, hsilent other hother] at hhigher
      exact absurd hhigher (UInt64.lt_irrefl 0)
    · exact hfirst

/-- The places that have a score. -/
def scored (scores : Scores) : Finset (Fin 64) :=
  Finset.univ.filter fun place => scores.get place ≠ 0

/-- With a score at eight places or more, the places in front of a line are not padded. -/
theorem not_padded (hscored : pairDistance ≤ (scored scores).card) :
    ¬Padded scores line := by
  rintro ⟨⟨place, hplace, hzero⟩, hsilent, -⟩
  have hsubset : scored scores ⊆ (front line).erase place := fun other hother => by
    rw [scored, Finset.mem_filter] at hother
    rw [Finset.mem_erase]
    refine ⟨?_, ?_⟩
    · rintro rfl
      exact hother.2 hzero
    · by_contra hout
      exact hother.2 (hsilent other hout)
  have hcard := hscored.trans (Finset.card_le_card hsubset)
  rw [Finset.card_erase_of_mem hplace, card_front] at hcard
  exact absurd hcard (by decide)

/-- The verdict names a line exactly if the scores point at it, or too few places have a score and
the first ones without any complete those in front of it. With a score at eight places or more, it
needs the signal. -/
theorem verdict_names_leaders (scores : Scores) (hfinite : separation.isFinite = true)
    (habove : 1 < separation) :
    (∀ found : Nat, lineStart scores separation = some found ↔
      ∃ line : Fin 64, line.val = found ∧ (Leads scores separation line ∨ Padded scores line)) ∧
    (pairDistance ≤ (scored scores).card →
      ∀ found : Nat, lineStart scores separation = some found ↔
        ∃ line : Fin 64, line.val = found ∧ Leads scores separation line) := by
  have hverdict : ∀ found : Nat, lineStart scores separation = some found ↔
      ∃ line : Fin 64, line.val = found ∧
        (Leads scores separation line ∨ Padded scores line) := fun found => by
    rw [lineStart_eq_some_iff]
    refine exists_congr fun line => and_congr_right fun _ => ?_
    rw [not_lt_toFloat_mul_iff _ _ hfinite habove]
    constructor
    · rintro ⟨hcut, hline⟩
      exact leads_or_padded hline hfinite habove hcut
    · rintro (hleads | hpadded)
      · exact ⟨hleads.cut, hleads.leaders_eq⟩
      · exact ⟨hpadded.cut hfinite habove, hpadded.leaders_eq⟩
  refine ⟨hverdict, fun hscored found => ?_⟩
  simp only [hverdict found, not_padded hscored, or_false]

/-- Scores with the eight highest ones around the border of the places. -/
def aroundBorder : Scores :=
  Vector.ofFn fun place => if place.val < 4 ∨ 60 ≤ place.val then 2000 else 1000

theorem line_around_border_leads :
    lineStart aroundBorder 1.2 = some 4 ∧ Leads aroundBorder 1.2 4 := by
  have hfound : lineStart aroundBorder 1.2 = some 4 := by decide +kernel
  obtain ⟨line, hline, hleads⟩ := ((verdict_names_leaders aroundBorder (by decide +kernel)
    (by decide +kernel)).2 (by decide +kernel) 4).1 hfound
  obtain rfl : line = 4 := Fin.ext hline
  exact ⟨hfound, hleads⟩

/-- No differences between scores are no signal, but if there are no reads at all, a line is named
all the same. -/
theorem line_without_reads :
    (1.15 : Float).isFinite = true ∧ 1 < (1.15 : Float) ∧
      lineStart (Vector.replicate 64 0) 1.15 = some 8 ∧
      ¬Leads (Vector.replicate 64 0) 1.15 8 := by
  refine ⟨by decide +kernel, by decide +kernel, by decide +kernel, fun hleads => ?_⟩
  exact absurd (hleads.higher 0 (by decide +kernel) 8 (by decide +kernel)) (by decide +kernel)

end ApproxSet.CacheLine
