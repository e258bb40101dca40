import ApproxSet.CacheLine.Race
import Mathlib.Data.Finset.Card
import Mathlib.Data.List.FinRange

/-!
# The ranking of the places

The ranking is an insertion sort, which puts the places in one by one from the last to the first. A
place that comes in has a smaller index than all that are there, so it may stand in front of those
with the same score. That makes the order of the ranking a strict one: by falling score, and by
rising index among equal scores.

Only the cut behind the eighth place counts for the verdict. The places in front of it are the only
eight that are all ahead of all others.
-/

namespace ApproxSet.CacheLine

variable {scores : Scores} {place other third : Fin 64} {places : List (Fin 64)}
  {index later : Nat}

/-! ### The order -/

/-- The place has a higher score than the other one, or the same score and a smaller index. -/
def Ahead (scores : Scores) (place other : Fin 64) : Prop :=
  scores.get other < scores.get place ∨ scores.get place = scores.get other ∧ place < other

theorem Ahead.le (h : Ahead scores place other) : scores.get other ≤ scores.get place := by
  rcases h with hhigher | ⟨hsame, -⟩
  · exact UInt64.le_of_lt hhigher
  · exact UInt64.le_of_eq hsame.symm

theorem Ahead.trans (h : Ahead scores place other) (h' : Ahead scores other third) :
    Ahead scores place third := by
  unfold Ahead at *
  grind

theorem Ahead.asymm (h : Ahead scores place other) : ¬Ahead scores other place := by
  unfold Ahead at *
  grind

theorem rank_perm (scores : Scores) (place : Fin 64) (places : List (Fin 64)) :
    (rank scores place places).Perm (place :: places) := by
  induction places with
  | nil => rfl
  | cons first rest ih =>
    rw [rank]
    split
    · rfl
    · exact (ih.cons first).trans (.swap place first rest)

/-- A place that comes before all ranked ones gets to where it belongs. -/
theorem rank_ordered (hplaces : places.Pairwise (Ahead scores))
    (hindex : ∀ other ∈ places, place < other) :
    (rank scores place places).Pairwise (Ahead scores) := by
  induction places with
  | nil => exact List.pairwise_singleton _ _
  | cons first rest ih =>
    obtain ⟨hfirst, hrest⟩ := List.pairwise_cons.1 hplaces
    rw [rank]
    split
    case isTrue hle =>
      have hahead : Ahead scores place first :=
        (UInt64.le_iff_lt_or_eq.1 hle).imp_right fun hsame => ⟨hsame.symm, hindex first (by simp)⟩
      refine List.pairwise_cons.2 ⟨fun other hother => ?_, hplaces⟩
      rcases List.mem_cons.1 hother with rfl | hbehind
      · exact hahead
      · exact hahead.trans (hfirst other hbehind)
    case isFalse hlower =>
      refine List.pairwise_cons.2 ⟨fun other hother => ?_,
        ih hrest fun other hother => hindex other (List.mem_cons_of_mem first hother)⟩
      rcases List.mem_cons.1 ((rank_perm scores place rest).mem_iff.1 hother) with rfl | hbehind
      · exact .inl (UInt64.not_le.1 hlower)
      · exact hfirst other hbehind

/-- Places that are ranked from the last to the first are all there and in order. -/
theorem foldr_rank (scores : Scores) (hplaces : places.Pairwise (· < ·)) :
    (places.foldr (rank scores) []).Perm places ∧
      (places.foldr (rank scores) []).Pairwise (Ahead scores) := by
  induction places with
  | nil => exact ⟨.nil, .nil⟩
  | cons place places ih =>
    obtain ⟨hplace, hrest⟩ := List.pairwise_cons.1 hplaces
    obtain ⟨hperm, hordered⟩ := ih hrest
    exact ⟨(rank_perm scores place _).trans (hperm.cons place),
      rank_ordered hordered fun other hother => hplace other (hperm.mem_iff.1 hother)⟩

theorem ranking_perm (scores : Scores) : (ranking scores).Perm (List.finRange 64) :=
  (foldr_rank scores (List.pairwise_lt_finRange 64)).1

theorem ranking_ordered (scores : Scores) : (ranking scores).Pairwise (Ahead scores) :=
  (foldr_rank scores (List.pairwise_lt_finRange 64)).2

/-! ### The leaders -/

/-- The eight places that are ranked first. -/
def leaders (scores : Scores) : List (Fin 64) :=
  (ranking scores).take pairDistance

theorem length_ranking (scores : Scores) : (ranking scores).length = 64 :=
  (ranking_perm scores).length_eq.trans List.length_finRange

theorem length_leaders (scores : Scores) : (leaders scores).length = pairDistance := by
  rw [leaders, List.length_take, length_ranking]
  decide

theorem nodup_leaders (scores : Scores) : (leaders scores).Nodup :=
  ((ranking_perm scores).nodup_iff.2 (List.nodup_finRange 64)).take

/-- A place that is not among the leaders is ranked behind all of them. -/
theorem ahead_of_leader (hplace : place ∈ leaders scores) (hother : other ∉ leaders scores) :
    Ahead scores place other := by
  have hranked : other ∈ ranking scores := (ranking_perm scores).mem_iff.2 (List.mem_finRange other)
  have hordered := ranking_ordered scores
  rw [← List.take_append_drop pairDistance (ranking scores)] at hranked hordered
  exact (List.pairwise_append.1 hordered).2.2 place hplace other
    ((List.mem_append.1 hranked).resolve_left hother)

/-! ### The cut -/

theorem exists_getElem? (scores : Scores) {index : Nat} (hindex : index < 64) :
    ∃ place, (ranking scores)[index]? = some place :=
  ⟨_, List.getElem?_eq_getElem (hindex.trans_eq (length_ranking scores).symm)⟩

theorem exists_index (scores : Scores) (place : Fin 64) :
    ∃ index : Nat, (ranking scores)[index]? = some place :=
  List.mem_iff_getElem?.1 ((ranking_perm scores).mem_iff.2 (List.mem_finRange place))

theorem scoreAt_eq (hplace : (ranking scores)[index]? = some place) :
    scoreAt scores index = scores.get place := by
  rw [scoreAt, hplace]
  rfl

/-- Scores fall along the ranking. -/
theorem scores_fall (hplace : (ranking scores)[index]? = some place)
    (hother : (ranking scores)[later]? = some other) (hle : index ≤ later) :
    scores.get other ≤ scores.get place := by
  obtain ⟨hindex, rfl⟩ := List.getElem?_eq_some_iff.1 hplace
  obtain ⟨hlater, rfl⟩ := List.getElem?_eq_some_iff.1 hother
  rcases Nat.eq_or_lt_of_le hle with rfl | hlt
  · exact UInt64.le_refl _
  · exact (List.pairwise_iff_getElem.1 (ranking_ordered scores) _ _ _ _ hlt).le

/-- Where a place stands in the ranking tells whether it is a leader. -/
theorem mem_leaders_iff (hplace : (ranking scores)[index]? = some place) :
    place ∈ leaders scores ↔ index < pairDistance := by
  obtain ⟨hindex, rfl⟩ := List.getElem?_eq_some_iff.1 hplace
  have hnodup := (ranking_perm scores).nodup_iff.2 (List.nodup_finRange 64)
  rw [leaders, List.mem_take_iff_getElem]
  constructor
  · rintro ⟨leading, hleading, hsame⟩
    rw [hnodup.getElem_inj_iff] at hsame
    omega
  · exact fun hlt => ⟨index, by omega, rfl⟩

/-- The eighth score is the lowest one of the leaders. -/
theorem exists_lowest (scores : Scores) :
    ∃ lowest ∈ leaders scores, scoreAt scores (pairDistance - 1) = scores.get lowest ∧
      ∀ place ∈ leaders scores, scores.get lowest ≤ scores.get place := by
  obtain ⟨lowest, hlowest⟩ := exists_getElem? scores (show pairDistance - 1 < 64 by decide)
  refine ⟨lowest, (mem_leaders_iff hlowest).2 (by decide), scoreAt_eq hlowest,
    fun place hleads => ?_⟩
  obtain ⟨index, hplace⟩ := exists_index scores place
  have hindex := (mem_leaders_iff hplace).1 hleads
  exact scores_fall hplace hlowest (Nat.le_sub_one_of_lt hindex)

/-- The ninth score is the highest one of the places that are not among the leaders. -/
theorem exists_highest (scores : Scores) :
    ∃ highest ∉ leaders scores, scoreAt scores pairDistance = scores.get highest ∧
      ∀ place ∉ leaders scores, scores.get place ≤ scores.get highest := by
  obtain ⟨highest, hhighest⟩ := exists_getElem? scores (show pairDistance < 64 by decide)
  refine ⟨highest, mt (mem_leaders_iff hhighest).1 (Nat.lt_irrefl _), scoreAt_eq hhighest,
    fun place hnot => ?_⟩
  obtain ⟨index, hplace⟩ := exists_index scores place
  have hindex := mt (mem_leaders_iff hplace).2 hnot
  exact scores_fall hhighest hplace (Nat.le_of_not_lt hindex)

/-- Eight places that are ahead of all others are the leaders. -/
theorem leaders_eq_iff (front : Finset (Fin 64)) (hcard : front.card = pairDistance) :
    (leaders scores).toFinset = front ↔
      ∀ place ∈ front, ∀ other ∉ front, Ahead scores place other := by
  constructor
  · rintro rfl place hplace other hother
    exact ahead_of_leader (List.mem_toFinset.1 hplace) fun hleads =>
      hother (List.mem_toFinset.2 hleads)
  · intro hahead
    have hleaders : (leaders scores).toFinset.card = front.card := by
      rw [List.toFinset_card_of_nodup (nodup_leaders scores), length_leaders, hcard]
    refine (Finset.eq_of_subset_of_card_le (fun place hplace => ?_) hleaders.le).symm
    by_contra hnot
    rw [List.mem_toFinset] at hnot
    have hsubset : (leaders scores).toFinset ⊆ front := fun other hother => by
      by_contra hoff
      exact (hahead place hplace other hoff).asymm
        (ahead_of_leader (List.mem_toFinset.1 hother) hnot)
    rw [← Finset.eq_of_subset_of_card_le hsubset hleaders.ge] at hplace
    exact hnot (List.mem_toFinset.1 hplace)

end ApproxSet.CacheLine
