import ApproxSet.Proofs.Cuckoo.LaneBuckets
import ApproxSet.Proofs.Cuckoo.PackedBuckets
import Mathlib.Data.List.Nodup
import Mathlib.Data.List.ProdSigma

/-!
# Occupied entries

The number of occupied entries of a table is the number of its cells that are not empty, summed up
bucket by bucket, whichever way the table itself goes about the counting.
-/

namespace ApproxSet.Cuckoo

open Bits Outcome

/-- The number of cells of a table that are not empty. -/
def Cells.count (cells : Cells) (s : Shape) : Nat :=
  ((List.range s.buckets).map fun b => (List.range s.entries).countP fun e => cells b e ≠ 0).sum

variable {s : Shape} {cells : Cells}

/-- The places of the cells that are not empty, each as a bucket and an entry. -/
def Cells.places (cells : Cells) (s : Shape) : List (Nat × Nat) :=
  (List.range s.buckets ×ˢ List.range s.entries).filter fun place => cells place.1 place.2 ≠ 0

theorem Cells.mem_places {b e : Nat} : (b, e) ∈ cells.places s ↔ cells.Occupied s b e := by
  rw [places, List.mem_filter, List.mem_product, List.mem_range, List.mem_range,
    decide_eq_true_iff]
  exact ⟨fun ⟨⟨hb, he⟩, hne⟩ => ⟨hb, he, hne⟩, fun h => ⟨⟨h.bucket_lt, h.entry_lt⟩, h.ne_zero⟩⟩

theorem Cells.nodup_places (cells : Cells) (s : Shape) : (cells.places s).Nodup :=
  (List.nodup_range.product List.nodup_range).filter _

theorem Cells.length_places (cells : Cells) (s : Shape) :
    (cells.places s).length = cells.count s := by
  rw [places, ← List.countP_eq_length_filter]
  show List.countP _ ((List.range s.buckets).flatMap fun b => (List.range s.entries).map (b, ·)) = _
  rw [List.countP_flatMap, count]
  simp only [Function.comp_def, List.countP_map]

theorem Cells.count_le (cells : Cells) (s : Shape) : cells.count s ≤ s.buckets * s.entries := by
  rw [← length_places, places]
  refine Nat.le_trans (List.length_filter_le _ _) (Nat.le_of_eq ?_)
  rw [List.length_product, List.length_range, List.length_range]

theorem Cells.count_eq_zero_iff :
    cells.count s = 0 ↔ ∀ b < s.buckets, ∀ e < s.entries, cells b e = 0 := by
  rw [← length_places, List.length_eq_zero_iff, List.eq_nil_iff_forall_not_mem]
  constructor
  · intro h b hb e he
    by_contra hne
    exact h (b, e) (mem_places.2 ⟨hb, he, hne⟩)
  · intro h place hplace
    have hocc := mem_places.1 hplace
    exact hocc.ne_zero (h _ hocc.bucket_lt _ hocc.entry_lt)

theorem Packed.allEntries_eq_ok {t : Packed} (h : t.Shows s cells) :
    t.allEntries = .ok ((List.range s.buckets).map fun b =>
      (List.range s.entries).map (cells b)).flatten := by
  have hrow : ∀ b ∈ List.range s.buckets,
      (List.range t.entries).mapM (fun e => t.entry b e) =
        .ok ((List.range s.entries).map (cells b)) := by
    intro b hb
    rw [h.entries_eq]
    refine mapM_eq_ok_map fun e he => ?_
    exact Packed.entry_eq_ok h (List.mem_range.1 hb) (List.mem_range.1 he)
  rw [Packed.allEntries, h.buckets_eq, mapM_eq_ok_map hrow, ok_bind, pure_eq_ok]

theorem Packed.count_eq_ok {t : Packed} (h : t.Shows s cells) : t.count = .ok (cells.count s) := by
  rw [Packed.count, Packed.allEntries_eq_ok h, ok_bind, pure_eq_ok, List.countP_flatten,
    List.map_map]
  simp only [Function.comp_def, List.countP_map]
  rfl

/-- Counting lanes that are not zero, word by word, counts the cells. -/
theorem ShowsLanes.count_eq {ε : Type} {value : ε → Nat} {k : Nat} {words : Array ε}
    (h : ShowsLanes value k words s cells) :
    (words.toList.map fun word =>
      (List.range laneCount).countP fun e => lane k (value word) e ≠ 0).sum = cells.count s := by
  rw [Cells.count, ← h.buckets_eq, h.entries_eq]
  congr 1
  refine List.ext_getElem (by simp) fun b hb _ => ?_
  have hb' : b < words.size := by simpa using hb
  simp only [List.getElem_map, Array.getElem_toList, List.getElem_range]
  refine List.countP_congr fun e he => ?_
  simp [h.lane_eq b hb' e (List.mem_range.1 he), ← UInt64.toNat_inj]

theorem ByteBuckets.count_eq {t : ByteBuckets} (h : t.Shows s cells) : t.count = cells.count s :=
  ShowsLanes.count_eq h

theorem WordBuckets.count_eq {t : WordBuckets} (h : t.Shows s cells) : t.count = cells.count s :=
  ShowsLanes.count_eq h

/-! ### Empty tables -/

theorem Packed.isEmpty_iff {t : Packed} (h : t.Shows s cells) :
    t.isEmpty = true ↔ cells.count s = 0 := by
  have hwidth := h.fields.le
  rw [Packed.isEmpty, beq_iff_eq, Store.ones_eq_zero_iff h.fields.tidy, Cells.count_eq_zero_iff]
  constructor
  · intro hoff b hb e he
    have hfield := h.fields.field _ (Packed.index_lt hb he)
    rw [Packed.index_div b he, Packed.index_mod b he] at hfield
    rw [← hfield, Store.field_eq_zero_iff hwidth]
    exact fun i _ => hoff _
  · intro hzero i
    by_cases hi : i < s.buckets * s.entries * s.width
    · have hindex : i / s.width < s.buckets * s.entries :=
        (Nat.div_lt_iff_lt_mul h.fields.pos).2 hi
      have hentries : 0 < s.entries := Nat.pos_of_ne_zero fun hnone => by simp [hnone] at hindex
      rw [h.fields.bit_eq hi, hzero _ ((Nat.div_lt_iff_lt_mul hentries).2 hindex) _
        (Nat.mod_lt _ hentries), testBit_zero_word]
    · exact h.fields.tidy.clear i (by rw [h.fields.length]; omega)

/-- All words are zero just if all cells are empty. -/
theorem ShowsLanes.all_zero_iff {ε : Type} {value : ε → Nat} {k : Nat} {words : Array ε}
    (h : ShowsLanes value k words s cells) (hk : 0 < k)
    (hvalue : ∀ word, value word < 2 ^ (k * laneCount)) :
    (∀ b (hb : b < words.size), value words[b] = 0) ↔ cells.count s = 0 := by
  have hbuckets := h.buckets_eq
  rw [Cells.count_eq_zero_iff, ← h.buckets_eq, h.entries_eq]
  refine forall_congr' fun b => forall_congr' fun hb => ?_
  rw [eq_zero_iff_lanes hk (hvalue _)]
  refine forall_congr' fun e => forall_congr' fun he => ?_
  rw [h.lane_eq b hb e he, ← UInt64.toNat_inj]
  rfl

theorem ByteBuckets.isEmpty_iff {t : ByteBuckets} (h : t.Shows s cells) :
    t.isEmpty = true ↔ cells.count s = 0 := by
  have hvalue : ∀ word : UInt32, word.toNat < 2 ^ (8 * laneCount) := fun word => word.toNat_lt
  rw [← ShowsLanes.all_zero_iff h (by decide) hvalue, isEmpty, Array.all_eq_true]
  simp [← UInt32.toNat_inj]

theorem WordBuckets.isEmpty_iff {t : WordBuckets} (h : t.Shows s cells) :
    t.isEmpty = true ↔ cells.count s = 0 := by
  have hvalue : ∀ word : UInt64, word.toNat < 2 ^ (16 * laneCount) := fun word => word.toNat_lt
  rw [← ShowsLanes.all_zero_iff h (by decide) hvalue, isEmpty, Array.all_eq_true]
  simp [← UInt64.toNat_inj]

end ApproxSet.Cuckoo
