import ApproxSet.Cuckoo.Packed
import ApproxSet.Proofs.Bits.Fields
import ApproxSet.Proofs.Cuckoo.Cells

/-!
# Packed buckets as cells

The entries of a packed table are the fields of its store, bucket by bucket. A scan of a bucket ends
at the first entry with the fingerprint looked for.
-/

namespace ApproxSet.Cuckoo.Packed

open Bits Outcome

/-- The fields of the store are the cells of the table. -/
structure Shows (t : Packed) (s : Shape) (cells : Cells) : Prop where
  buckets_eq : t.buckets = s.buckets
  entries_eq : t.entries = s.entries
  width_eq : t.width = s.width
  fields : t.store.Fields (s.buckets * s.entries) s.width
    fun i => cells (i / s.entries) (i % s.entries)

variable {t : Packed} {s : Shape} {cells : Cells} {b e : Nat} {print : UInt64}

theorem index_lt (hb : b < s.buckets) (he : e < s.entries) :
    b * s.entries + e < s.buckets * s.entries := by
  have hend := Store.field_end_le s.entries hb
  omega

theorem index_div (b : Nat) (he : e < s.entries) : (b * s.entries + e) / s.entries = b := by
  rw [Nat.mul_comm, Nat.mul_add_div (by omega), Nat.div_eq_of_lt he, Nat.add_zero]

theorem index_mod (b : Nat) (he : e < s.entries) : (b * s.entries + e) % s.entries = e := by
  rw [Nat.mul_comm, Nat.mul_add_mod, Nat.mod_eq_of_lt he]

/-- A changed field is a changed cell. -/
theorem update_cells (he : e < s.entries) (i : Nat) :
    Function.update (fun i => cells (i / s.entries) (i % s.entries)) (b * s.entries + e) print i =
      cells.put b e print (i / s.entries) (i % s.entries) := by
  by_cases hi : i = b * s.entries + e
  · rw [hi, Function.update_self, index_div b he, index_mod b he, Cells.put_self]
  · rw [Function.update_of_ne hi, Cells.put_other]
    intro hsame
    apply hi
    rw [← Nat.div_add_mod i s.entries, hsame.1, hsame.2, Nat.mul_comm]

theorem empty_shows {buckets entries width : Nat} (hpos : 0 < width) (hle : width ≤ 64)
    (h : empty buckets entries width = .ok t) :
    t.Shows ⟨buckets, entries, width⟩ fun _ _ => 0 := by
  obtain ⟨count, hcount, h⟩ := bind_eq_ok_iff.1 h
  obtain ⟨-, rfl⟩ := Checked.mul_eq_ok_iff.1 hcount
  obtain ⟨bits, hbits, h⟩ := bind_eq_ok_iff.1 h
  obtain ⟨hsmall, rfl⟩ := Checked.mul_eq_ok_iff.1 hbits
  obtain ⟨store, hstore, h⟩ := bind_eq_ok_iff.1 h
  cases h
  exact ⟨rfl, rfl, rfl, Store.zeros_fields hpos hle hsmall hstore⟩

/-- There is an empty table of every shape whose bits can be counted. -/
theorem empty_eq_ok {buckets entries width : Nat} (hpos : 0 < width) (hle : width ≤ 64)
    (hsmall : buckets * entries * width + 63 < 2 ^ 64) :
    ∃ t, empty buckets entries width = .ok t ∧
      t.Shows ⟨buckets, entries, width⟩ fun _ _ => 0 := by
  have hcount : buckets * entries ≤ buckets * entries * width := Nat.le_mul_of_pos_right _ hpos
  have hempty : ∃ t, empty buckets entries width = .ok t := by
    rw [empty, Checked.mul_eq_ok (by omega), ok_bind, Checked.mul_eq_ok (by omega), ok_bind,
      Store.zeros_eq_ok_iff.2 ⟨hsmall, rfl⟩]
    exact ⟨_, rfl⟩
  obtain ⟨t, ht⟩ := hempty
  exact ⟨t, ht, empty_shows hpos hle ht⟩

theorem offset_eq_ok (h : t.Shows s cells) (hb : b < s.buckets) (he : e < s.entries) :
    t.offset b e = .ok ((b * s.entries + e) * s.width) := by
  have hlt := index_lt hb he
  have hwidth := Nat.le_mul_of_pos_right (s.buckets * s.entries) h.fields.pos
  have hsmall := h.fields.small
  rw [offset, h.entries_eq, h.width_eq, Checked.mul_eq_ok (by omega), ok_bind,
    Checked.add_eq_ok (by omega), ok_bind, h.fields.mul_eq_ok hlt]

theorem read_eq_ok (h : t.Shows s cells) (hb : b < s.buckets) (he : e < s.entries) :
    t.store.read ((b * s.entries + e) * s.width) s.width = .ok (cells b e) := by
  rw [h.fields.read_eq_ok (index_lt hb he), index_div b he, index_mod b he]

theorem entry_eq_ok (h : t.Shows s cells) (hb : b < s.buckets) (he : e < s.entries) :
    t.entry b e = .ok (cells b e) := by
  rw [entry, offset_eq_ok h hb he, ok_bind, h.width_eq, read_eq_ok h hb he]

/-! ### Scanning a bucket -/

theorem findFrom_eq_ok (h : t.Shows s cells) (hb : b < s.buckets) (print : UInt64) {left : Nat}
    (hleft : left ≤ s.entries) :
    t.findFrom b print left =
      .ok ((List.range' (s.entries - left) left).find? fun e => cells b e = print) := by
  induction left with
  | zero => rfl
  | succ left ih =>
    have he : s.entries - (left + 1) < s.entries := by omega
    rw [findFrom, h.entries_eq, entry_eq_ok h hb he, ok_bind, ih (by omega), List.range'_succ,
      List.find?_cons, show s.entries - (left + 1) + 1 = s.entries - left by omega]
    by_cases heq : cells b (s.entries - (left + 1)) = print
    · rw [if_pos heq, decide_eq_true heq, pure_eq_ok]
    · rw [if_neg heq, decide_eq_false heq]

/-- A scan ends at the first entry with the fingerprint. -/
theorem find_eq_ok (h : t.Shows s cells) (hb : b < s.buckets) (print : UInt64) :
    t.find b print = .ok ((List.range s.entries).find? fun e => cells b e = print) := by
  rw [find, h.entries_eq, findFrom_eq_ok h hb print (Nat.le_refl _), Nat.sub_self,
    List.range_eq_range']

theorem holds_eq_ok (h : t.Shows s cells) (hb : b < s.buckets) (print : UInt64) :
    t.holds b print = .ok (decide (∃ e < s.entries, cells b e = print)) := by
  rw [holds, find_eq_ok h hb, ok_bind, pure_eq_ok, Except.ok.injEq, Bool.eq_iff_iff,
    List.find?_isSome, decide_eq_true_iff]
  simp only [List.mem_range, decide_eq_true_eq]

theorem insert_full (h : t.Shows s cells) (hb : b < s.buckets)
    (hfull : ∀ e < s.entries, cells b e ≠ 0) : t.insert? b print = .ok none := by
  have hnone : (List.range s.entries).find? (fun e => cells b e = 0) = none := by
    rw [List.find?_eq_none]
    intro e he
    rw [decide_eq_true_iff]
    exact hfull e (List.mem_range.1 he)
  rw [insert?, find_eq_ok h hb, ok_bind, hnone]
  rfl

theorem insert_free (h : t.Shows s cells) (hb : b < s.buckets) (hfits : Fits s.width print)
    (he : e < s.entries) (hzero : cells b e = 0) (hfirst : ∀ e' < e, cells b e' ≠ 0) :
    ∃ t', t.insert? b print = .ok (some t') ∧ t'.Shows s (cells.put b e print) := by
  have hsome : (List.range s.entries).find? (fun e => cells b e = 0) = some e := by
    rw [List.find?_range_eq_some]
    refine ⟨decide_eq_true hzero, List.mem_range.2 he, fun e' he' => ?_⟩
    rw [decide_eq_false (hfirst e' he')]
    rfl
  have hcell : cells ((b * s.entries + e) / s.entries) ((b * s.entries + e) % s.entries) = 0 := by
    rw [index_div b he, index_mod b he, hzero]
  obtain ⟨store, hstore, hfields⟩ := h.fields.write_eq_ok (index_lt hb he) hcell hfits
  refine ⟨{ t with store := store }, ?_, h.buckets_eq, h.entries_eq, h.width_eq,
    hfields.congr fun i _ => update_cells he i⟩
  rw [insert?, find_eq_ok h hb, ok_bind, hsome]
  dsimp only
  rw [offset_eq_ok h hb he, ok_bind, h.width_eq, hstore]
  rfl

theorem swap_eq_ok (h : t.Shows s cells) (hb : b < s.buckets) (he : e < s.entries)
    (hfits : Fits s.width print) :
    ∃ t', t.swap b e print = .ok (cells b e, t') ∧ t'.Shows s (cells.put b e print) := by
  obtain ⟨store, hstore, hfields⟩ := h.fields.replace_eq_ok (index_lt hb he) hfits
  refine ⟨{ t with store := store }, ?_, h.buckets_eq, h.entries_eq, h.width_eq,
    hfields.congr fun i _ => update_cells he i⟩
  rw [swap, offset_eq_ok h hb he, ok_bind, h.width_eq, read_eq_ok h hb he, ok_bind, hstore]
  rfl

theorem fits (h : t.Shows s cells) (hb : b < s.buckets) (he : e < s.entries) :
    Fits s.width (cells b e) := by
  have hfield := h.fields.fits (index_lt hb he)
  rw [index_div b he, index_mod b he] at hfield
  exact hfield

theorem insert_keeps {t' : Packed} (h : t.insert? b print = .ok (some t')) :
    t'.buckets = t.buckets := by
  obtain ⟨found, -, h⟩ := bind_eq_ok_iff.1 h
  cases found with
  | none => cases h
  | some index =>
    obtain ⟨offset, -, h⟩ := bind_eq_ok_iff.1 h
    obtain ⟨store, -, h⟩ := bind_eq_ok_iff.1 h
    cases h
    rfl

theorem swap_keeps {t' : Packed} {old : UInt64} (h : t.swap b e print = .ok (old, t')) :
    t'.buckets = t.buckets := by
  obtain ⟨offset, -, h⟩ := bind_eq_ok_iff.1 h
  obtain ⟨evicted, -, h⟩ := bind_eq_ok_iff.1 h
  obtain ⟨store, -, h⟩ := bind_eq_ok_iff.1 h
  cases h
  rfl

instance : LawfulBuckets Packed where
  Shows := Shows
  bucketCount_eq h := h.buckets_eq
  entriesPerBucket_eq h := h.entries_eq
  fits := fits
  entry_eq_ok := entry_eq_ok
  holds_eq_ok h hb _ := holds_eq_ok h hb _
  insert_full := insert_full
  insert_free := insert_free
  swap_eq_ok := swap_eq_ok
  insert_keeps := insert_keeps
  swap_keeps := swap_keeps

end ApproxSet.Cuckoo.Packed
