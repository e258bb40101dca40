import ApproxSet.Proofs.Alike
import ApproxSet.Proofs.XorSet.Decoding
import ApproxSet.Proofs.XorSet.Distinct

/-!
# Batches answer key by key

A batch is answered in two passes, one that computes the targets of its keys and one that reads
their slots. Before a batch its scratch array may hold the targets of the batch before. They are
overwritten from the front, and no more targets are read than there are keys, so none of the old
ones is read. Hence a list of keys is answered by the answers of the keys one by one.

The two orders of work can fail for different keys of a batch. The slots of a filter that was built
or read never fail, so there both fail alike.
-/

namespace ApproxSet

namespace Outcome

variable {α β γ : Type} {failures : Failure → Prop}

/-- A pass over a list answers what its step answers for each element. -/
theorem mapM_eq_ok_iff {step : α → Outcome β} {xs : List α} {ys : List β} :
    xs.mapM step = .ok ys ↔ List.Forall₂ (fun x y => step x = .ok y) xs ys := by
  induction xs generalizing ys with
  | nil =>
    rw [List.mapM_nil, pure_eq_ok, Except.ok.injEq, List.forall₂_nil_left_iff, eq_comm]
  | cons x xs ih =>
    rw [List.mapM_cons, bind_eq_ok_iff]
    constructor
    · rintro ⟨y, hy, h⟩
      obtain ⟨rest, hrest, h⟩ := bind_eq_ok_iff.1 h
      cases h
      exact .cons hy (ih.1 hrest)
    · rintro (_ | ⟨hy, hrest⟩)
      exact ⟨_, hy, bind_eq_ok_iff.2 ⟨_, ih.2 hrest, rfl⟩⟩

/-- Two passes over a list answer what one pass with both steps answers. If they fail, it may be at
another element and for another one of the failures. -/
theorem two_passes_alike {step : α → Outcome β} {test : β → Outcome γ}
    (hstep : ∀ a, FailsFor failures (step a))
    (htest : ∀ a b, step a = .ok b → FailsFor failures (test b)) (xs : List α) :
    Alike (fun f g => failures f ∧ failures g) Eq (xs.mapM step >>= fun bs => bs.mapM test)
      (xs.mapM fun a => step a >>= test) := by
  induction xs with
  | nil => exact .answer rfl
  | cons a xs ih =>
    have hrest := FailsFor.mapM hstep xs
    rw [List.mapM_cons, List.mapM_cons]
    cases ha : step a with
    | error f => exact .failure ⟨hstep a f ha, hstep a f ha⟩
    | ok b =>
      simp only [ok_bind, bind_assoc, pure_bind, List.mapM_cons]
      cases hb : test b with
      | error g =>
        -- one pass stops here, two of them at the latest when the second pass comes here
        cases hxs : xs.mapM step with
        | error f => exact .failure ⟨hrest f hxs, htest a b ha g hb⟩
        | ok bs => exact .failure ⟨htest a b ha g hb, htest a b ha g hb⟩
      | ok c =>
        simp only [ok_bind]
        rw [← bind_assoc]
        exact ih.bind fun cs cs' hsame => .answer (congrArg (c :: ·) hsame)

end Outcome

namespace XorSet

open Bits Outcome

variable {σ : Type} {t : Table σ} {width : Nat} {f : Nat → UInt64}

/-! ### The scratch array -/

/-- The targets of keys are found in the scratch array, behind what is left of it in front. -/
theorem fillScratch_alike (t : Table σ) {keys : List UInt64} {place : Nat} {scratch : Array Target}
    (hroom : place + keys.length ≤ scratch.size) :
    Alike Eq (fun filled targets => filled.size = scratch.size ∧
        filled.toList.take (place + keys.length) = scratch.toList.take place ++ targets)
      (t.fillScratch keys place scratch) (keys.mapM t.target) := by
  induction keys generalizing place scratch with
  | nil => exact .answer ⟨rfl, (List.append_nil _).symm⟩
  | cons key keys ih =>
    rw [List.length_cons] at hroom ⊢
    rw [Table.fillScratch, List.mapM_cons]
    cases t.target key with
    | error failure => exact .failure rfl
    | ok target =>
      rw [ok_bind, ok_bind]
      have hput : (scratch.setIfInBounds place target).toList.take (place + 1) =
          scratch.toList.take place ++ [target] := by
        have hlt : place < scratch.toList.length := by
          rw [Array.length_toList]
          omega
        rw [Array.toList_setIfInBounds, List.take_succ_eq_append_getElem (by simpa using hlt),
          List.take_set_of_le (Nat.le_refl place), List.getElem_set_self]
      have hroom' : place + 1 + keys.length ≤ (scratch.setIfInBounds place target).size := by
        rw [Array.size_setIfInBounds]
        omega
      rw [← bind_pure (t.fillScratch _ _ _)]
      refine (ih hroom').bind fun filled targets hfilled => .answer ⟨?_, ?_⟩
      · rw [hfilled.1, Array.size_setIfInBounds]
      · rw [show place + (keys.length + 1) = place + 1 + keys.length by omega, hfilled.2, hput,
          List.append_assoc, List.singleton_append]

/-! ### Batches -/

variable [SlotArray σ] {failures : Failure → Prop}

/-- What a query for a single key may fail for, in either of its steps. -/
structure Table.QueriesFailFor (t : Table σ) (failures : Failure → Prop) : Prop where
  target : ∀ key, FailsFor failures (t.target key)
  agrees : ∀ key target, t.target key = .ok target → FailsFor failures (t.agrees target)

theorem answerBatches_alike (h : t.QueriesFailFor failures) {batches : Nat}
    {scratch : Array Target} {keys : List UInt64} (hsize : scratch.size = Table.batchSize)
    (hlength : keys.length ≤ batches * Table.batchSize) :
    Alike (fun f g => failures f ∧ failures g) Eq (t.answerBatches batches scratch keys)
      (keys.mapM t.mayContain) := by
  induction batches generalizing scratch keys with
  | zero =>
    obtain rfl : keys = [] := List.eq_nil_of_length_eq_zero (by omega)
    exact .answer rfl
  | succ batches ih =>
    have hkeys : keys.mapM t.mayContain = (do
        let answers ← (keys.take Table.batchSize).mapM t.mayContain
        let rest ← (keys.drop Table.batchSize).mapM t.mayContain
        return answers ++ rest) := by
      rw [← List.mapM_append, List.take_append_drop]
    have hroom : 0 + (keys.take Table.batchSize).length ≤ scratch.size := by
      rw [hsize, List.length_take]
      omega
    have hfill := fillScratch_alike t hroom
    have hpasses : Alike (fun f g => failures f ∧ failures g) Eq
        ((keys.take Table.batchSize).mapM t.target >>= fun targets => targets.mapM t.agrees)
        ((keys.take Table.batchSize).mapM t.mayContain) :=
      two_passes_alike h.target h.agrees _
    have hlater : (keys.drop Table.batchSize).length ≤ batches * Table.batchSize := by
      rw [List.length_drop]
      rw [Nat.succ_mul] at hlength
      omega
    rw [hkeys, Table.answerBatches]
    generalize keys.take Table.batchSize = batch at hfill hpasses ⊢
    cases htargets : batch.mapM t.target with
    | error failure =>
      rw [htargets] at hfill hpasses
      obtain ⟨failure, hfilled, rfl⟩ := hfill.exists_error
      have hfails : Alike (fun f g => failures f ∧ failures g) Eq (.error failure)
          (batch.mapM t.mayContain) := hpasses
      obtain ⟨other, hother, hboth⟩ := hfails.symm.exists_error
      rw [hfilled, hother]
      exact .failure hboth
    | ok targets =>
      rw [htargets] at hfill hpasses
      obtain ⟨filled, hfilled, hkept, htake⟩ := hfill.exists_ok
      -- what is read of the scratch array are the targets of this batch
      rw [Nat.zero_add, List.take_zero, List.nil_append] at htake
      rw [hfilled, ok_bind, htake]
      refine hpasses.bind fun answers answers' hsame => ?_
      refine (ih (hkept.trans hsize) hlater).bind fun rest rest' hrest => ?_
      rw [hsame, hrest]
      exact .answer rfl

/-- Whatever single queries may fail for, batches fail where a single query fails, and answer what
the single queries answer. -/
theorem mayContainAll_alike (h : t.QueriesFailFor failures) (queries : List UInt64) :
    Alike (fun f g => failures f ∧ failures g) Eq (t.mayContainAll queries)
      (queries.mapM t.mayContain) := by
  have hlength : queries.length ≤
      (queries.length + Table.batchSize - 1) / Table.batchSize * Table.batchSize := by
    rw [show Table.batchSize = 32 from rfl]
    omega
  exact answerBatches_alike h Array.size_replicate hlength

/-! ### Filters -/

section Filters

variable [LawfulSlots σ]

/-- The slots of a key lie in the table, so nothing but a product that is too large can fail. -/
theorem queriesFailFor_overflow (hpos : 0 < t.third)
    (hshows : LawfulSlots.Shows t.slots (3 * t.third) width f) :
    t.QueriesFailFor (· = .broken .overflow) := by
  refine ⟨fun key => (failsFor_edge _ _).bind fun edge _ => .ok _, fun key target htarget => ?_⟩
  obtain ⟨e, hedge, h⟩ := bind_eq_ok_iff.1 htarget
  cases h
  obtain rfl := Edge.of_eq_at hedge
  rw [Table.agrees, residue_eq_ok hshows (Edge.slots_lt hpos _)]
  exact .ok _

theorem Table.exists_mayContain (hpos : 0 < t.third) (hle : t.third ≤ 2 ^ 32)
    (hshows : LawfulSlots.Shows t.slots (3 * t.third) width f) (key : UInt64) :
    ∃ found, t.mayContain key = .ok found :=
  ⟨_, Table.mayContain_eq_ok hshows (Edge.of_eq_ok _ hpos hle) (Edge.slots_lt hpos _)⟩

end Filters

/-- Lists of keys are answered in batches as the keys are one by one. Either all of them are, or the
list fails like the first of its keys that does. With thirds of up to `2 ^ 32` slots none fails. -/
structure Table.AnswersInBatches (t : Table σ) : Prop where
  same : ∀ queries, t.mayContainAll queries = queries.mapM t.mayContain
  answered : t.third ≤ 2 ^ 32 → ∀ queries, ∃ answers, t.mayContainAll queries = .ok answers ∧
    answers.length = queries.length ∧
    ∀ i (hi : i < queries.length) (hi' : i < answers.length),
      t.mayContain queries[i] = .ok answers[i]

theorem answersInBatches [LawfulSlots σ] (hpos : 0 < t.third)
    (hshows : LawfulSlots.Shows t.slots (3 * t.third) width f) : t.AnswersInBatches := by
  have hsame : ∀ queries, t.mayContainAll queries = queries.mapM t.mayContain := by
    intro queries
    refine (mayContainAll_alike (queriesFailFor_overflow hpos hshows) queries).eq ?_
    rintro _ _ ⟨rfl, rfl⟩
    rfl
  refine ⟨hsame, fun hle queries => ?_⟩
  obtain ⟨answers, hanswers⟩ : ∃ answers, queries.mapM t.mayContain = .ok answers := by
    choose found hfound using Table.exists_mayContain hpos hle hshows
    exact ⟨_, mapM_eq_ok_map fun key _ => hfound key⟩
  have hall := mapM_eq_ok_iff.1 hanswers
  exact ⟨answers, (hsame queries).trans hanswers, hall.length_eq.symm,
    fun i hi hi' => hall.get hi hi'⟩

/-- A list of keys of any length is answered by the answers of its keys one by one. Whatever the
slots are and hold, there are answers for the list just if there are for each key. Filters that were
built or read have them, up to `2 ^ 32` slots in a third, and with more of them they fail alike. -/
theorem batches_answer_key_by_key :
    (∀ {σ : Type} [SlotArray σ] (t : Table σ) (queries : List UInt64) (answers : List Bool),
      t.mayContainAll queries = .ok answers ↔
        List.Forall₂ (fun key found => t.mayContain key = .ok found) queries answers) ∧
    (∀ t : Packed, ((∃ s keys, (buildPacked s keys).outcome = .ok t) ∨
      ∃ bytes, Serial.ofBytes bytes = .ok t) → t.AnswersInBatches) ∧
    (∀ t : Bytes, (∃ s keys, (buildBytes s keys).outcome = .ok t) → t.AnswersInBatches) ∧
    (∀ t : Words, (∃ s keys, (buildWords s keys).outcome = .ok t) → t.AnswersInBatches) := by
  refine ⟨fun t queries answers => ?_, fun t horigin => ?_, fun t h => ?_, fun t h => ?_⟩
  · have hall : t.QueriesFailFor fun _ => True := ⟨fun _ _ _ => trivial, fun _ _ _ _ _ => trivial⟩
    have halike := mayContainAll_alike hall queries
    rw [← mapM_eq_ok_iff]
    constructor
    · intro h
      rw [h] at halike
      exact halike.eq_ok
    · intro h
      rw [h] at halike
      obtain ⟨_, hanswers, rfl⟩ := halike.exists_ok
      exact hanswers
  · obtain ⟨f, hholds⟩ : ∃ f, t.Holds f := by
      rcases horigin with ⟨s, keys, hbuilt⟩ | ⟨bytes, hread⟩
      · exact holds_of_buildPacked hbuilt
      · exact Serial.holds_of_ofBytes hread
    exact answersInBatches hholds.third hholds.shows
  · obtain ⟨s, keys, hbuilt⟩ := h
    obtain ⟨-, hthird, order, -, hshows⟩ := buildTable_spec rfl (by decide) hbuilt
    exact answersInBatches (thirdFor_pos hthird) hshows
  · obtain ⟨s, keys, hbuilt⟩ := h
    obtain ⟨-, hthird, order, -, hshows⟩ := buildTable_spec rfl (by decide) hbuilt
    exact answersInBatches (thirdFor_pos hthird) hshows

/-- Thirty-five queries of a filter of three keys take two batches, the second of which leaves most
of the scratch array as it was. The keys are found, and one of the other queries. -/
theorem thirty_five_queries_take_two_batches :
    (buildPacked { width := 5 } [1, 2, 3]).outcome = .ok ⟨2, 2, 5, ⟨⟨#[775454720], 30⟩, 5⟩⟩ ∧
    (Table.mk 2 2 5 (PackedArray.mk ⟨#[775454720], 30⟩ 5)).mayContainAll
        ((List.range 35).map UInt64.ofNat) =
      .ok ((List.range 35).map fun query => decide (query ∈ [1, 2, 3, 27])) ∧
    ((List.range 35).map UInt64.ofNat).mapM
        (Table.mk 2 2 5 (PackedArray.mk ⟨#[775454720], 30⟩ 5)).mayContain =
      .ok ((List.range 35).map fun query => decide (query ∈ [1, 2, 3, 27])) := by
  have hbuilt : (buildPacked { width := 5 } [1, 2, 3]).outcome =
      .ok ⟨2, 2, 5, ⟨⟨#[775454720], 30⟩, 5⟩⟩ := by decide +kernel
  have hanswers : (Table.mk 2 2 5 (PackedArray.mk ⟨#[775454720], 30⟩ 5)).mayContainAll
      ((List.range 35).map UInt64.ofNat) =
      .ok ((List.range 35).map fun query => decide (query ∈ [1, 2, 3, 27])) := by decide +kernel
  have hbatches := batches_answer_key_by_key.2.1 _ (.inl ⟨_, _, hbuilt⟩)
  exact ⟨hbuilt, hanswers, (hbatches.same _).symm.trans hanswers⟩

end XorSet

end ApproxSet
