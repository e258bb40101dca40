import ApproxSet.Cuckoo.Random
import ApproxSet.Proofs.Cuckoo.Partner
import ApproxSet.Proofs.Success
import Mathlib.Data.Nat.Find

/-!
# Tables as cells

A table is seen as its fingerprints by bucket and entry. `LawfulBuckets` says what each operation of
a table does to this view, exactly: a search scans the entries of one bucket, an insertion fills the
first empty one, and a swap changes one entry.

`Stores` is the invariant of every construction. The occupied cells hold one fingerprint of each of
a set of kinds, in one of the two buckets of the kind, and nothing else.
-/

namespace ApproxSet.Cuckoo

open Bits Outcome

/-- The fingerprints of a table by bucket and entry. -/
abbrev Cells := Nat → Nat → UInt64

/-- The cells after one of them is given a fingerprint. -/
def Cells.put (cells : Cells) (bucket entry : Nat) (print : UInt64) : Cells :=
  fun b e => if b = bucket ∧ e = entry then print else cells b e

/-- The measures of a table. -/
structure Shape where
  buckets : Nat
  entries : Nat
  width : Nat

/-- The measures that constructions use. -/
structure Shape.Usable (s : Shape) : Prop where
  paired : Paired s.buckets
  entries_pos : 0 < s.entries
  width_pos : 0 < s.width
  width_le : s.width ≤ 32

/-- The measures of tables in which every fingerprint can be moved and every query answered: the
products of buckets with half a hash fit into a word. -/
structure Shape.Mappable (s : Shape) : Prop extends Shape.Usable s where
  le : s.buckets ≤ 2 ^ 32

/-- The laws of tables of buckets. -/
class LawfulBuckets (τ : Type) [Buckets τ] where
  /-- The table has these measures and fingerprints. -/
  Shows : τ → Shape → Cells → Prop
  bucketCount_eq {t : τ} {s : Shape} {cells : Cells} :
    Shows t s cells → Buckets.bucketCount t = s.buckets
  entriesPerBucket_eq {t : τ} {s : Shape} {cells : Cells} :
    Shows t s cells → Buckets.entriesPerBucket t = s.entries
  fits {t : τ} {s : Shape} {cells : Cells} {b e : Nat} :
    Shows t s cells → b < s.buckets → e < s.entries → Fits s.width (cells b e)
  entry_eq_ok {t : τ} {s : Shape} {cells : Cells} {b e : Nat} :
    Shows t s cells → b < s.buckets → e < s.entries → Buckets.entry t b e = .ok (cells b e)
  holds_eq_ok {t : τ} {s : Shape} {cells : Cells} {b : Nat} {print : UInt64} :
    Shows t s cells → b < s.buckets → Fits s.width print →
    Buckets.holds t b print = .ok (decide (∃ e < s.entries, cells b e = print))
  insert_full {t : τ} {s : Shape} {cells : Cells} {b : Nat} {print : UInt64} :
    Shows t s cells → b < s.buckets → (∀ e < s.entries, cells b e ≠ 0) →
    Buckets.insert? t b print = .ok none
  insert_free {t : τ} {s : Shape} {cells : Cells} {b e : Nat} {print : UInt64} :
    Shows t s cells → b < s.buckets → Fits s.width print →
    e < s.entries → cells b e = 0 → (∀ e' < e, cells b e' ≠ 0) →
    ∃ t', Buckets.insert? t b print = .ok (some t') ∧ Shows t' s (cells.put b e print)
  swap_eq_ok {t : τ} {s : Shape} {cells : Cells} {b e : Nat} {print : UInt64} :
    Shows t s cells → b < s.buckets → e < s.entries → Fits s.width print →
    ∃ t', Buckets.swap t b e print = .ok (cells b e, t') ∧ Shows t' s (cells.put b e print)
  /-- Insertions and swaps never change the number of buckets, whatever the table. -/
  insert_keeps {t t' : τ} {b : Nat} {print : UInt64} :
    Buckets.insert? t b print = .ok (some t') → Buckets.bucketCount t' = Buckets.bucketCount t
  swap_keeps {t t' : τ} {b e : Nat} {print old : UInt64} :
    Buckets.swap t b e print = .ok (old, t') → Buckets.bucketCount t' = Buckets.bucketCount t

/-- A bucket is full or has a first empty entry. -/
theorem Cells.full_or_free (cells : Cells) (s : Shape) (b : Nat) :
    (∀ e < s.entries, cells b e ≠ 0) ∨
      ∃ e < s.entries, cells b e = 0 ∧ ∀ e' < e, cells b e' ≠ 0 := by
  by_cases hfull : ∀ e < s.entries, cells b e ≠ 0
  · exact .inl hfull
  · have hfree : ∃ e, e < s.entries ∧ cells b e = 0 := by
      simpa only [not_forall, not_not, exists_prop] using hfull
    obtain ⟨he, hzero⟩ := Nat.find_spec hfree
    refine .inr ⟨_, he, hzero, fun e' he' hzero' => ?_⟩
    exact Nat.find_min hfree he' ⟨by omega, hzero'⟩

/-- An insertion either meets a full bucket or fills an empty entry. -/
theorem insert?_spec {τ : Type} [Buckets τ] [LawfulBuckets τ] {t : τ} {s : Shape} {cells : Cells}
    {b : Nat} {print : UInt64} {result : Option τ} (hshows : LawfulBuckets.Shows t s cells)
    (hb : b < s.buckets) (hfits : Fits s.width print)
    (h : Buckets.insert? t b print = .ok result) :
    (result = none ∧ ∀ e < s.entries, cells b e ≠ 0) ∨
      ∃ t' e, result = some t' ∧ e < s.entries ∧ cells b e = 0 ∧
        LawfulBuckets.Shows t' s (cells.put b e print) := by
  rcases cells.full_or_free s b with hfull | ⟨e, he, hzero, hfirst⟩
  · rw [LawfulBuckets.insert_full hshows hb hfull, Except.ok.injEq] at h
    exact .inl ⟨h.symm, hfull⟩
  · obtain ⟨t', ht', hshows'⟩ := LawfulBuckets.insert_free hshows hb hfits he hzero hfirst
    rw [ht', Except.ok.injEq] at h
    exact .inr ⟨t', e, h.symm, he, hzero, hshows'⟩

/-! ### The kinds in a table -/

namespace Cells

/-- The cell lies in the table and is not empty. -/
structure Occupied (cells : Cells) (s : Shape) (b e : Nat) : Prop where
  bucket_lt : b < s.buckets
  entry_lt : e < s.entries
  ne_zero : cells b e ≠ 0

/-- The kind of the fingerprint in a cell. -/
def kind (cells : Cells) (s : Shape) (b e : Nat) : Kind :=
  Home.kind s.buckets ⟨cells b e, b⟩

/-- The occupied cells hold each of the given kinds once, and no other kind. -/
structure Stores (cells : Cells) (s : Shape) (kinds : Kind → Prop) : Prop where
  known : ∀ b e, cells.Occupied s b e → kinds (cells.kind s b e)
  present : ∀ kind, kinds kind → ∃ b e, cells.Occupied s b e ∧ cells.kind s b e = kind
  once : ∀ b e b' e', cells.Occupied s b e → cells.Occupied s b' e' →
    cells.kind s b e = cells.kind s b' e' → b = b' ∧ e = e'

variable {cells : Cells} {s : Shape} {kinds kinds' : Kind → Prop} {b e b' e' : Nat} {print : UInt64}

theorem put_self : cells.put b e print b e = print := if_pos ⟨rfl, rfl⟩

theorem put_other (h : ¬(b' = b ∧ e' = e)) : cells.put b e print b' e' = cells b' e' := if_neg h

theorem kind_put_self : (cells.put b e print).kind s b e = Home.kind s.buckets ⟨print, b⟩ := by
  rw [kind, put_self]

theorem kind_put_other (h : ¬(b' = b ∧ e' = e)) :
    (cells.put b e print).kind s b' e' = cells.kind s b' e' := by
  rw [kind, put_other h, kind]

theorem occupied_put_other (h : ¬(b' = b ∧ e' = e)) :
    (cells.put b e print).Occupied s b' e' ↔ cells.Occupied s b' e' := by
  constructor
  · intro ⟨hb, he, hne⟩
    rw [put_other h] at hne
    exact ⟨hb, he, hne⟩
  · intro ⟨hb, he, hne⟩
    refine ⟨hb, he, ?_⟩
    rw [put_other h]
    exact hne

theorem stores_nothing (s : Shape) : Stores (fun _ _ => 0) s fun _ => False :=
  ⟨fun _ _ h => h.ne_zero rfl, fun _ h => h.elim, fun _ _ _ _ h => absurd rfl h.ne_zero⟩

theorem Stores.congr (h : cells.Stores s kinds) (hiff : ∀ kind, kinds kind ↔ kinds' kind) :
    cells.Stores s kinds' := by
  obtain rfl : kinds = kinds' := funext fun kind => propext (hiff kind)
  exact h

/-- Putting a fingerprint of a new kind into a cell adds its kind and removes the kind of what the
cell held, if it held anything. -/
theorem Stores.put (h : cells.Stores s kinds) (hb : b < s.buckets) (he : e < s.entries)
    (hprint : print ≠ 0) (hnew : ¬kinds (Home.kind s.buckets ⟨print, b⟩)) :
    (cells.put b e print).Stores s fun kind => kind = Home.kind s.buckets ⟨print, b⟩ ∨
      kinds kind ∧ ¬(cells b e ≠ 0 ∧ kind = cells.kind s b e) := by
  have hself : (cells.put b e print).Occupied s b e := by
    refine ⟨hb, he, ?_⟩
    rw [put_self]
    exact hprint
  -- a cell beside the one that changed cannot hold the new kind
  have hother : ∀ b' e', ¬(b' = b ∧ e' = e) → (cells.put b e print).Occupied s b' e' →
      (cells.put b e print).kind s b' e' ≠ Home.kind s.buckets ⟨print, b⟩ := by
    intro b' e' hne hocc heq
    rw [kind_put_other hne] at heq
    exact hnew (heq ▸ h.known b' e' ((occupied_put_other hne).1 hocc))
  refine ⟨fun b' e' hocc => ?_, fun kind hkind => ?_, fun b₁ e₁ b₂ e₂ h₁ h₂ heq => ?_⟩
  · by_cases hsame : b' = b ∧ e' = e
    · rw [hsame.1, hsame.2, kind_put_self]
      exact .inl rfl
    · have hocc' := (occupied_put_other hsame).1 hocc
      rw [kind_put_other hsame]
      refine .inr ⟨h.known b' e' hocc', fun ⟨hne, heq⟩ => ?_⟩
      exact hsame (h.once b' e' b e hocc' ⟨hb, he, hne⟩ heq)
  · rcases hkind with rfl | ⟨hkind, hleft⟩
    · exact ⟨b, e, hself, kind_put_self⟩
    · obtain ⟨b', e', hocc, rfl⟩ := h.present kind hkind
      have hne : ¬(b' = b ∧ e' = e) := by
        intro ⟨hbb, hee⟩
        subst hbb hee
        exact hleft ⟨hocc.ne_zero, rfl⟩
      exact ⟨b', e', (occupied_put_other hne).2 hocc, kind_put_other hne⟩
  · by_cases hs₁ : b₁ = b ∧ e₁ = e
    · by_cases hs₂ : b₂ = b ∧ e₂ = e
      · omega
      · rw [hs₁.1, hs₁.2, kind_put_self] at heq
        exact absurd heq.symm (hother b₂ e₂ hs₂ h₂)
    · by_cases hs₂ : b₂ = b ∧ e₂ = e
      · rw [hs₂.1, hs₂.2, kind_put_self] at heq
        exact absurd heq (hother b₁ e₁ hs₁ h₁)
      · rw [kind_put_other hs₁, kind_put_other hs₂] at heq
        exact h.once _ _ _ _ ((occupied_put_other hs₁).1 h₁) ((occupied_put_other hs₂).1 h₂) heq

/-- Filling an empty cell adds a kind. -/
theorem Stores.put_free (h : cells.Stores s kinds) (hb : b < s.buckets) (he : e < s.entries)
    (hprint : print ≠ 0) (hnew : ¬kinds (Home.kind s.buckets ⟨print, b⟩)) (hfree : cells b e = 0) :
    (cells.put b e print).Stores s
      fun kind => kind = Home.kind s.buckets ⟨print, b⟩ ∨ kinds kind := by
  refine (h.put hb he hprint hnew).congr fun kind => ?_
  simp [hfree]

/-- Overwriting an occupied cell exchanges a kind for another one. -/
theorem Stores.put_over (h : cells.Stores s kinds) (hprint : print ≠ 0)
    (hnew : ¬kinds (Home.kind s.buckets ⟨print, b⟩)) (hocc : cells.Occupied s b e) :
    (cells.put b e print).Stores s fun kind =>
      kind = Home.kind s.buckets ⟨print, b⟩ ∨ kinds kind ∧ kind ≠ cells.kind s b e := by
  refine (h.put hocc.bucket_lt hocc.entry_lt hprint hnew).congr fun kind => ?_
  simp [hocc.ne_zero]

end Cells

end ApproxSet.Cuckoo
