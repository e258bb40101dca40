import ApproxSet.Proofs.Bits.Rows

/-!
# Stores and their histories

A store is changed in place, word by word, so an operation that fails could leave it half changed.
Here the operations are taken apart into looks at the store and changes of it, and the store is kept
where they fail. All checks that can fail come before the first change; so an operation that fails
leaves the store as it was, and the check that reads a written field back never fails.

Hence any history of operations, whichever of them fail, leaves a store that is the row which the
same history leaves of the row at its start.
-/

namespace ApproxSet.Bits

open Outcome

/-! ### Changes in place -/

/-- A change of a store in place. The store is kept when the change fails. -/
abbrev Changing (α : Type) := ExceptT Failure (StateM Store) α

namespace Changing

/-- Runs a change and keeps the store that it leaves. -/
def runOn {α : Type} (change : Changing α) (s : Store) : Outcome α × Store :=
  change.run.run s

/-- Looks at the store. -/
def look {α : Type} (view : Store → Outcome α) : Changing α := do
  view (← get)

/-- The store after a change, or the old one if the change fails. -/
def keep (s : Store) : Outcome Store → Outcome Unit × Store
  | .ok t => (.ok (), t)
  | .error failure => (.error failure, s)

/-- Makes a change that is not taken apart. -/
def alter (change : Store → Outcome Store) : Changing Unit := do
  set (← change (← get))

/-- Combines the words under a field with a value. -/
def combine (op : UInt64 → UInt64 → UInt64) (offset width : Nat) (value : UInt64) :
    Changing Unit := do
  alter (·.changeWord (offset / 64) (op · (shiftUp value (offset % 64))))
  alter (·.changeNext (offset / 64) (offset % 64) width (op · (shiftDown value (64 - offset % 64))))

/-- Writes a value into an empty field. -/
def write (offset : Nat) (value : UInt64) (width : Nat) : Changing Unit := do
  look (·.requireField offset width)
  look fun _ => require (value &&& ~~~mask width = 0) (.valueTooWide width)
  let before ← look (·.read offset width)
  look fun _ => require (before = 0) (.notZeroed offset)
  combine (· ||| ·) offset width value
  let after ← look (·.read offset width)
  look fun _ => require (after = value) (.readback offset)

/-- Turns all bits of a field off. -/
def clear (offset width : Nat) : Changing Unit := do
  look (·.requireField offset width)
  combine (fun word m => word &&& ~~~m) offset width (mask width)

/-- Turns a bit on. -/
def setBit (index : Nat) : Changing Unit := do
  look fun s => require (index < s.length) .unmet
  alter (·.changeWord (index / 64) (· ||| shiftUp 1 (index % 64)))

end Changing

/-- The operation in place. -/
def Update.inPlace : Update → Changing Unit
  | .write offset value width => Changing.write offset value width
  | .clear offset width => Changing.clear offset width
  | .replace offset value width => do
    Changing.clear offset width
    Changing.write offset (value &&& mask width) width
  | .setBit index => Changing.setBit index
  | .grow length => Changing.alter (·.grow length)

namespace Changing

variable {α β : Type} {s t : Store} {offset width : Nat} {value : UInt64}

theorem runOn_bind (change : Changing α) (next : α → Changing β) (s : Store) :
    (change >>= next).runOn s =
      match change.runOn s with
      | (.ok value, t) => (next value).runOn t
      | (.error failure, t) => (.error failure, t) := by
  simp only [runOn, run_bind]
  rcases change.run.run s with ⟨_ | _, _⟩ <;> rfl

theorem runOn_look (view : Store → Outcome α) (s : Store) :
    (look view).runOn s = (view s, s) := by
  rw [look, runOn_bind]
  show (liftM (view s) : Changing α).runOn s = _
  cases view s <;> rfl

/-- A look at the store before a change. -/
theorem runOn_look_bind {view : Store → Outcome α} {next : α → Changing Unit}
    {change : α → Outcome Store}
    (h : ∀ value, view s = .ok value → (next value).runOn s = keep s (change value)) :
    (look view >>= next).runOn s = keep s (view s >>= change) := by
  rw [runOn_bind, runOn_look]
  cases hview : view s with
  | ok value => exact h value hview
  | error failure => rfl

theorem runOn_alter (change : Store → Outcome Store) (s : Store) :
    (alter change).runOn s = keep s (change s) := by
  rw [alter, runOn_bind]
  show ((liftM (change s) : Changing Store) >>= set).runOn s = _
  cases change s <;> rfl

theorem runOn_combine {op : UInt64 → UInt64 → UInt64}
    (h : Store.combine op s offset width value = .ok t) :
    (combine op offset width value).runOn s = (.ok (), t) := by
  obtain ⟨m, hm, ht⟩ := bind_eq_ok_iff.1 h
  rw [combine, runOn_bind, runOn_alter, hm]
  show (alter _).runOn m = _
  rw [runOn_alter, ht]
  rfl

/-- A write in place ends like a write, and if it fails it has changed nothing. -/
theorem runOn_write (hs : s.Tidy) (offset : Nat) (value : UInt64) (width : Nat) :
    (write offset value width).runOn s = keep s (s.write offset value width) := by
  refine runOn_look_bind fun _ hfield => runOn_look_bind fun _ hfits =>
    runOn_look_bind fun before hread => runOn_look_bind fun _ hzero => ?_
  -- from here on nothing fails, and the field reads back as the value
  have hwidth := (Store.requireField_eq_ok_iff.1 hfield).2.1
  obtain ⟨t, ht⟩ := Store.combine_eq_ok (· ||| ·) value hs hfield
  have hwrite : s.write offset value width = .ok t :=
    (Store.write_eq_ok_iff hs).2 ⟨hfield, (fits_iff_and_mask hwidth).2 (require_eq_ok_iff.1 hfits),
      ((Store.read_eq_ok_iff hs).1 hread).2.trans (require_eq_ok_iff.1 hzero), ht⟩
  have hrest := hwrite
  rw [Store.write, hfield, ok_bind, hfits, ok_bind, hread, ok_bind, hzero, ok_bind] at hrest
  dsimp only at hrest ⊢
  rw [hrest, runOn_bind, runOn_combine ht]
  dsimp only
  rw [runOn_bind, runOn_look, Store.read_of_write hwrite]
  dsimp only
  rw [runOn_look, require_eq_ok_iff.2 rfl, keep]

theorem runOn_clear (hs : s.Tidy) (offset width : Nat) :
    (clear offset width).runOn s = keep s (s.clear offset width) := by
  refine runOn_look_bind fun _ hfield => ?_
  obtain ⟨t, ht⟩ := Store.combine_eq_ok (fun word m => word &&& ~~~m) (mask width) hs hfield
  exact (runOn_combine ht).trans (congrArg (keep s) ht).symm

theorem runOn_setBit (s : Store) (index : Nat) :
    (setBit index).runOn s = keep s (s.setBit index) :=
  runOn_look_bind fun _ _ => runOn_alter _ s

/-- An operation in place ends like the operation, and if it fails it has changed nothing. -/
theorem runOn_inPlace (hs : s.Tidy) (u : Update) : u.inPlace.runOn s = keep s (u.perform s) := by
  cases u with
  | write offset value width => exact runOn_write hs offset value width
  | clear offset width => exact runOn_clear hs offset width
  | setBit index => exact runOn_setBit s index
  | grow length => exact runOn_alter _ s
  | replace offset value width =>
    rw [Update.inPlace, runOn_bind, runOn_clear hs, Update.perform, Store.replace]
    cases hclear : s.clear offset width with
    | error failure => rfl
    | ok m =>
      -- what was cleared can be written
      obtain ⟨⟨⟩, hfield, -⟩ := bind_eq_ok_iff.1 hclear
      obtain ⟨m', hm', -, hm⟩ := Store.clear_eq_ok hs hfield
      rw [hclear, Except.ok.injEq] at hm'
      subst hm'
      obtain ⟨t, ht, -⟩ := Store.replace_eq_ok value hs hfield
      rw [Store.replace, hclear, ok_bind] at ht
      rw [keep]
      dsimp only
      rw [runOn_write hm, ok_bind, ht]
      rfl

end Changing

/-! ### Which checks fail -/

theorem fieldBreach_eq_none_iff {length offset width : Nat} (h : length < 2 ^ 64) :
    fieldBreach length offset width = none ↔
      0 < width ∧ width ≤ 64 ∧ offset + width ≤ length := by
  unfold fieldBreach
  split
  case isFalse hwidth => simp [← and_assoc, hwidth]
  case isTrue hwidth =>
    split
    case isFalse hlt => simp; omega
    case isTrue hlt => simp [hwidth]

/-- A write is accepted just if there is such a field, the value fits and the bits are off. -/
theorem breach_write_eq_none_iff {row : List Bool} (h : row.length < 2 ^ 64) (offset : Nat)
    (value : UInt64) (width : Nat) :
    (Update.write offset value width).breach row = none ↔
      0 < width ∧ width ≤ 64 ∧ offset + width ≤ row.length ∧ value.toNat < 2 ^ width ∧
        slice row offset width = List.replicate width false := by
  rw [Update.breach, Option.or_eq_none_iff, fieldBreach_eq_none_iff h, and_assoc, and_assoc]
  refine and_congr_right fun _ => and_congr_right fun _ => and_congr_right fun _ => ?_
  split
  case isTrue hwide => simp; omega
  case isFalse hfits =>
    split
    case isTrue hslice => simp [hslice]; omega
    case isFalse hslice => simp [hslice]

/-- No operation is turned down because what it wrote does not read back. -/
theorem breach_ne_readback (u : Update) (row : List Bool) (bit : Nat) :
    u.breach row ≠ some (.readback bit) := by
  have hfield : ∀ offset width, fieldBreach row.length offset width ≠ some (.readback bit) := by
    intro offset width
    unfold fieldBreach
    repeat' split
    all_goals simp
  cases u with
  | write offset value width =>
    rw [Update.breach]
    cases hbreach : fieldBreach row.length offset width with
    | some b =>
      rw [Option.some_or, ← hbreach]
      exact hfield offset width
    | none =>
      rw [Option.none_or]
      repeat' split
      all_goals simp
  | clear offset width => exact hfield offset width
  | replace offset value width => exact hfield offset width
  | setBit index =>
    rw [Update.breach]
    split <;> simp
  | grow length =>
    rw [Update.breach]
    split <;> simp

/-! ### Histories -/

/-- The store that is left after operations in a row, some of which may fail. -/
def Store.afterAll (s : Store) (updates : List Update) : Store :=
  updates.foldl (fun s u => (u.inPlace.runOn s).2) s

/-- The row that is left after operations in a row. Those that fail change nothing. -/
def rowAfter (row : List Bool) (updates : List Update) : List Bool :=
  updates.foldl (fun row u => if u.breach row = none then u.image row else row) row

/-- The store is the row: it has its words and its bits, it reads like the row, and the next
operation, whichever it is, either does to it what it does to the row or fails and leaves the store
as it is. What fails is never that a written field does not read back. -/
structure Store.IsRow (s : Store) (row : List Bool) : Prop where
  row_eq : s.row = row
  words : s.words.size = (row.length + 63) / 64
  beyond : ∀ i, row.length ≤ i → s.bit i = false
  read : ∀ offset width value, s.read offset width = .ok value ↔
    0 < width ∧ width ≤ 64 ∧ offset + width ≤ row.length ∧ value.toNat < 2 ^ width ∧
      lowBits width value = slice row offset width
  getBit : ∀ index bit, s.getBit index = .ok bit ↔ row[index]? = some bit
  ones : s.ones = row.count true
  write : ∀ offset value width,
    ((Update.write offset value width).inPlace.runOn s).1 = .ok () ↔
      0 < width ∧ width ≤ 64 ∧ offset + width ≤ row.length ∧ value.toNat < 2 ^ width ∧
        slice row offset width = List.replicate width false
  accepts : ∀ u : Update, u.breach row = none →
    ∃ t, u.perform s = .ok t ∧ u.inPlace.runOn s = (.ok (), t) ∧ t.row = u.image row
  refuses : ∀ (u : Update) b, u.breach row = some b →
    u.perform s = violate b ∧ u.inPlace.runOn s = (violate b, s) ∧ ∀ bit, b ≠ .readback bit

namespace Store

variable {s t : Store}

/-- One operation keeps a store in order and does to its row what it does to rows. -/
theorem step_row (hs : s.Tidy) (hsmall : s.length < 2 ^ 64) (u : Update) :
    (u.inPlace.runOn s).2.Tidy ∧ (u.inPlace.runOn s).2.length < 2 ^ 64 ∧
      (u.inPlace.runOn s).2.row = if u.breach s.row = none then u.image s.row else s.row := by
  rw [Changing.runOn_inPlace hs]
  rcases obeys hs hsmall u with ⟨hnone, t, ht, htidy, htsmall, hrow⟩ | ⟨b, hsome, hbroken⟩
  · rw [ht, if_pos hnone]
    exact ⟨htidy, htsmall, hrow⟩
  · rw [hbroken, hsome, if_neg (Option.some_ne_none b)]
    exact ⟨hs, hsmall, rfl⟩

theorem afterAll_row (updates : List Update) (hs : s.Tidy) (hsmall : s.length < 2 ^ 64) :
    (s.afterAll updates).Tidy ∧ (s.afterAll updates).length < 2 ^ 64 ∧
      (s.afterAll updates).row = rowAfter s.row updates := by
  induction updates generalizing s with
  | nil => exact ⟨hs, hsmall, rfl⟩
  | cons u updates ih =>
    obtain ⟨htidy, htsmall, hrow⟩ := step_row hs hsmall u
    rw [afterAll, List.foldl_cons, rowAfter, List.foldl_cons, ← hrow]
    exact ih htidy htsmall

/-- An operation that passes the checks. -/
theorem run_of_breach_eq_none (hs : s.Tidy) (hsmall : s.length < 2 ^ 64) {u : Update}
    (h : u.breach s.row = none) :
    ∃ t, u.perform s = .ok t ∧ u.inPlace.runOn s = (.ok (), t) ∧ t.row = u.image s.row := by
  rcases obeys hs hsmall u with ⟨-, t, ht, -, -, hrow⟩ | ⟨b, hsome, -⟩
  · exact ⟨t, ht, by rw [Changing.runOn_inPlace hs, ht]; rfl, hrow⟩
  · rw [h] at hsome
    cases hsome

/-- An operation that does not pass them. -/
theorem run_of_breach_eq_some (hs : s.Tidy) (hsmall : s.length < 2 ^ 64) {u : Update} {b : Breach}
    (h : u.breach s.row = some b) :
    u.perform s = violate b ∧ u.inPlace.runOn s = (violate b, s) := by
  rcases obeys hs hsmall u with ⟨hnone, -⟩ | ⟨b', hsome, hbroken⟩
  · rw [hnone] at h
    cases h
  · rw [h, Option.some.injEq] at hsome
    subst hsome
    exact ⟨hbroken, by rw [Changing.runOn_inPlace hs, hbroken]; rfl⟩

/-- A store in order is its row. -/
theorem isRow (hs : s.Tidy) (hsmall : s.length < 2 ^ 64) : s.IsRow s.row where
  row_eq := rfl
  words := by rw [length_row, hs.size]
  beyond i hi := hs.clear i (by simpa using hi)
  read offset width value := read_iff hs hsmall
  getBit index bit := getBit_iff hs
  ones := ones_eq_count hs
  write offset value width := by
    rw [← breach_write_eq_none_iff (by simpa using hsmall)]
    cases hbreach : (Update.write offset value width).breach s.row with
    | none =>
      obtain ⟨t, -, hrun, -⟩ := run_of_breach_eq_none hs hsmall hbreach
      simp [hrun]
    | some b => simp [(run_of_breach_eq_some hs hsmall hbreach).2, violate]
  accepts u h := run_of_breach_eq_none hs hsmall h
  refuses u b h := by
    obtain ⟨hperform, hrun⟩ := run_of_breach_eq_some hs hsmall h
    exact ⟨hperform, hrun, fun bit hbit => breach_ne_readback u s.row bit (hbit ▸ h)⟩

end Store

/-- A history over a border between two words. The first write straddles it; the second one meets
bits that are on, a third one reaches beyond the end, and both fail; then the field is replaced, a
bit turned on, and the store grown. -/
def straddling : List Update :=
  [.write 60 0xa5 8, .write 62 1 3, .write 68 1 3, .replace 62 0x3f 4, .setBit 3, .grow 130]

end ApproxSet.Bits
