import ApproxSet.Proofs.Coding.Span
import ApproxSet.Proofs.Octets
import ApproxSet.Proofs.Success

/-!
# The encoder puts out the low end of its interval

The octets put out, the octets held back and the low end in the registers together make up the low
end of the span that the flags lead to. No carry ever reaches the octets that were put out: the
whole interval lies in the cell of the numbers that begin with them. That is what makes room for the
carry in the octet held back, so that no carry is lost.
-/

namespace ApproxSet.Coding.Range

open Octets Outcome

namespace Encoder

/-- The encoder has come to the low end `base` of an interval of at least the length `room`. -/
structure Tracks (e : Encoder) (base room shifts : Nat) : Prop where
  count : e.emitted.length + e.pending = shifts + 1
  pending : 0 < e.pending
  /-- The held octet counts as one more, and the run of `0xff` behind it as zeros. -/
  parts : base + 2 ^ 32 =
    e.low + (256 * value e.emitted + e.held.toNat + 1) * 256 ^ (e.pending - 1) * 2 ^ 32
  low : e.low + room ≤ 2 ^ 33
  cell : base + room ≤ (value e.emitted + 1) * 256 ^ e.pending * 2 ^ 32

/-- The encoder is where the span is. -/
structure Follows (e : Encoder) (s : Span) : Prop where
  range : e.range = s.range
  tracks : e.Tracks s.base s.range s.shifts

variable {e : Encoder} {s : Span} {base room less shifts : Nat}

theorem follows_start : start.Follows Span.start :=
  ⟨rfl, rfl, by decide, by decide, by decide, by decide⟩

theorem Tracks.shorten (h : e.Tracks base room shifts) (hle : less ≤ room) :
    e.Tracks base less shifts := by
  have hlow := h.low
  have hcell := h.cell
  exact ⟨h.count, h.pending, h.parts, by omega, by omega⟩

/-! ### Octets put out -/

theorem length_release (carry : UInt8) (pending : Nat) (octet : UInt8) (emitted : List UInt8) :
    (release carry pending octet emitted).length = emitted.length + pending := by
  induction pending generalizing octet emitted with
  | zero => rfl
  | succ pending ih =>
    rw [release, ih, List.length_cons]
    omega

theorem value_cons (octet : UInt8) (octets : List UInt8) :
    value (octet :: octets) = octet.toNat + 256 * value octets := rfl

/-- A run of `0xff` with a carry becomes a run of zeros. -/
theorem value_release_run {carry : UInt8} (hcarry : carry.toNat ≤ 1) (count : Nat)
    (emitted : List UInt8) :
    value (release carry count 0xff emitted) + 1 =
      (value emitted + (1 - carry.toNat)) * 256 ^ count + carry.toNat := by
  induction count generalizing emitted with
  | zero =>
    show value emitted + 1 = _
    omega
  | succ count ih =>
    have hoctet : ((0xff : UInt8) + carry).toNat = (255 + carry.toNat) % 256 := UInt8.toNat_add _ _
    have hvalue : value ((0xff + carry) :: emitted) + (1 - carry.toNat) =
        256 * (value emitted + (1 - carry.toNat)) := by
      rw [value_cons, hoctet]
      omega
    rw [release, ih, hvalue, Nat.pow_succ', ← Nat.mul_assoc, Nat.mul_comm 256 (_ + _)]

/-- The carry goes into the octet held back, if it has room for it. -/
theorem value_release {carry octet : UInt8} (hcarry : carry.toNat ≤ 1)
    (hroom : octet.toNat + carry.toNat < 256) (count : Nat) (emitted : List UInt8) :
    value (release carry (count + 1) octet emitted) + 1 =
      (256 * value emitted + octet.toNat + 1) * 256 ^ count + carry.toNat := by
  have hoctet : (octet + carry).toNat = octet.toNat + carry.toNat := by
    rw [UInt8.toNat_add]
    exact Nat.mod_eq_of_lt hroom
  have hvalue : value ((octet + carry) :: emitted) + (1 - carry.toNat) =
      256 * value emitted + octet.toNat + 1 := by
    rw [value_cons, hoctet]
    omega
  rw [release, value_release_run hcarry, hvalue]

/-- Shifting out an octet multiplies the low end and the length of the interval. Nothing stays held
back but one octet, unless the top octet is `0xff` and there is no carry. -/
theorem shiftOut_eq_ok (h : e.Tracks base room shifts) (hpos : 0 < room) (hle : room ≤ 2 ^ 24)
    (hsmall : shifts + 2 < 2 ^ 64) :
    ∃ e', e.shiftOut = .ok e' ∧ e'.range = e.range ∧ e'.low = e.low % 2 ^ 24 * 2 ^ 8 ∧
      (e.low < 0xff000000 → e'.pending = 1) ∧
      e'.Tracks (256 * base) (256 * room) (shifts + 1) := by
  obtain ⟨hcount, hpending, hbase, hlow, hcell⟩ := h
  obtain ⟨run, hrun⟩ : ∃ run, e.pending = run + 1 := ⟨e.pending - 1, by omega⟩
  rw [hrun, Nat.add_sub_cancel] at hbase
  -- the low end in whole units of the registers, without a carry
  generalize hunits : (256 * value e.emitted + e.held.toNat + 1) * 256 ^ run = units at hbase
  have hheld := e.held.toNat_lt
  by_cases hsettles : e.low < 0xff000000 ∨ e.low / 2 ^ 32 ≠ 0
  · have hcarry : (UInt8.ofNat (e.low / 2 ^ 32)).toNat = e.low / 2 ^ 32 := by
      rw [UInt8.toNat_ofNat']
      omega
    have hroom : e.held.toNat + (UInt8.ofNat (e.low / 2 ^ 32)).toNat < 256 := by
      rw [hcarry]
      refine Nat.lt_of_not_le fun hfull => ?_
      -- the octet held back is `0xff` and there is a carry: the interval would lie beyond its cell
      have hfull : 256 * value e.emitted + e.held.toNat + 1 = (value e.emitted + 1) * 256 := by
        omega
      rw [hrun, Nat.pow_succ', ← Nat.mul_assoc, ← hfull, hunits] at hcell
      omega
    have hvalue := value_release (by omega) hroom run e.emitted
    have hlength := length_release (UInt8.ofNat (e.low / 2 ^ 32)) (run + 1) e.held e.emitted
    rw [hunits, hcarry] at hvalue
    have htop : (UInt8.ofNat (e.low / 2 ^ 24)).toNat = e.low / 2 ^ 24 % 256 := UInt8.toNat_ofNat'
    rw [shiftOut, settle, if_pos hsettles, require_bind _ hpending, pure_eq_ok, ok_bind,
      Checked.add_eq_ok (show 0 + 1 < 2 ^ 64 by decide), ok_bind]
    refine ⟨_, rfl, rfl, rfl, fun _ => rfl, ?_, Nat.one_pos, ?_, ?_, ?_⟩
    · dsimp only
      rw [hrun]
      omega
    · dsimp only
      rw [htop, hrun, Nat.pow_zero, Nat.mul_one]
      omega
    · dsimp only
      omega
    · dsimp only
      rw [hrun, Nat.pow_one]
      omega
  · rw [shiftOut, settle, if_neg hsettles, ok_bind, Checked.add_eq_ok (by omega)]
    refine ⟨_, rfl, rfl, rfl, fun hshort => absurd (.inl hshort) hsettles, ?_, Nat.succ_pos _, ?_,
      ?_, ?_⟩
    · dsimp only
      omega
    · dsimp only
      have hnext : 256 ^ (run + 1) = 256 ^ run * 256 := Nat.pow_succ 256 run
      rw [Nat.add_sub_cancel, hrun, hnext, ← Nat.mul_assoc, hunits]
      omega
    · dsimp only
      omega
    · dsimp only
      have hnext : 256 ^ (e.pending + 1) = 256 ^ e.pending * 256 := Nat.pow_succ 256 _
      rw [hnext, ← Nat.mul_assoc]
      omega

/-! ### Flags -/

theorem stretch_eq_ok {steps : Nat} (h : e.Follows s) (hpos : 0 < s.range)
    (hsmall : s.shifts + steps + 1 < 2 ^ 64) :
    ∃ e', stretch steps e = .ok e' ∧ e'.Follows (s.stretch steps) := by
  induction steps generalizing e s with
  | zero => exact ⟨e, rfl, h⟩
  | succ steps ih =>
    unfold stretch Span.stretch
    rw [h.range]
    split
    case isTrue hlong => exact ⟨e, rfl, h⟩
    case isFalse hshort =>
      have hshort : s.range < 2 ^ 24 := Nat.lt_of_not_le hshort
      obtain ⟨hcount, hpending, hparts, hlow, hcell⟩ := h.tracks
      have hstart : Tracks { e with range := s.range * 2 ^ 8 % 2 ^ 32 } s.base s.range s.shifts :=
        ⟨hcount, hpending, hparts, hlow, hcell⟩
      obtain ⟨mid, hmid, hrange, -, -, htracks⟩ :=
        shiftOut_eq_ok hstart hpos (by omega) (by omega)
      have hmidrange : mid.range = s.widen.range := by
        rw [hrange]
        show s.range * 2 ^ 8 % 2 ^ 32 = 256 * s.range
        omega
      have hwide : 0 < s.widen.range := Nat.mul_pos (by omega) hpos
      have hroom : s.widen.shifts + steps + 1 < 2 ^ 64 := by
        show s.shifts + 1 + steps + 1 < 2 ^ 64
        omega
      obtain ⟨e', he', hfollows⟩ := ih ⟨hmidrange, htracks⟩ hwide hroom
      refine ⟨e', ?_, hfollows⟩
      rw [hmid, ok_bind, he']

theorem narrow_eq_ok {probability : Nat} (flag : Bool) (h : e.Follows s)
    (hlower : s.range / 2 ^ 11 * probability ≤ s.range) :
    ∃ e', e.narrow flag (s.range / 2 ^ 11 * probability) = .ok e' ∧
      e'.Follows (s.narrow flag probability) := by
  obtain ⟨hrange, hcount, hpending, hparts, hlow, hcell⟩ := h
  cases flag with
  | false =>
    refine ⟨_, rfl, rfl, hcount, hpending, hparts, ?_, ?_⟩
    · exact Nat.le_trans (Nat.add_le_add_left hlower _) hlow
    · exact Nat.le_trans (Nat.add_le_add_left hlower _) hcell
  | true =>
    rw [narrow, if_pos rfl, Checked.add_eq_ok (by omega), ok_bind, hrange,
      Checked.sub_eq_ok hlower]
    refine ⟨_, rfl, rfl, hcount, hpending, ?_, ?_, ?_⟩
    · show s.base + s.range / 2 ^ 11 * probability + 2 ^ 32 = e.low + s.range / 2 ^ 11 * probability
        + (256 * value e.emitted + e.held.toNat + 1) * 256 ^ (e.pending - 1) * 2 ^ 32
      omega
    · show e.low + s.range / 2 ^ 11 * probability + (s.range - s.range / 2 ^ 11 * probability) ≤
        2 ^ 33
      omega
    · show s.base + s.range / 2 ^ 11 * probability + (s.range - s.range / 2 ^ 11 * probability) ≤
        (value e.emitted + 1) * 256 ^ e.pending * 2 ^ 32
      omega

/-- Encoding a flag never fails, and it does to the registers what it does to the interval. -/
theorem encode_eq_ok {probability : Nat} (flag : Bool) (h : e.Follows s) (hs : s.Usable)
    (hp : Span.Proper probability) (hsmall : s.shifts + 4 < 2 ^ 64) :
    ∃ e', e.encode flag probability = .ok e' ∧ e'.Follows (s.step flag probability) := by
  obtain ⟨hleast, hmost⟩ := Span.lower_lt hs hp
  have hlt := hs.2
  have hpos : 2 ^ 13 ≤ (s.narrow flag probability).range := (Span.narrow_range hs hp).1
  have hroom : (s.narrow flag probability).shifts + 3 + 1 < 2 ^ 64 := by
    rw [Span.narrow_shifts]
    exact hsmall
  obtain ⟨mid, hmid, hnarrow⟩ := narrow_eq_ok flag h (Nat.le_of_add_right_le hmost)
  obtain ⟨e', he', hfollows⟩ := stretch_eq_ok hnarrow (by omega) hroom
  refine ⟨e', ?_, hfollows⟩
  rw [encode, lowerPart, h.range, Checked.mul_eq_ok (by omega), ok_bind, hmid, ok_bind, he']

theorem encode_run_eq_ok {flags : List (Bool × Nat)} (h : e.Follows s) (hs : s.Usable)
    (hflags : ∀ flag ∈ flags, Span.Proper flag.2)
    (hsmall : (s.run flags).shifts + 4 < 2 ^ 64) :
    ∃ e', flags.foldlM (fun e flag => encode e flag.1 flag.2) e = .ok e' ∧
      e'.Follows (s.run flags) := by
  induction flags generalizing e s with
  | nil => exact ⟨e, rfl, h⟩
  | cons flag flags ih =>
    have hflag := hflags flag (by simp)
    have hshifts : s.shifts ≤ (s.run (flag :: flags)).shifts := Span.le_run_shifts s (flag :: flags)
    obtain ⟨mid, hmid, hfollows⟩ := encode_eq_ok flag.1 h hs hflag (by omega)
    obtain ⟨e', he', hdone⟩ := ih hfollows (Span.step_usable hs hflag)
      (fun other hother => hflags other (by simp [hother])) hsmall
    refine ⟨e', ?_, hdone⟩
    rw [List.foldlM_cons, hmid, ok_bind, he']

/-! ### The end of a code -/

theorem flush_succ (count : Nat) (e : Encoder) :
    flush (count + 1) e = flush count e >>= shiftOut := by
  induction count generalizing e with
  | zero =>
    show (shiftOut e >>= fun e' => pure e') = _
    rw [bind_pure]
    rfl
  | succ count ih =>
    show (shiftOut e >>= fun e' => flush (count + 1) e') = (shiftOut e >>= flush count) >>= shiftOut
    rw [bind_assoc]
    exact congrArg _ (funext ih)

theorem flush_eq_ok {count : Nat} (h : e.Tracks base 1 shifts)
    (hsmall : shifts + count + 1 < 2 ^ 64) :
    ∃ e', flush count e = .ok e' ∧ e'.Tracks (base * 256 ^ count) 1 (shifts + count) ∧
      (0 < count → e'.low < 2 ^ 32) := by
  induction count with
  | zero =>
    rw [Nat.pow_zero, Nat.mul_one]
    exact ⟨e, rfl, h, fun hpos => absurd hpos (Nat.lt_irrefl 0)⟩
  | succ count ih =>
    obtain ⟨mid, hmid, htracks, -⟩ := ih (by omega)
    obtain ⟨e', he', -, hlow, -, hdone⟩ :=
      shiftOut_eq_ok htracks Nat.one_pos (by decide) (by omega)
    refine ⟨e', ?_, ?_, fun _ => by omega⟩
    · rw [flush_succ, hmid, ok_bind, he']
    · rw [Nat.pow_succ, ← Nat.mul_assoc, Nat.mul_comm _ 256]
      exact hdone.shorten (by decide)

/-- The code is the low end of the interval, with four more octets behind those shifted out and one
in front. -/
theorem finish_eq_ok (h : e.Tracks base room shifts) (hpos : 0 < room)
    (hsmall : shifts + 6 < 2 ^ 64) : e.finish = .ok (bigEndian (shifts + 5) base) := by
  have hroom : shifts + 4 + 1 < 2 ^ 64 := by omega
  obtain ⟨mid, hmid, htracks, hshort⟩ := flush_eq_ok (h.shorten hpos) hroom
  have hmidlow : mid.low = 0 := by
    have hparts := htracks.parts
    have hlt := hshort (by omega)
    omega
  obtain ⟨last, hlast, -, hlow, hpending, hdone⟩ :=
    shiftOut_eq_ok htracks Nat.one_pos (by decide) (by omega)
  have hlastpending : last.pending = 1 := hpending (by omega)
  have hcount := hdone.count
  have hparts := hdone.parts
  rw [hlastpending, hlow, hmidlow, Nat.pow_zero, Nat.mul_one] at hparts
  have hheld := last.held.toNat_lt
  have hvalue : value last.emitted = base := by omega
  have hlength : last.emitted.length = shifts + 5 := by omega
  rw [finish, flush_succ, hmid, ok_bind, hlast, ok_bind, bigEndian, ← hlength, ← hvalue,
    littleEndian_value]
  rfl

end Encoder

/-- Flags with proper probabilities can be encoded, and their code is the low end of the interval
that they lead to. -/
theorem encodeAll_eq_ok {flags : List (Bool × Nat)} (hflags : ∀ flag ∈ flags, Span.Proper flag.2)
    (hsmall : (Span.start.run flags).shifts + 6 < 2 ^ 64) :
    encodeAll flags =
      .ok (bigEndian ((Span.start.run flags).shifts + 5) (Span.start.run flags).base) := by
  obtain ⟨e, he, hfollows⟩ :=
    Encoder.encode_run_eq_ok Encoder.follows_start Span.usable_start hflags (by omega)
  have hlong := (Span.run_usable Span.usable_start hflags).1
  have hpos : 0 < (Span.start.run flags).range := Nat.lt_of_lt_of_le (by decide) hlong
  rw [encodeAll, he, ok_bind, Encoder.finish_eq_ok hfollows.tracks hpos hsmall]

end ApproxSet.Coding.Range
