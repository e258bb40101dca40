import ApproxSet.Coding.Delta
import ApproxSet.Proofs.Bits.Scanning

/-!
# Elias delta codes are read as what was written

The reader counts the zeros in front, then reads as many digits below a leading one, which are the
digits of the width, and last the digits of the value below its leading one. Each of the three parts
of a code is read as what it was made from.

Conversely, whatever bits the reader accepts are the code of the value that it answers, which is
never zero: no value has a second code.
-/

namespace ApproxSet.Coding

open Bits Outcome

/-! ### Binary digits -/

@[simp]
theorem length_digits (count value : Nat) : (digits count value).length = count := by
  induction count with
  | zero => rfl
  | succ count ih => rw [digits, List.length_cons, ih]

/-- Digits below a leading part give the value that they were taken from. -/
theorem ofDigits_digits (leading count value : Nat) :
    ofDigits leading (digits count value) = leading * 2 ^ count + value % 2 ^ count := by
  induction count generalizing leading with
  | zero => rw [digits, Nat.pow_zero, Nat.mod_one, Nat.mul_one]; rfl
  | succ count ih =>
    show ofDigits (2 * leading + (value.testBit count).toNat) (digits count value) = _
    have hdouble : 2 * leading * 2 ^ count = leading * 2 ^ (count + 1) := by
      rw [Nat.pow_succ, Nat.mul_comm 2 leading, Nat.mul_assoc, Nat.mul_comm 2]
    rw [ih, Nat.mod_pow_succ, ← Nat.toNat_testBit, Nat.add_mul, hdouble,
      Nat.mul_comm (value.testBit count).toNat, Nat.add_comm (value % 2 ^ count), Nat.add_assoc]

/-- The digits of a positive number below its leading one. -/
theorem ofDigits_log2 {value : Nat} (h : 0 < value) :
    ofDigits 1 (digits value.log2 value) = value := by
  have hle : 2 ^ value.log2 ≤ value := Nat.log2_self_le (by omega)
  have hlt : value < 2 ^ (value.log2 + 1) := Nat.lt_log2_self
  rw [Nat.pow_succ] at hlt
  rw [ofDigits_digits, Nat.one_mul, Nat.mod_eq_sub_mod hle, Nat.mod_eq_of_lt (by omega)]
  omega

/-- The leading part of a number made of digits. -/
theorem ofDigits_bounds (leading : Nat) (bits : List Bool) :
    leading * 2 ^ bits.length ≤ ofDigits leading bits ∧
      ofDigits leading bits < (leading + 1) * 2 ^ bits.length := by
  induction bits generalizing leading with
  | nil =>
    show leading * 1 ≤ leading ∧ leading < (leading + 1) * 1
    omega
  | cons bit bits ih =>
    obtain ⟨hlow, hhigh⟩ := ih (2 * leading + bit.toNat)
    have hbit : bit.toNat ≤ 1 := Bool.toNat_le bit
    have hle : leading * 2 * 2 ^ bits.length ≤ (2 * leading + bit.toNat) * 2 ^ bits.length :=
      Nat.mul_le_mul_right _ (by omega)
    have hge : (2 * leading + bit.toNat + 1) * 2 ^ bits.length ≤
        (leading + 1) * 2 * 2 ^ bits.length :=
      Nat.mul_le_mul_right _ (by omega)
    rw [List.length_cons, Nat.pow_succ, Nat.mul_comm (2 ^ bits.length) 2, ← Nat.mul_assoc,
      ← Nat.mul_assoc]
    show _ ≤ ofDigits (2 * leading + bit.toNat) bits ∧ ofDigits (2 * leading + bit.toNat) bits < _
    omega

/-- The digits of a number made of digits. -/
theorem digits_ofDigits (leading : Nat) (bits : List Bool) :
    digits bits.length (ofDigits leading bits) = bits := by
  induction bits generalizing leading with
  | nil => rfl
  | cons bit bits ih =>
    have htop : (ofDigits (2 * leading + bit.toNat) bits).testBit bits.length = bit := by
      obtain ⟨hlow, hhigh⟩ := ofDigits_bounds (2 * leading + bit.toNat) bits
      have hdiv := Nat.div_eq_of_lt_le hlow hhigh
      rw [Nat.testBit_eq_decide_div_mod_eq, hdiv]
      cases bit
      · exact decide_eq_false (by show ¬(2 * leading + 0) % 2 = 1; omega)
      · exact decide_eq_true (by show (2 * leading + 1) % 2 = 1; omega)
    show (ofDigits (2 * leading + bit.toNat) bits).testBit bits.length ::
      digits bits.length (ofDigits (2 * leading + bit.toNat) bits) = _
    rw [htop, ih]

theorem log2_ofDigits (bits : List Bool) : (ofDigits 1 bits).log2 = bits.length := by
  obtain ⟨hlow, hhigh⟩ := ofDigits_bounds 1 bits
  have hpos := Nat.two_pow_pos bits.length
  refine (Nat.log2_eq_iff (by omega)).2 ⟨by omega, ?_⟩
  rw [Nat.pow_succ]
  omega

namespace Delta

/-! ### Writing -/

theorem code_eq (value : Nat) :
    code value = List.replicate (value.log2 + 1).log2 false ++ [true] ++
      (digits (value.log2 + 1).log2 (value.log2 + 1) ++ digits value.log2 value) := by
  have htop : (value.log2 + 1).testBit (value.log2 + 1).log2 = true :=
    Nat.testBit_log2 (by omega)
  simp only [code, Nat.add_sub_cancel, digits, htop, List.append_assoc, List.cons_append,
    List.nil_append]

/-- The number of bits of a code. -/
theorem length_code (value : Nat) :
    (code value).length = 2 * (value.log2 + 1).log2 + 1 + value.log2 := by
  simp only [code_eq, List.length_append, List.length_replicate, List.length_singleton,
    length_digits]
  omega

theorem log2_lt {value : Nat} (h : value < 2 ^ 64) : value.log2 < 64 := by
  by_cases hzero : value = 0
  · rw [hzero, Nat.log2_zero]
    omega
  · exact (Nat.log2_lt hzero).2 h

theorem log2_width_le {value : Nat} (h : value < 2 ^ 64) : (value.log2 + 1).log2 ≤ 6 := by
  have hwidth := log2_lt h
  exact Nat.le_of_lt_succ ((Nat.log2_lt (by omega)).2 (by omega))

theorem length_code_le {value : Nat} (h : value < 2 ^ 64) : (code value).length ≤ 76 := by
  have hwidth := log2_lt h
  have hlength := log2_width_le h
  rw [length_code]
  omega

theorem writes_digits (bits : List Bool) :
    Stream.Writes (bits.foldlM Stream.appendBit) bits := by
  have hfold : Stream.Writes (bits.foldlM Stream.appendBit) (bits.flatMap fun bit => [bit]) :=
    .foldlM fun bit _ => Stream.writes_appendBit bit
  rwa [List.flatMap_singleton'] at hfold

theorem writes_write {value : UInt64} (h : 0 < value) :
    Stream.Writes (write · value) (code value.toNat) := by
  have hsix := log2_width_le value.toNat_lt
  have hzeros : Stream.Writes (·.append 0 (value.toNat.log2 + 1).log2)
      (List.replicate (value.toNat.log2 + 1).log2 false) := by
    rw [← lowBits_zero]
    exact Stream.writes_append (by omega) 0
  have hall := hzeros.andThen (writes_digits (digits ((value.toNat.log2 + 1).log2 + 1)
    (value.toNat.log2 + 1) ++ digits value.toNat.log2 value.toNat))
  have hwrite : (write · value) = _ := funext fun s => require_bind _ h
  rw [hwrite, code, List.append_assoc]
  exact hall

theorem writes_write_ofNat {number : Nat} (hpos : 0 < number) (hlt : number < 2 ^ 64) :
    Stream.Writes (write · (UInt64.ofNat number)) (code number) := by
  have hnumber : (UInt64.ofNat number).toNat = number := UInt64.toNat_ofNat_of_lt' hlt
  have hword : 0 < UInt64.ofNat number := by
    rw [UInt64.lt_iff_toNat_lt, hnumber]
    exact hpos
  have hwrites := writes_write hword
  rw [hnumber] at hwrites
  exact hwrites

/-! ### Reading -/

/-- Zeros up to the first one are counted. -/
theorem reads_readZeros (start : Nat) {zeros allowed : Nat} (h : zeros ≤ allowed) :
    Reads (readZeros start allowed) (List.replicate zeros false ++ [true]) zeros := by
  induction allowed generalizing zeros with
  | zero =>
    obtain rfl := Nat.le_zero.1 h
    exact (Reads.bit true).bind_pure ((Reads.expect rfl).bind_nil (Reads.pure 0))
  | succ allowed ih =>
    cases zeros with
    | zero => exact (Reads.bit true).bind_pure (Reads.pure 0)
    | succ zeros =>
      have hrest := ih (Nat.le_of_succ_le_succ h)
      exact (Reads.bit false).bind (hrest.bind_pure (Reads.pure (zeros + 1)))

/-- Digits are read as the number that they make. -/
theorem reads_readDigits (leading : Nat) (bits : List Bool) :
    Reads (readDigits bits.length leading) bits (ofDigits leading bits) := by
  induction bits generalizing leading with
  | nil => exact Reads.pure leading
  | cons bit bits ih => exact (Reads.bit bit).bind (ih _)

theorem reads_readDigits_log2 {value : Nat} (h : 0 < value) :
    Reads (readDigits value.log2 1) (digits value.log2 value) value := by
  have hread := reads_readDigits 1 (digits value.log2 value)
  rw [length_digits, ofDigits_log2 h] at hread
  exact hread

/-- The code of a number is read as this number. -/
theorem reads_read {value : Nat} (hpos : 0 < value) (hlt : value < 2 ^ 64) :
    Reads read (code value) (UInt64.ofNat value) := by
  have hwidth := log2_lt hlt
  rw [code_eq]
  refine Reads.position_bind fun start => ?_
  refine (reads_readZeros start (log2_width_le hlt)).bind ?_
  refine (reads_readDigits_log2 (Nat.succ_pos _)).bind ?_
  refine Reads.bind_nil (Reads.expect (by omega)) ?_
  exact (reads_readDigits_log2 hpos).bind_pure (Reads.pure _)

theorem reads_read_toNat {value : UInt64} (h : 0 < value) :
    Reads read (code value.toNat) value := by
  have hread := reads_read (UInt64.lt_iff_toNat_lt.1 h) value.toNat_lt
  rwa [UInt64.ofNat_toNat] at hread

/-! ### What is accepted -/

/-- A code is made of the digits of a width and as many digits, less one, of a value. -/
theorem code_ofDigits {widthBits valueBits : List Bool}
    (h : valueBits.length + 1 = ofDigits 1 widthBits) :
    code (ofDigits 1 valueBits) =
      List.replicate widthBits.length false ++ [true] ++ (widthBits ++ valueBits) := by
  have hwidth : (ofDigits 1 valueBits).log2 + 1 = ofDigits 1 widthBits := by
    rw [log2_ofDigits, h]
  rw [code_eq, hwidth, log2_ofDigits, digits_ofDigits, log2_ofDigits, digits_ofDigits]

theorem scans_readZeros (start allowed : Nat) :
    Scans (readZeros start allowed) fun bits zeros =>
      zeros ≤ allowed ∧ bits = List.replicate zeros false ++ [true] := by
  induction allowed with
  | zero =>
    refine Scans.bit.bind ?_
    rintro as bit rfl
    refine Scans.expect_bind fun hbit => Scans.pure ⟨Nat.le_refl 0, ?_⟩
    rw [hbit]
    rfl
  | succ allowed ih =>
    refine Scans.bit.bind ?_
    rintro as bit rfl
    cases bit with
    | true => exact Scans.pure ⟨Nat.zero_le _, rfl⟩
    | false =>
      refine ih.bind ?_
      rintro bs zeros ⟨hle, rfl⟩
      refine Scans.pure ⟨Nat.succ_le_succ hle, ?_⟩
      rw [List.append_nil]
      rfl

theorem scans_readDigits (count leading : Nat) :
    Scans (readDigits count leading) fun bits value =>
      bits.length = count ∧ value = ofDigits leading bits := by
  induction count generalizing leading with
  | zero => exact Scans.pure ⟨rfl, rfl⟩
  | succ count ih =>
    refine Scans.bit.bind ?_
    rintro as bit rfl
    refine (ih _).mono ?_
    rintro bits value ⟨rfl, rfl⟩
    exact ⟨rfl, rfl⟩

/-- Every code that is accepted is the code of its value. -/
theorem scans_read :
    Scans read fun bits value => 0 < value.toNat ∧ bits = code value.toNat := by
  refine Scans.position_bind (fun start => ?_) ?_
  · refine (scans_readZeros start 6).bind ?_
    rintro zeroBits zeros ⟨-, rfl⟩
    refine (scans_readDigits zeros 1).bind ?_
    rintro widthBits width ⟨rfl, rfl⟩
    refine Scans.expect_bind fun hle => ?_
    refine (scans_readDigits _ 1).bind ?_
    rintro valueBits value ⟨hlength, rfl⟩
    have hwidth := (ofDigits_bounds 1 widthBits).1
    have hvalue := ofDigits_bounds 1 valueBits
    have hpow := Nat.two_pow_pos widthBits.length
    have hpos := Nat.two_pow_pos valueBits.length
    have hword : (1 + 1) * 2 ^ valueBits.length ≤ 2 ^ 64 := by
      rw [Nat.mul_comm, ← Nat.pow_succ]
      exact Nat.pow_le_pow_right (by omega) (by omega)
    have hnumber : (UInt64.ofNat (ofDigits 1 valueBits)).toNat = ofDigits 1 valueBits :=
      UInt64.toNat_ofNat_of_lt' (Nat.lt_of_lt_of_le hvalue.2 hword)
    have hcode : valueBits.length + 1 = ofDigits 1 widthBits := by omega
    refine Scans.pure ⟨by omega, ?_⟩
    rw [hnumber, code_ofDigits hcode, List.append_nil]
  · rintro bits value ⟨hpos, rfl⟩
    exact reads_read_toNat (UInt64.lt_iff_toNat_lt.2 hpos)

end Delta

end ApproxSet.Coding
