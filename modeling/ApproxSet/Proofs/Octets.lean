import ApproxSet.Octets
import ApproxSet.Proofs.Bits.Word

/-!
# Octets and words as rows of bits

A row of octets has bit `i % 8` of octet `i / 8` at index `i`, and zeros behind its end. Gathering
octets into words, and taking words apart, keeps this row as it is.
-/

namespace ApproxSet.Octets

open Bits

/-- The bit with the given index. It is off behind the last octet. -/
def bitAt (octets : List UInt8) (i : Nat) : Bool :=
  (octets.getD (i / 8) 0).toNat.testBit (i % 8)

theorem bitAt_nil (i : Nat) : bitAt [] i = false := Nat.zero_testBit _

theorem bitAt_of_ge {octets : List UInt8} {i : Nat} (h : 8 * octets.length ≤ i) :
    bitAt octets i = false := by
  rw [bitAt, List.getD_eq_getElem?_getD, List.getElem?_eq_none (by omega)]
  exact Nat.zero_testBit _

theorem bitAt_cons (octet : UInt8) (octets : List UInt8) (i : Nat) :
    bitAt (octet :: octets) i = if i < 8 then octet.toNat.testBit i else bitAt octets (i - 8) := by
  unfold bitAt
  by_cases hi : i < 8
  · rw [if_pos hi, Nat.div_eq_of_lt hi, Nat.mod_eq_of_lt hi, List.getD_cons_zero]
  · rw [if_neg hi, show i / 8 = (i - 8) / 8 + 1 by omega, List.getD_cons_succ,
      show i % 8 = (i - 8) % 8 by omega]

theorem bitAt_append (octets rest : List UInt8) (i : Nat) :
    bitAt (octets ++ rest) i =
      if i < 8 * octets.length then bitAt octets i else bitAt rest (i - 8 * octets.length) := by
  induction octets generalizing i with
  | nil => rfl
  | cons octet octets ih =>
    rw [List.cons_append, bitAt_cons, bitAt_cons, ih, List.length_cons]
    by_cases hi : i < 8
    · rw [if_pos hi, if_pos hi, if_pos (by omega)]
    · rw [if_neg hi, if_neg hi]
      by_cases hin : i - 8 < 8 * octets.length
      · rw [if_pos hin, if_pos (by omega)]
      · rw [if_neg hin, if_neg (by omega), show i - 8 - 8 * octets.length =
          i - 8 * (octets.length + 1) by omega]

theorem bitAt_take (octets : List UInt8) (count i : Nat) :
    bitAt (octets.take count) i = (decide (i < 8 * count) && bitAt octets i) := by
  unfold bitAt
  rw [List.getD_eq_getElem?_getD, List.getD_eq_getElem?_getD, List.getElem?_take]
  by_cases hi : i < 8 * count
  · rw [if_pos (by omega), decide_eq_true hi, Bool.true_and]
  · rw [if_neg (by omega), decide_eq_false hi, Bool.false_and]
    exact Nat.zero_testBit _

theorem bitAt_littleEndian (count value i : Nat) :
    bitAt (littleEndian count value) i = (decide (i < 8 * count) && value.testBit i) := by
  induction count generalizing value i with
  | zero => simp [littleEndian, bitAt_nil]
  | succ count ih =>
    rw [littleEndian, bitAt_cons, ih, UInt8.toNat_ofNat', Nat.testBit_mod_two_pow]
    by_cases hi : i < 8
    · rw [if_pos hi, decide_eq_true hi, decide_eq_true (by omega)]
    · rw [if_neg hi, show value / 256 = value / 2 ^ 8 from rfl, Nat.testBit_div_two_pow,
        Nat.sub_add_cancel (by omega)]
      congr 1
      rw [decide_eq_decide]
      omega

theorem testBit_value (octets : List UInt8) (i : Nat) :
    (value octets).testBit i = bitAt octets i := by
  induction octets generalizing i with
  | nil => rw [bitAt_nil]; exact Nat.zero_testBit i
  | cons octet octets ih =>
    have hoctet : octet.toNat < 2 ^ 8 := octet.toNat_lt
    show (octet.toNat + 256 * value octets).testBit i = _
    rw [Nat.add_comm, show 256 = 2 ^ 8 from rfl, Nat.testBit_two_pow_mul_add _ hoctet, bitAt_cons,
      ih]

theorem testBit_toWord (octets : List UInt8) {i : Nat} (h : i < 64) :
    (toWord octets).toNat.testBit i = bitAt octets i := by
  rw [toWord, UInt64.toNat_ofNat', Nat.testBit_mod_two_pow, decide_eq_true h, Bool.true_and,
    testBit_value]

/-- A row that no word can be split off from is shorter than a word. -/
theorem length_lt_of_ne_word {octets : List UInt8}
    (hshort : ∀ a b c d e f g h rest,
      octets = a :: b :: c :: d :: e :: f :: g :: h :: rest → False) :
    octets.length < 8 := by
  rcases octets with _ | ⟨a, _ | ⟨b, _ | ⟨c, _ | ⟨d, _ | ⟨e, _ | ⟨f, _ | ⟨g, _ | ⟨h, rest⟩⟩⟩⟩⟩⟩⟩⟩
  case cons.cons.cons.cons.cons.cons.cons.cons =>
    exact absurd rfl (hshort a b c d e f g h rest)
  all_goals simp only [List.length_cons, List.length_nil]; omega

/-- Words made of octets have their bits. -/
theorem testBit_toWords (octets : List UInt8) (i : Nat) :
    ((toWords octets).getD (i / 64) 0).toNat.testBit (i % 64) = bitAt octets i := by
  induction octets using toWords.induct generalizing i with
  | case1 => rw [bitAt_nil]; exact testBit_zero_word _
  | case2 a b c d e f g h rest ih =>
    have hsplit := bitAt_append [a, b, c, d, e, f, g, h] rest i
    rw [toWords]
    by_cases hi : i < 64
    · rw [Nat.div_eq_of_lt hi, Nat.mod_eq_of_lt hi, List.getD_cons_zero, testBit_toWord _ hi]
      exact (hsplit.trans (if_pos hi)).symm
    · rw [show i / 64 = (i - 64) / 64 + 1 by omega, List.getD_cons_succ,
        show i % 64 = (i - 64) % 64 by omega, ih]
      exact (hsplit.trans (if_neg hi)).symm
  | case3 rest hnil hshort =>
    have hlength := length_lt_of_ne_word hshort
    rw [toWords.eq_3 rest hnil hshort]
    by_cases hi : i < 64
    · rw [Nat.div_eq_of_lt hi, Nat.mod_eq_of_lt hi, List.getD_cons_zero, testBit_toWord _ hi]
    · rw [bitAt_of_ge (by omega), List.getD_eq_getElem?_getD,
        List.getElem?_eq_none (by simp only [List.length_cons, List.length_nil]; omega)]
      exact testBit_zero_word _

theorem length_ofWords (words : List UInt64) : (ofWords words).length = 8 * words.length := by
  induction words with
  | nil => rfl
  | cons word words ih =>
    show (littleEndian 8 word.toNat ++ ofWords words).length = _
    rw [List.length_append, littleEndian_length, ih, List.length_cons]
    omega

/-- Octets taken from words have their bits. -/
theorem bitAt_ofWords (words : List UInt64) (i : Nat) :
    bitAt (ofWords words) i = (words.getD (i / 64) 0).toNat.testBit (i % 64) := by
  induction words generalizing i with
  | nil => exact (bitAt_nil i).trans (testBit_zero_word _).symm
  | cons word words ih =>
    show bitAt (littleEndian 8 word.toNat ++ ofWords words) i = _
    rw [bitAt_append, littleEndian_length, bitAt_littleEndian, ih]
    by_cases hi : i < 64
    · rw [if_pos hi, decide_eq_true hi, Bool.true_and, Nat.div_eq_of_lt hi, Nat.mod_eq_of_lt hi,
        List.getD_cons_zero]
    · rw [if_neg hi, show i / 64 = (i - 8 * 8) / 64 + 1 by omega, List.getD_cons_succ,
        show i % 64 = (i - 8 * 8) % 64 by omega]

theorem length_toWords (octets : List UInt8) :
    (toWords octets).length = (octets.length + 7) / 8 := by
  induction octets using toWords.induct with
  | case1 => rfl
  | case2 a b c d e f g h rest ih =>
    rw [toWords, List.length_cons, ih]
    simp only [List.length_cons]
    omega
  | case3 rest hnil hshort =>
    have hpos : 0 < rest.length := List.length_pos_iff.2 hnil
    have hlength := length_lt_of_ne_word hshort
    rw [toWords.eq_3 rest hnil hshort, List.length_singleton]
    omega

/-! ### Octets of numbers -/

theorem littleEndian_add (first second value : Nat) :
    littleEndian (first + second) value =
      littleEndian first value ++ littleEndian second (value / 256 ^ first) := by
  induction first generalizing value with
  | zero => rw [Nat.zero_add, Nat.pow_zero, Nat.div_one]; rfl
  | succ first ih =>
    rw [Nat.succ_add, littleEndian, ih, littleEndian, Nat.div_div_eq_div_mul, Nat.pow_succ',
      List.cons_append]

/-- Octets are those of the number that they make. -/
theorem littleEndian_value (octets : List UInt8) :
    littleEndian octets.length (value octets) = octets := by
  induction octets with
  | nil => rfl
  | cons octet octets ih =>
    have hoctet : octet.toNat < 256 := octet.toNat_lt
    show UInt8.ofNat (octet.toNat + 256 * value octets) ::
      littleEndian octets.length ((octet.toNat + 256 * value octets) / 256) = _
    have hlow : UInt8.ofNat (octet.toNat + 256 * value octets) = octet := by
      apply UInt8.toNat_inj.1
      rw [UInt8.toNat_ofNat']
      omega
    rw [hlow, show (octet.toNat + 256 * value octets) / 256 = value octets by omega, ih]

/-- Octets make the number that they are taken from, without what is above them. -/
theorem value_littleEndian (count value : Nat) :
    Octets.value (littleEndian count value) = value % 256 ^ count := by
  induction count generalizing value with
  | zero => rw [Nat.pow_zero, Nat.mod_one]; rfl
  | succ count ih =>
    have hsplit : value % 256 ^ (count + 1) = value % 256 + 256 * (value / 256 % 256 ^ count) := by
      rw [Nat.pow_succ', Nat.mod_mul]
    show (UInt8.ofNat value).toNat + 256 * Octets.value (littleEndian count (value / 256)) = _
    rw [ih, UInt8.toNat_ofNat', hsplit]

/-- The lowest `count` octets of a number, the most significant first. -/
def bigEndian (count value : Nat) : List UInt8 :=
  (littleEndian count value).reverse

@[simp]
theorem length_bigEndian (count value : Nat) : (bigEndian count value).length = count := by
  rw [bigEndian, List.length_reverse, littleEndian_length]

theorem value_reverse_bigEndian (count value : Nat) :
    Octets.value (bigEndian count value).reverse = value % 256 ^ count := by
  rw [bigEndian, List.reverse_reverse, value_littleEndian]

theorem bigEndian_add (high low value : Nat) :
    bigEndian (high + low) value = bigEndian high (value / 256 ^ low) ++ bigEndian low value := by
  rw [bigEndian, Nat.add_comm, littleEndian_add, List.reverse_append]
  rfl

/-- The first octet of a number that does not need it. -/
theorem head?_bigEndian {count value : Nat} (h : value / 256 ^ count = 0) :
    (bigEndian (count + 1) value).head? = some 0 := by
  rw [Nat.add_comm, bigEndian_add, h]
  rfl

end ApproxSet.Octets
