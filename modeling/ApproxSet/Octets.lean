/-!
# Words and octets

Numbers as octets with the least significant octet first, and octets gathered into 64-bit words in
the same order. A last word that is not full is filled up with zeros above.
-/

namespace ApproxSet.Octets

/-- The lowest `count` octets of a number, the least significant first. -/
def littleEndian : (count : Nat) → (value : Nat) → List UInt8
  | 0, _ => []
  | count + 1, value => UInt8.ofNat value :: littleEndian count (value / 256)

theorem littleEndian_length (count value : Nat) : (littleEndian count value).length = count := by
  induction count generalizing value with
  | zero => rfl
  | succ count ih => simp [littleEndian, ih]

/-- The number that octets make. -/
def value (octets : List UInt8) : Nat :=
  octets.foldr (fun octet rest => octet.toNat + 256 * rest) 0

/-- The word that at most eight octets make. -/
def toWord (octets : List UInt8) : UInt64 :=
  UInt64.ofNat (value octets)

/-- The words that octets make, eight to a word. -/
def toWords : List UInt8 → List UInt64
  | [] => []
  | a :: b :: c :: d :: e :: f :: g :: h :: rest =>
    toWord [a, b, c, d, e, f, g, h] :: toWords rest
  | rest => [toWord rest]

/-- The octets of words, eight to a word. -/
def ofWords (words : List UInt64) : List UInt8 :=
  words.flatMap fun word => littleEndian 8 word.toNat

end ApproxSet.Octets
