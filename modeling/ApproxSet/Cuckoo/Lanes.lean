import ApproxSet.Cuckoo.Bucket
import ApproxSet.Filter

/-!
# Cuckoo filters with a bucket in a word

Four entries of eight bits fill a 32-bit word, and four of sixteen bits a 64-bit word. All entries
of a bucket are then compared with a fingerprint at once: the fingerprint is repeated in all lanes,
and the exclusive or with the bucket has a zero lane where an entry agrees. Taking one off every
lane turns on the highest bit of each zero lane, and possibly that of lanes above a zero one. So
some lane is flagged just if some lane is zero, and the lowest flagged lane is zero.
-/

namespace ApproxSet.Cuckoo

open Outcome

/-- The entries of a bucket. -/
def laneCount : Nat := 4

/-- Flags zero octets of a word, each by its highest bit. -/
def zeroOctets (word : UInt64) : UInt64 :=
  (word - 0x0101010101010101) &&& ~~~word &&& 0x8080808080808080

/-- Flags zero 16-bit parts of a word, each by its highest bit. -/
def zeroQuarters (word : UInt64) : UInt64 :=
  (word - 0x0001000100010001) &&& ~~~word &&& 0x8000800080008000

/-- Accepts tables of less than `2 ^ 63` octets. -/
def requireRoom (octets : Nat) : Outcome Unit :=
  require (octets < 2 ^ 63) .capacity

/-! ### Arrays of words -/

section Words

variable {ω : Type}

/-- An array of so many empty buckets, each in a word of the given number of octets. -/
def emptyWords (zero : ω) (octets buckets : Nat) : Outcome (Array ω) := do
  requireRoom (octets * buckets)
  return Array.replicate buckets zero

/-- The word of a bucket. -/
def wordAt (words : Array ω) (bucket : Nat) : Outcome ω :=
  if h : bucket < words.size then .ok words[bucket] else violate .outOfBounds

/-- Changes the word of a bucket. -/
def changeWord (words : Array ω) (bucket : Nat) (change : ω → ω) : Outcome (Array ω) :=
  if h : bucket < words.size then .ok (words.set bucket (change words[bucket]))
  else violate .outOfBounds

end Words

/-- The first bit of an entry of `width` bits in a word of `total` bits. -/
def shiftOf (width total entry : Nat) : Outcome Nat := do
  require (entry * width < total) .overflow
  return entry * width

/-! ### Four octets -/

/-- Buckets of four 8-bit entries. -/
structure ByteBuckets where
  words : Array UInt32
deriving DecidableEq

namespace ByteBuckets

/-- A table of empty buckets. -/
def empty (buckets : Nat) : Outcome ByteBuckets := do
  return ⟨← emptyWords 0 4 buckets⟩

/-- The fingerprint of an entry. -/
def entry (t : ByteBuckets) (bucket entry : Nat) : Outcome UInt64 := do
  let word ← wordAt t.words bucket
  let shift ← shiftOf 8 32 entry
  return (word >>> UInt32.ofNat shift &&& 0xff).toUInt64

/-- The bucket in the lower lanes of a word whose upper lanes are not zero. -/
def padded (t : ByteBuckets) (bucket : Nat) : Outcome UInt64 := do
  return (← wordAt t.words bucket).toUInt64 ||| 0xffffffff00000000

/-- Whether some entry of a bucket holds a fingerprint. -/
def holds (t : ByteBuckets) (bucket : Nat) (print : UInt64) : Outcome Bool := do
  return zeroOctets ((← t.padded bucket) ^^^ print * 0x01010101) != 0

/-- Stores a fingerprint in the first empty entry of a bucket. -/
def insert? (t : ByteBuckets) (bucket : Nat) (print : UInt64) : Outcome (Option ByteBuckets) := do
  let flags := zeroOctets (← t.padded bucket)
  if flags = 0 then return none
  let shift ← Checked.sub (Bits.lowestOne flags) 7
  require (shift < 32) .overflow
  return some ⟨← changeWord t.words bucket (· ||| print.toUInt32 <<< UInt32.ofNat shift)⟩

/-- Replaces the fingerprint of an entry. -/
def swap (t : ByteBuckets) (bucket entry : Nat) (print : UInt64) :
    Outcome (UInt64 × ByteBuckets) := do
  let evicted ← t.entry bucket entry
  let shift := UInt32.ofNat (← shiftOf 8 32 entry)
  let words ← changeWord t.words bucket fun word =>
    word &&& ~~~(0xff <<< shift) ||| print.toUInt32 <<< shift
  return (evicted, ⟨words⟩)

instance : Buckets ByteBuckets where
  bucketCount t := t.words.size
  entriesPerBucket _ := laneCount
  entry := entry
  holds := holds
  insert? := insert?
  swap := swap

/-- Whether a key may be in the set. Both of its buckets are compared at once. -/
def mayContain (t : ByteBuckets) (key : UInt64) : Outcome Bool := do
  let home ← Home.of key 8 t.words.size
  let other ← partner home.bucket home.print t.words.size
  let lower ← wordAt t.words home.bucket
  let upper ← wordAt t.words other
  let both := lower.toUInt64 ||| upper.toUInt64 <<< 32
  return zeroOctets (both ^^^ home.print * 0x0101010101010101) != 0

/-- The number of entries that are not empty. -/
def count (t : ByteBuckets) : Nat :=
  (t.words.toList.map fun word =>
    (List.range laneCount).countP fun entry => word.toNat / 2 ^ (8 * entry) % 2 ^ 8 ≠ 0).sum

/-- Whether all entries are empty. -/
def isEmpty (t : ByteBuckets) : Bool :=
  t.words.all (· == 0)

instance : ApproximateSet ByteBuckets where
  mayContain := mayContain
  bitCount t := t.words.size * 32

end ByteBuckets

/-! ### Four 16-bit parts -/

/-- Buckets of four 16-bit entries. -/
structure WordBuckets where
  words : Array UInt64
deriving DecidableEq

namespace WordBuckets

/-- A table of empty buckets. -/
def empty (buckets : Nat) : Outcome WordBuckets := do
  return ⟨← emptyWords 0 8 buckets⟩

/-- The fingerprint of an entry. -/
def entry (t : WordBuckets) (bucket entry : Nat) : Outcome UInt64 := do
  let word ← wordAt t.words bucket
  let shift ← shiftOf 16 64 entry
  return word >>> UInt64.ofNat shift &&& 0xffff

/-- Whether some entry of a bucket holds a fingerprint. -/
def holds (t : WordBuckets) (bucket : Nat) (print : UInt64) : Outcome Bool := do
  return zeroQuarters ((← wordAt t.words bucket) ^^^ print * 0x0001000100010001) != 0

/-- Stores a fingerprint in the first empty entry of a bucket. -/
def insert? (t : WordBuckets) (bucket : Nat) (print : UInt64) : Outcome (Option WordBuckets) := do
  let flags := zeroQuarters (← wordAt t.words bucket)
  if flags = 0 then return none
  let shift ← Checked.sub (Bits.lowestOne flags) 15
  require (shift < 64) .overflow
  return some ⟨← changeWord t.words bucket (· ||| print <<< UInt64.ofNat shift)⟩

/-- Replaces the fingerprint of an entry. -/
def swap (t : WordBuckets) (bucket entry : Nat) (print : UInt64) :
    Outcome (UInt64 × WordBuckets) := do
  let evicted ← t.entry bucket entry
  let shift := UInt64.ofNat (← shiftOf 16 64 entry)
  let words ← changeWord t.words bucket fun word =>
    word &&& ~~~(0xffff <<< shift) ||| print <<< shift
  return (evicted, ⟨words⟩)

instance : Buckets WordBuckets where
  bucketCount t := t.words.size
  entriesPerBucket _ := laneCount
  entry := entry
  holds := holds
  insert? := insert?
  swap := swap

/-- Whether a key may be in the set. -/
def mayContain (t : WordBuckets) (key : UInt64) : Outcome Bool := do
  let home ← Home.of key 16 t.words.size
  if ← t.holds home.bucket home.print then return true
  t.holds (← partner home.bucket home.print t.words.size) home.print

/-- The number of entries that are not empty. -/
def count (t : WordBuckets) : Nat :=
  (t.words.toList.map fun word =>
    (List.range laneCount).countP fun entry => word.toNat / 2 ^ (16 * entry) % 2 ^ 16 ≠ 0).sum

/-- Whether all entries are empty. -/
def isEmpty (t : WordBuckets) : Bool :=
  t.words.all (· == 0)

instance : ApproximateSet WordBuckets where
  mayContain := mayContain
  bitCount t := t.words.size * 64

end WordBuckets

end ApproxSet.Cuckoo
