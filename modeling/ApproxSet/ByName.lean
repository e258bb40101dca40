import ApproxSet.Bloom
import ApproxSet.Cuckoo.Build
import ApproxSet.Failure.Message
import ApproxSet.XorSet.Build

/-!
# Filters by name

Every kind of filter that can be built from one number has a name, under which it is found without
regard to the case of ASCII letters. What the number means depends on the kind.
-/

namespace ApproxSet.ByName

/-- The kinds of filters that can be built by name. -/
inductive Kind where
  | xor8
  | xor16
  | xorPacked
  | bloom
  | cuckooPacked
  | cuckoo8x4
  | cuckoo16x4
deriving DecidableEq

namespace Kind

/-- All kinds, in the order in which they are listed. -/
def all : List Kind :=
  [xor8, xor16, xorPacked, bloom, cuckooPacked, cuckoo8x4, cuckoo16x4]

/-- The name of a kind. -/
def name : Kind → String
  | xor8 => "XOR8"
  | xor16 => "XOR16"
  | xorPacked => "XOR"
  | bloom => "BLOOM"
  | cuckooPacked => "CUCKOO"
  | cuckoo8x4 => "CUCKOO8_4"
  | cuckoo16x4 => "CUCKOO16_4"

/-- Whether two names differ in the case of ASCII letters only. -/
def sameName (a b : String) : Bool :=
  a.toList.map Char.toLower == b.toList.map Char.toLower

/-- The kind with a name. -/
def ofName (name : String) : Outcome Kind :=
  match all.find? fun kind => sameName kind.name name with
  | some kind => .ok kind
  | none => Outcome.refuse (.invalidArgument (.unknownName name))

end Kind

/-- A filter of some kind. -/
inductive AnyFilter where
  | xor8 (filter : XorSet.Bytes)
  | xor16 (filter : XorSet.Words)
  | xorPacked (filter : XorSet.Packed)
  | bloom (filter : Bloom)
  | cuckooPacked (filter : Cuckoo.Packed)
  | cuckoo8x4 (filter : Cuckoo.ByteBuckets)
  | cuckoo16x4 (filter : Cuckoo.WordBuckets)
deriving DecidableEq

instance : ApproximateSet AnyFilter where
  mayContain
    | .xor8 f | .xor16 f | .xorPacked f | .bloom f | .cuckooPacked f | .cuckoo8x4 f
    | .cuckoo16x4 f => ApproximateSet.mayContain f
  bitCount
    | .xor8 f | .xor16 f | .xorPacked f | .bloom f | .cuckooPacked f | .cuckoo8x4 f
    | .cuckoo16x4 f => ApproximateSet.bitCount f

/-- Builds a filter of distinct keys. The setting is the fingerprint width of packed filters and the
bits per key of Bloom filters; the other kinds do without it. Nobody can set a seed here, so cuckoo
filters draw their random numbers from whatever state entropy has left the generator in. -/
def build (kind : Kind) (entropy : Cuckoo.Random) (keys : List UInt64) (setting : Nat) :
    Traced AnyFilter :=
  match kind with
  | .xor8 => return .xor8 (← XorSet.bytesOf keys)
  | .xor16 => return .xor16 (← XorSet.wordsOf keys)
  | .xorPacked => return .xorPacked (← XorSet.packedOf keys setting)
  | .bloom => return .bloom (← Bloom.build keys setting)
  | .cuckooPacked => return .cuckooPacked (← Cuckoo.packedOf entropy keys setting)
  | .cuckoo8x4 => return .cuckoo8x4 (← Cuckoo.bytesOf entropy keys)
  | .cuckoo16x4 => return .cuckoo16x4 (← Cuckoo.wordsOf entropy keys)

end ApproxSet.ByName
