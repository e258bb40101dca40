import ApproxSet.Journal
import ApproxSet.XorSet.Table

/-!
# Building xor filters

Peeling fails for a few salts in a hundred, so a construction goes from one salt to the next until
the keys can be peeled. Keys that occur twice never peel; they are looked for once, after the first
attempt has failed. The number of attempts can be bounded, and is in any case below `2 ^ 32`, as the
attempts are counted in 32 bits.
-/

namespace ApproxSet.XorSet

open Outcome

/-! ### Repeated keys -/

/-- The smallest key that occurs twice among keys that differ in their lowest `bits` bits only. The
keys without the highest of these bits are searched before the others. -/
def smallestRepeated : (bits : Nat) → List UInt64 → Option UInt64
  | _, [] | _, [_] => none
  | 0, key :: _ => some key
  | bits + 1, keys =>
    let (upper, lower) := keys.partition fun key => key.toNat.testBit bits
    smallestRepeated bits lower <|> smallestRepeated bits upper

/-- Accepts lists without repeated keys and names the smallest repeated one otherwise. -/
def demandDistinct (keys : List UInt64) : Outcome Unit :=
  match smallestRepeated 64 keys with
  | some key => refuse (.invalidArgument (.repeatedKey key))
  | none => .ok ()

/-- Looks for repeated keys if the condition holds. -/
def demandDistinctIf (condition : Prop) [Decidable condition] (keys : List UInt64) :
    Outcome Unit :=
  if condition then demandDistinct keys else .ok ()

/-! ### The search for a salt -/

/-- A salt under which the keys peel, with their peeling order. -/
structure Solution where
  salt : UInt64
  order : List Peeled
deriving DecidableEq

/-- Tries one salt after the other. So far `attempts` have failed, and the counter has room for
`room` more. -/
def search (keys : List UInt64) (third : Nat) (bound : Option Nat) :
    (room attempts : Nat) → (salt : UInt64) → Traced Solution
  | 0, _, _ => Traced.silent (violate .overflow)
  | room + 1, attempts, salt => do
    match ← peel keys third salt with
    | .nothing order => return ⟨salt, order⟩
    | .core peeled =>
      demandDistinctIf (attempts = 0) keys
      demand (bound.all (attempts + 1 < ·)) (.attemptsExhausted (attempts + 1))
      Traced.report (.peelingStalled peeled keys.length salt)
      search keys third bound room (attempts + 1) (salt + 1)

/-- The number of attempts that can be counted. -/
def attemptRoom : Nat := 2 ^ 32 - 1

/-! ### Settings -/

/-- What a construction can be told beside the keys. -/
structure Settings where
  /-- The fingerprint width of packed filters. -/
  width : Nat := 8
  /-- The salt of the first attempt. -/
  salt : UInt64 := 0
  /-- The greatest number of attempts, if there is one. -/
  maxAttempts : Option Nat := none
deriving DecidableEq

namespace Settings

/-- Sets the fingerprint width. -/
def withWidth (s : Settings) (width : Nat) : Settings :=
  { s with width := width }

/-- Sets the salt of the first attempt. -/
def withSalt (s : Settings) (salt : UInt64) : Settings :=
  { s with salt := salt }

/-- Bounds the number of attempts, of which there has to be at least one. -/
def withMaxAttempts (s : Settings) (attempts : Nat) : Outcome Settings := do
  require (0 < attempts) .noAttempts
  return { s with maxAttempts := some attempts }

end Settings

/-! ### The three kinds of filters -/

/-- A filter whose slots are packed without gaps. -/
abbrev Packed := Table PackedArray

/-- A filter with an octet for each slot. -/
abbrev Bytes := Table (Array UInt8)

/-- A filter with a 16-bit word for each slot. -/
abbrev Words := Table (Array UInt16)

/-- Builds a filter over the given kind of slots. -/
def buildTable {σ : Type} [SlotArray σ] (s : Settings) (keys : List UInt64) (width : Nat) :
    Traced (Table σ) := do
  let third ← thirdFor keys.length
  let solution ← search keys third s.maxAttempts attemptRoom 0 s.salt
  let slots : σ ← SlotArray.zeros (3 * third) width
  let slots ← solve third solution.salt width solution.order slots
  return ⟨solution.salt, third, width, slots⟩

/-- Accepts fingerprint widths that both halves of a hash can supply. -/
def demandWidth (width : Nat) : Outcome Unit :=
  demand (0 < width ∧ width ≤ 32) (.invalidArgument (.fingerprintWidth width))

/-- Builds a packed filter of distinct keys. -/
def buildPacked (s : Settings) (keys : List UInt64) : Traced Packed := do
  demandWidth s.width
  buildTable s keys s.width

/-- Builds a filter of distinct keys with 8-bit fingerprints. -/
def buildBytes (s : Settings) (keys : List UInt64) : Traced Bytes :=
  buildTable s keys 8

/-- Builds a filter of distinct keys with 16-bit fingerprints. -/
def buildWords (s : Settings) (keys : List UInt64) : Traced Words :=
  buildTable s keys 16

/-- The packed filter of distinct keys with the given fingerprint width. -/
def packedOf (keys : List UInt64) (width : Nat) : Traced Packed :=
  buildPacked { width := width } keys

/-- The filter of distinct keys with 8-bit fingerprints. -/
def bytesOf (keys : List UInt64) : Traced Bytes :=
  buildBytes {} keys

/-- The filter of distinct keys with 16-bit fingerprints. -/
def wordsOf (keys : List UInt64) : Traced Words :=
  buildWords {} keys

end ApproxSet.XorSet
