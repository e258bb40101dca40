import ApproxSet.Hash.Item

/-!
# Keyed hashing of arbitrary items

Filters hold 64-bit keys only. An item of any other type is turned into a key by SipHash with two
compression and four finalization rounds over the octets of the item, under a secret of two words.
-/

namespace ApproxSet.Hash

/-- The secret of a keyed hash. -/
structure Secret where
  k0 : UInt64
  k1 : UInt64
deriving DecidableEq

/-- The four words that SipHash stirs. -/
structure SipState where
  v0 : UInt64
  v1 : UInt64
  v2 : UInt64
  v3 : UInt64

namespace SipState

/-- A word turned left by `count` bits, for `0 < count < 64`. -/
def turn (word count : UInt64) : UInt64 :=
  (word <<< count) ||| (word >>> (64 - count))

/-- The state before the first octet. -/
def start (secret : Secret) : SipState where
  v0 := secret.k0 ^^^ 0x736f6d6570736575
  v1 := secret.k1 ^^^ 0x646f72616e646f6d
  v2 := secret.k0 ^^^ 0x6c7967656e657261
  v3 := secret.k1 ^^^ 0x7465646279746573

/-- One round of additions, turns and exclusive ors. -/
def stir (s : SipState) : SipState :=
  let v0 := s.v0 + s.v1
  let v1 := turn s.v1 13 ^^^ v0
  let v0 := turn v0 32
  let v2 := s.v2 + s.v3
  let v3 := turn s.v3 16 ^^^ v2
  let v0 := v0 + v3
  let v3 := turn v3 21 ^^^ v0
  let v2 := v2 + v1
  let v1 := turn v1 17 ^^^ v2
  let v2 := turn v2 32
  ⟨v0, v1, v2, v3⟩

/-- Takes in one word of the message. -/
def absorb (s : SipState) (word : UInt64) : SipState :=
  let s := ({ s with v3 := s.v3 ^^^ word }).stir.stir
  { s with v0 := s.v0 ^^^ word }

/-- The hash after the last word. -/
def finish (s : SipState) : UInt64 :=
  let s := ({ s with v2 := s.v2 ^^^ 0xff }).stir.stir.stir.stir
  s.v0 ^^^ s.v1 ^^^ s.v2 ^^^ s.v3

end SipState

/-- Takes in the rest of a message whose whole length is `total`. The last word has the length in
its highest octet. -/
def absorbAll (total : Nat) (s : SipState) : List UInt8 → SipState
  | a :: b :: c :: d :: e :: f :: g :: h :: rest =>
    absorbAll total (s.absorb (Octets.toWord [a, b, c, d, e, f, g, h])) rest
  | rest => s.absorb (Octets.toWord rest ||| (UInt64.ofNat total <<< 56))

/-- SipHash of a message. -/
def sip (secret : Secret) (message : List UInt8) : UInt64 :=
  (absorbAll message.length (SipState.start secret) message).finish

/-- The 64-bit key of an item. -/
def itemKey {α : Type} [ToOctets α] (secret : Secret) (item : α) : UInt64 :=
  sip secret (octets item)

/-- How a secret is shown. -/
def Secret.describe (secret : Secret) : String :=
  "SipHasherBuilder \x7b k0: " ++ toString secret.k0 ++ ", k1: " ++ toString secret.k1 ++ " \x7d"

end ApproxSet.Hash
