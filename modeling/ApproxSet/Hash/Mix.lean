import ApproxSet.Checked

/-!
# Mixing keys and mapping hashes onto ranges

`mix` spreads a 64-bit key over the whole word, `salted` does so for one of many salts, and `scale`
maps a 32-bit window of a hash onto `0` to `n - 1` by a product and a shift. Every filter takes all
its positions from windows of a single mixed hash.
-/

namespace ApproxSet.Hash

/-- Mixes a word so that every input bit reaches every output bit. -/
def mix (x : UInt64) : UInt64 :=
  let x := (x ^^^ (x >>> 30)) * 0xbf58476d1ce4e5b9
  let x := (x ^^^ (x >>> 27)) * 0x94d049bb133111eb
  x ^^^ (x >>> 31)

/-- The hash of a key under a salt. The salt `0` adds nothing. -/
def salted (key salt : UInt64) : UInt64 :=
  mix (key + salt * 0x9e3779b97f4a7c15)

/-- The low half of a word. -/
def low (hash : UInt64) : UInt32 :=
  hash.toUInt32

/-- The high half of a word. -/
def high (hash : UInt64) : UInt32 :=
  (hash >>> 32).toUInt32

/-- The low half of a word turned left by `count` bits, for `0 < count < 64`. -/
def window (hash : UInt64) (count : UInt64) : UInt32 :=
  low ((hash <<< count) ||| (hash >>> (64 - count)))

/-- Maps a 32-bit hash onto `0` to `n - 1` in order and evenly: the quotient by `2 ^ 32` of the
product with `n`, which has to fit into a word. -/
def scale (hash : UInt32) (n : Nat) : Outcome Nat := do
  let product ← Checked.mul 64 hash.toNat n
  return product / 2 ^ 32

end ApproxSet.Hash
