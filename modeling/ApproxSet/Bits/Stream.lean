import ApproxSet.Bits.Store
import ApproxSet.Octets

/-!
# A stream of bits with a read cursor

Bits are appended at the end of a `Stream` and read back in the same order from its cursor. Bit
number `i` of a stream is bit `i % 8` of octet `i / 8`, so a stream and its octets are two views of
the same data. Appending never moves the cursor, and reading never changes the bits.

A read that fails leaves the cursor at the first bit that it could not use. Readers are therefore
state transformers that keep the stream when they fail.
-/

namespace ApproxSet.Bits

open Outcome

/-- Bits with a cursor. The store may be longer than the stream; its bits beyond are zeros. -/
structure Stream where
  store : Store
  length : Nat
  cursor : Nat
deriving DecidableEq

/-- A reader of a stream. The stream is kept when the reader fails. -/
abbrev Reading (α : Type) := ExceptT Failure (StateM Stream) α

namespace Stream

/-- The stream of no bits. -/
def empty : Stream :=
  ⟨⟨#[], 0⟩, 0, 0⟩

/-- Whether the stream has no bits. -/
def isEmpty (s : Stream) : Bool :=
  s.length == 0

/-- The stream of the bits of some octets, with the cursor at its start. -/
def ofBytes (bytes : List UInt8) : Outcome Stream := do
  let length ← Checked.mul 64 bytes.length 8
  let store ← Store.ofWords (Octets.toWords bytes)
  return ⟨store, length, 0⟩

/-- The octets of the stream, the last one filled up with zeros. -/
def toBytes (s : Stream) : List UInt8 :=
  (Octets.ofWords s.store.words.toList).take ((s.length + 7) / 8)

/-- The store of a stream, grown to at least twice its length if it ends before `stop`. -/
def storeUpTo (s : Stream) (stop : Nat) : Outcome Store :=
  if s.store.length < stop then do
    let double ← Checked.mul 64 s.store.length 2
    s.store.grow (max stop double)
  else .ok s.store

/-- Appends the low `width` bits of a value, the lowest first. -/
def append (s : Stream) (value : UInt64) (width : Nat) : Outcome Stream := do
  require (width ≤ 64) .unmet
  if width = 0 then return s
  let stop ← Checked.add 64 s.length width
  let store ← s.storeUpTo stop
  let store ← store.write s.length (value &&& mask width) width
  return ⟨store, stop, s.cursor⟩

/-- Appends one bit. -/
def appendBit (s : Stream) (bit : Bool) : Outcome Stream :=
  s.append (if bit then 1 else 0) 1

/-- The next `width` bits as a value with the lowest bit first, and the stream behind them. -/
def next (s : Stream) (width : Nat) : Outcome (UInt64 × Stream) := do
  require (width ≤ 64) .unmet
  if width = 0 then return (0, s)
  let stop ← Checked.add 64 s.cursor width
  demand (stop ≤ s.length) (.truncated s.cursor)
  let value ← s.store.read s.cursor width
  return (value, { s with cursor := stop })

/-- Moves the cursor to a position within the stream. -/
def seek (s : Stream) (position : Nat) : Outcome Stream := do
  require (position ≤ s.length) .unmet
  return { s with cursor := position }

end Stream

namespace Reading

/-- Reads `width` bits. -/
def bits (width : Nat) : Reading UInt64 := do
  let (value, rest) ← (← get).next width
  set rest
  return value

/-- Reads one bit. -/
def bit : Reading Bool := do
  return (← bits 1) == 1

/-- The position of the next bit. -/
def position : Reading Nat := do
  return (← get).cursor

/-- Reports damage unless the condition holds. -/
def expect (condition : Prop) [Decidable condition] (damage : Damage) : Reading Unit :=
  demand condition (.corrupt damage)

/-- Runs a reader and keeps the stream that it leaves. -/
def runOn {α : Type} (reader : Reading α) (s : Stream) : Outcome α × Stream :=
  reader.run.run s

theorem runOn_bind {α β : Type} (reader : Reading α) (next : α → Reading β) (s : Stream) :
    (reader >>= next).runOn s =
      match reader.runOn s with
      | (.ok value, rest) => (next value).runOn rest
      | (.error failure, rest) => (.error failure, rest) := by
  simp only [runOn, run_bind]
  rcases reader.run.run s with ⟨_ | _, _⟩ <;> rfl

end Reading

end ApproxSet.Bits
