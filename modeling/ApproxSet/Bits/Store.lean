import ApproxSet.Bits.Word
import ApproxSet.Checked

/-!
# A store of bits

A `Store` is a fixed number of bits, kept sixty-four to a word with the lowest bit first. Fields of
one to sixty-four bits can be read and written at any bit, also across two words. A write only ever
turns bits on, so its field has to be empty; `replace` empties the field first.

Every operation checks its field before it changes anything.
-/

namespace ApproxSet.Bits

open Outcome

/-- A number of bits, kept in words. -/
structure Store where
  words : Array UInt64
  length : Nat
deriving DecidableEq

namespace Store

/-- How many words hold `length` bits. -/
def wordsFor (length : Nat) : Outcome Nat := do
  let padded ← Checked.add 64 length 63
  return padded / 64

/-- A store of `length` zeros. -/
def zeros (length : Nat) : Outcome Store := do
  let count ← wordsFor length
  return ⟨Array.replicate count 0, length⟩

/-- The store that spans all bits of the given words. -/
def ofWords (words : List UInt64) : Outcome Store := do
  let length ← Checked.mul 64 words.length 64
  return ⟨words.toArray, length⟩

/-- Whether the store has no bits. -/
def isEmpty (s : Store) : Bool :=
  s.length == 0

/-- The number of bits in the words, a multiple of `64`. -/
def capacity (s : Store) : Nat :=
  64 * s.words.size

/-- The number of ones. -/
def ones (s : Store) : Nat :=
  s.words.foldl (fun count word => count + onesIn word) 0

/-- The word with the given index. -/
def word (s : Store) (index : Nat) : Outcome UInt64 :=
  if h : index < s.words.size then .ok s.words[index] else violate .outOfBounds

/-- Changes the word with the given index. -/
def changeWord (s : Store) (index : Nat) (change : UInt64 → UInt64) : Outcome Store :=
  if h : index < s.words.size then
    .ok { s with words := s.words.set index (change s.words[index]) }
  else violate .outOfBounds

/-- Changes the word behind the given one, if a field that starts at bit `shift` of the given word
reaches into it. -/
def changeNext (s : Store) (index shift width : Nat) (change : UInt64 → UInt64) : Outcome Store :=
  if 64 < shift + width then s.changeWord (index + 1) change else .ok s

/-- The bits that a field which starts at bit `shift` of a word has in the next one, moved to their
place in the field. -/
def bitsOfNext (s : Store) (index shift width : Nat) : Outcome UInt64 :=
  if 64 < shift + width then do
    return shiftUp (← s.word (index + 1)) (64 - shift)
  else .ok 0

/-- Accepts fields of one to sixty-four bits that end within the store. -/
def requireField (s : Store) (offset width : Nat) : Outcome Unit := do
  require (0 < width ∧ width ≤ 64) (.fieldWidth width)
  let stop ← Checked.add 64 offset width
  require (stop ≤ s.length) (.fieldRange offset stop s.length)

/-- The value of the field of `width` bits at `offset`, the lowest bit first. -/
def read (s : Store) (offset width : Nat) : Outcome UInt64 := do
  s.requireField offset width
  let index := offset / 64
  let shift := offset % 64
  let first ← s.word index
  let second ← s.bitsOfNext index shift width
  return (shiftDown first shift ||| second) &&& mask width

/-- Writes a value into an empty field that is wide enough for it. -/
def write (s : Store) (offset : Nat) (value : UInt64) (width : Nat) : Outcome Store := do
  s.requireField offset width
  require (value &&& ~~~mask width = 0) (.valueTooWide width)
  let before ← s.read offset width
  require (before = 0) (.notZeroed offset)
  let index := offset / 64
  let shift := offset % 64
  let s ← s.changeWord index (· ||| shiftUp value shift)
  let s ← s.changeNext index shift width (· ||| shiftDown value (64 - shift))
  let after ← s.read offset width
  require (after = value) (.readback offset)
  return s

/-- Turns all bits of a field off. -/
def clear (s : Store) (offset width : Nat) : Outcome Store := do
  s.requireField offset width
  let index := offset / 64
  let shift := offset % 64
  let s ← s.changeWord index (· &&& ~~~shiftUp (mask width) shift)
  s.changeNext index shift width (· &&& ~~~shiftDown (mask width) (64 - shift))

/-- Overwrites a field with the low bits of a value. -/
def replace (s : Store) (offset : Nat) (value : UInt64) (width : Nat) : Outcome Store := do
  let s ← s.clear offset width
  s.write offset (value &&& mask width) width

/-- Whether the bit with the given index is on. -/
def getBit (s : Store) (index : Nat) : Outcome Bool := do
  require (index < s.length) .unmet
  let word ← s.word (index / 64)
  return word &&& shiftUp 1 (index % 64) != 0

/-- Turns a bit on, whatever it was. -/
def setBit (s : Store) (index : Nat) : Outcome Store := do
  require (index < s.length) .unmet
  s.changeWord (index / 64) (· ||| shiftUp 1 (index % 64))

/-- Appends zeros up to the given number of bits. A store never shrinks. -/
def grow (s : Store) (length : Nat) : Outcome Store :=
  if length ≤ s.length then .ok s
  else do
    let count ← wordsFor length
    return ⟨s.words ++ Array.replicate (count - s.words.size) 0, length⟩

end Store

end ApproxSet.Bits
