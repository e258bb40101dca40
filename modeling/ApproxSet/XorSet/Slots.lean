import ApproxSet.Bits.Store
import ApproxSet.XorSet.Peel

/-!
# Slots and how they are solved

The slots of an xor filter are kept as octets, as 16-bit words, or packed back to back in a store
of bits, which admits any width. The three kinds of array share a small interface. Slots are given
their values in the reverse of the peeling order: when the turn of a key comes its slot is still
zero, and no key that follows touches that slot.
-/

namespace ApproxSet.XorSet

open Outcome

/-- Arrays of slots that start as zeros and are assigned at most once. -/
class SlotArray (σ : Type) where
  /-- An array of `count` zeros of `width` bits. -/
  zeros : (count width : Nat) → Outcome σ
  /-- The value of a slot. -/
  slot : σ → (index : Nat) → Outcome UInt64
  /-- Gives a value to a slot that is zero. -/
  assign : σ → (index : Nat) → (value : UInt64) → Outcome σ

instance : SlotArray (Array UInt8) where
  zeros count _ := .ok (Array.replicate count 0)
  slot slots index :=
    if h : index < slots.size then .ok slots[index].toUInt64 else violate .outOfBounds
  assign slots index value :=
    if h : index < slots.size then do
      require (slots[index] = 0) .unmet
      return slots.set index value.toUInt8
    else violate .outOfBounds

instance : SlotArray (Array UInt16) where
  zeros count _ := .ok (Array.replicate count 0)
  slot slots index :=
    if h : index < slots.size then .ok slots[index].toUInt64 else violate .outOfBounds
  assign slots index value :=
    if h : index < slots.size then do
      require (slots[index] = 0) .unmet
      return slots.set index value.toUInt16
    else violate .outOfBounds

/-- Slots of one width in a store of bits. -/
structure PackedArray where
  store : Bits.Store
  width : Nat
deriving DecidableEq

namespace PackedArray

/-- An array of `count` zeros. -/
def zeros (count width : Nat) : Outcome PackedArray := do
  let bits ← Checked.mul 64 count width
  return ⟨← Bits.Store.zeros bits, width⟩

/-- Reads a slot as a field of the store. -/
def readField (slots : PackedArray) (index : Nat) : Outcome UInt64 := do
  let offset ← Checked.mul 64 index slots.width
  slots.store.read offset slots.width

/-- Reads a slot that never crosses a word, `2 ^ k` of which fit into one. -/
def readAligned (slots : PackedArray) (k index : Nat) : Outcome UInt64 := do
  let word ← slots.store.word (index / 2 ^ k)
  return Bits.shiftDown word (index % 2 ^ k * slots.width) &&& Bits.mask slots.width

/-- The value of a slot. Widths that divide a word are read off a single word. -/
def slot (slots : PackedArray) (index : Nat) : Outcome UInt64 :=
  match slots.width with
  | 8 => slots.readAligned 3 index
  | 16 => slots.readAligned 2 index
  | 32 => slots.readAligned 1 index
  | _ => slots.readField index

/-- Gives a value to a slot that is zero. -/
def assign (slots : PackedArray) (index : Nat) (value : UInt64) : Outcome PackedArray := do
  let offset ← Checked.mul 64 index slots.width
  let store ← slots.store.write offset value slots.width
  return { slots with store := store }

instance : SlotArray PackedArray where
  zeros := zeros
  slot := slot
  assign := assign

end PackedArray

variable {σ : Type} [SlotArray σ]

/-- The exclusive or of a fingerprint with the three slots of an edge. -/
def residue (slots : σ) (e : Edge) (print : UInt64) : Outcome UInt64 := do
  let a ← SlotArray.slot slots e.first
  let b ← SlotArray.slot slots e.second
  let c ← SlotArray.slot slots e.third
  return print ^^^ a ^^^ b ^^^ c

/-- Solves the equation of a key for its own slot. -/
def solveKey (third : Nat) (salt mask : UInt64) (slots : σ) (peeled : Peeled) : Outcome σ := do
  let hash := Hash.salted peeled.key salt
  let e ← Edge.of hash third
  let value ← residue slots e (fingerprint hash mask)
  SlotArray.assign slots peeled.slot value

/-- Solves the equations of all keys, the last one put aside first. -/
def solve (third : Nat) (salt : UInt64) (width : Nat) (order : List Peeled) (slots : σ) :
    Outcome σ :=
  order.reverse.foldlM (solveKey third salt (Bits.mask width)) slots

end ApproxSet.XorSet
