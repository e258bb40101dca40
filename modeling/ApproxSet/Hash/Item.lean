import ApproxSet.Octets

/-!
# Items as octets

A keyed hash reads a value as a sequence of octets. Numbers are written with the least significant
octet first in as many octets as their type has, text is closed by the octet `0xff`, which no text
holds, and sequences and optional values are opened by a 64-bit count. Two values of one type
are therefore hashed as equal only if they are equal.
-/

namespace ApproxSet.Hash

open Octets

/-- Values that a keyed hash can read. -/
class ToOctets (α : Type) where
  /-- The octets of a value, in the order in which they are hashed. -/
  octets : α → List UInt8

export ToOctets (octets)

instance : ToOctets UInt8 := ⟨fun n => littleEndian 1 n.toNat⟩

instance : ToOctets UInt16 := ⟨fun n => littleEndian 2 n.toNat⟩

instance : ToOctets UInt32 := ⟨fun n => littleEndian 4 n.toNat⟩

instance : ToOctets UInt64 := ⟨fun n => littleEndian 8 n.toNat⟩

instance : ToOctets Int8 := ⟨fun n => octets n.toUInt8⟩

instance : ToOctets Int16 := ⟨fun n => octets n.toUInt16⟩

instance : ToOctets Int32 := ⟨fun n => octets n.toUInt32⟩

instance : ToOctets Int64 := ⟨fun n => octets n.toUInt64⟩

instance : ToOctets Unit := ⟨fun _ => []⟩

instance : ToOctets Bool := ⟨fun b => [if b then 1 else 0]⟩

instance : ToOctets Char := ⟨fun c => octets c.val⟩

instance : ToOctets String := ⟨fun s => s.toUTF8.data.toList ++ [0xff]⟩

instance {α : Type} [ToOctets α] : ToOctets (List α) :=
  ⟨fun items => littleEndian 8 items.length ++ items.flatMap octets⟩

instance {α : Type} [ToOctets α] : ToOctets (Option α) :=
  ⟨fun
    | none => littleEndian 8 0
    | some item => littleEndian 8 1 ++ octets item⟩

instance {α β : Type} [ToOctets α] [ToOctets β] : ToOctets (α × β) :=
  ⟨fun pair => octets pair.1 ++ octets pair.2⟩

end ApproxSet.Hash
