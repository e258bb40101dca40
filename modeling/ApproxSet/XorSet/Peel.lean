import ApproxSet.XorSet.Edge

/-!
# Peeling

A slot that a single edge touches can be given whatever value the equation of that edge needs, so
the edge may be put aside and solved after all others. Peeling puts edges aside one by one until
none is left, or until every slot is touched by no edge or by several. For each slot it keeps the
number of its edges and the exclusive or of their keys, so that the key of a lone edge can be read
off.

The order in which slots are taken up is fixed: first the one that became lone last, and at the
start the one with the highest index.
-/

namespace ApproxSet.XorSet

open Outcome

/-- The number of keys that a slot may have. -/
def degreeLimit : Nat := 120

/-- For each slot, the number of the keys on it and their exclusive or. -/
structure Mesh where
  degrees : Array Nat
  sums : Array UInt64

namespace Mesh

/-- A mesh of `slots` slots without keys. -/
def empty (slots : Nat) : Mesh :=
  ⟨Array.replicate slots 0, Array.replicate slots 0⟩

/-- The number of keys on a slot. -/
def degree (m : Mesh) (slot : Nat) : Nat :=
  m.degrees.getD slot 0

/-- The exclusive or of the keys on a slot. -/
def sum (m : Mesh) (slot : Nat) : Outcome UInt64 :=
  if h : slot < m.sums.size then .ok m.sums[slot] else violate .outOfBounds

/-- Sets the number of keys on a slot and combines its sum with a key. -/
def change (m : Mesh) (key : UInt64) (slot degree : Nat) : Outcome Mesh :=
  if h : slot < m.sums.size then
    .ok ⟨m.degrees.setIfInBounds slot degree, m.sums.set slot (m.sums[slot] ^^^ key)⟩
  else violate .outOfBounds

/-- Puts a key on a slot. A slot that holds too many keys ends the construction. -/
def join (key : UInt64) (m : Mesh) (slot : Nat) : Outcome Mesh := do
  require (slot < m.degrees.size) .outOfBounds
  let degree ← Checked.add 8 (m.degree slot) 1
  demand (degree ≤ degreeLimit) (.degenerateSlot slot degree)
  m.change key slot degree

/-- Takes a key off a slot. A slot that is left with one key is put on the stack. -/
def leave (key : UInt64) (state : Mesh × List Nat) (slot : Nat) : Outcome (Mesh × List Nat) := do
  let (m, stack) := state
  require (slot < m.degrees.size) .outOfBounds
  let degree ← Checked.sub (m.degree slot) 1
  let m ← m.change key slot degree
  return (m, if degree = 1 then slot :: stack else stack)

/-- Puts a key on its three slots. -/
def addKey (third : Nat) (salt : UInt64) (m : Mesh) (key : UInt64) : Outcome Mesh := do
  (← Edge.ofKey third salt key).slots.foldlM (join key) m

/-- Takes a key off its three slots. -/
def removeKey (third : Nat) (salt : UInt64) (m : Mesh) (stack : List Nat) (key : UInt64) :
    Outcome (Mesh × List Nat) := do
  (← Edge.ofKey third salt key).slots.foldlM (leave key) (m, stack)

/-- The slots with a single key, the highest first. -/
def loneSlots (m : Mesh) : List Nat :=
  ((List.range m.degrees.size).filter fun slot => m.degree slot == 1).reverse

/-- The first slot of a stack that is still lone, with the stack below it. -/
def lone? (m : Mesh) : (stack : List Nat) → Outcome (Option (Nat × List Nat))
  | [] => return none
  | slot :: stack => do
    require (slot < m.degrees.size) .outOfBounds
    if m.degree slot = 1 then return some (slot, stack) else m.lone? stack

end Mesh

/-- A key with the slot that it was alone on when it was put aside. -/
structure Peeled where
  key : UInt64
  slot : Nat
deriving DecidableEq

/-- What is left after peeling. -/
inductive Remainder where
  /-- Nothing: all keys were put aside, in this order. -/
  | nothing (order : List Peeled)
  /-- A core without a lone slot. So many keys were put aside before. -/
  | core (peeled : Nat)
deriving DecidableEq

/-- Puts keys aside until no slot of the stack is lone. At most `left` keys are on the mesh, and a
slot that is lone when none is left breaks this promise. -/
def drain (third : Nat) (salt : UInt64) :
    (left : Nat) → Mesh → (stack : List Nat) → Outcome (List Peeled)
  | 0, mesh, stack => do
    require ((← mesh.lone? stack).isNone) .unmet
    return []
  | left + 1, mesh, stack => do
    match ← mesh.lone? stack with
    | none => return []
    | some (slot, stack) =>
      let key ← mesh.sum slot
      let (mesh, stack) ← mesh.removeKey third salt stack key
      let order ← drain third salt left mesh stack
      return ⟨key, slot⟩ :: order

/-- Peels the hypergraph of keys under a salt. -/
def peel (keys : List UInt64) (third : Nat) (salt : UInt64) : Outcome Remainder := do
  let slots ← Checked.mul 64 3 third
  let mesh ← keys.foldlM (Mesh.addKey third salt) (Mesh.empty slots)
  let order ← drain third salt keys.length mesh mesh.loneSlots
  return if order.length = keys.length then .nothing order else .core order.length

end ApproxSet.XorSet
