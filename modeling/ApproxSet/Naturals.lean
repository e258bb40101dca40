/-!
# Powers and zero of the natural numbers

Libraries of algebra define powers in every monoid, and with them find other terms for the powers
and the zero of the natural numbers. Here those of the core library are meant, whatever else is in
scope, so that a definition is the same one beside such a library as without it.
-/

namespace ApproxSet

@[default_instance 20000]
instance (priority := high) natPower : Pow Nat Nat := instPowNat

instance (priority := high) natZero : Zero Nat := ⟨0⟩

end ApproxSet
