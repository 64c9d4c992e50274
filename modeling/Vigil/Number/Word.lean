/-!
# Vigil.Number.Word — 64-bit words

Bounds of signed and unsigned 64-bit words as integers, and which integers
fit one.
-/

namespace Vigil.Word

def minSigned : Int := -0x8000000000000000

def maxSigned : Int := 0x7fffffffffffffff

def maxUnsigned : Int := 0xffffffffffffffff

def IsSigned (i : Int) : Prop := minSigned ≤ i ∧ i ≤ maxSigned

def IsUnsigned (i : Int) : Prop := 0 ≤ i ∧ i ≤ maxUnsigned

instance (i : Int) : Decidable (IsSigned i) := inferInstanceAs (Decidable (_ ∧ _))

instance (i : Int) : Decidable (IsUnsigned i) := inferInstanceAs (Decidable (_ ∧ _))

end Vigil.Word
