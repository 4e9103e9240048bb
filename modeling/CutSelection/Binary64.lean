import CutSelection.Scalar

/-!
Double precision numbers as scalars. The four operations, the square root and the comparisons are
those of the machine. Rounding to an integer is done on the bits: clear the fraction bits, then
correct by one. So every operation used by this library is open to proofs.
-/

namespace CutSelection
namespace Binary64

def fractionBits : Nat := 52

def negativeBit (x : Float) : Bool := Nat.pow 2 63 ≤ x.toBits.toNat

/-- Zero for subnormal numbers, 2047 for infinities and values that are no numbers. -/
def biasedExponent (x : Float) : Nat := x.toBits.toNat / Nat.pow 2 fractionBits % Nat.pow 2 11

def fraction (x : Float) : Nat := x.toBits.toNat % Nat.pow 2 fractionBits

def IsFinite (x : Float) : Prop := biasedExponent x < 2047

instance (x : Float) : Decidable (IsFinite x) := inferInstanceAs (Decidable (_ < _))

def IsNotANumber (x : Float) : Prop := biasedExponent x = 2047 ∧ fraction x ≠ 0

instance (x : Float) : Decidable (IsNotANumber x) := inferInstanceAs (Decidable (_ ∧ _))

/-- A finite number is `mantissa * 2 ^ (exponent - 1074)`, with its sign beside it. -/
def mantissa (x : Float) : Nat :=
  if biasedExponent x = 0 then fraction x else Nat.pow 2 fractionBits + fraction x

def exponent (x : Float) : Nat := biasedExponent x - 1

/-- Drop the digits behind the binary point and keep the sign, also that of zero. A biased exponent
of `1023 + k` leaves `52 - k` bits behind the point. -/
def truncate (x : Float) : Float :=
  let e := biasedExponent x
  if e < 1023 then Float.ofBits (if negativeBit x then 0x8000000000000000 else 0)
  else if e < 1023 + fractionBits then
    let unit := Nat.pow 2 (1023 + fractionBits - e)
    Float.ofBits (UInt64.ofNat (x.toBits.toNat / unit * unit))
  else x

def floor (x : Float) : Float := if x < truncate x then truncate x - 1 else truncate x

def ceil (x : Float) : Float := if truncate x < x then truncate x + 1 else truncate x

instance : Scalar Float where
  natCast := Nat.toFloat
  abs := Float.abs
  sqrt := Float.sqrt
  floor := floor
  ceil := ceil
  decidableLT := inferInstance
  decidableLE := inferInstance

end Binary64
end CutSelection
