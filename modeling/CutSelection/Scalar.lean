/-!
The numbers a cut is made of. Every definition of this library is written once, over a type with
the operations below and no laws, so that it can be run in floating point and be reasoned about over
the reals. Order facts that fail for a value that is not a number are never used silently: equality
is written as two comparisons, and a maximum says which argument it returns.
-/

namespace CutSelection

class Scalar (K : Type) extends
    Zero K, One K, NatCast K, Add K, Sub K, Mul K, Div K, Neg K, LT K, LE K where
  abs : K → K
  sqrt : K → K
  floor : K → K
  ceil : K → K
  decidableLT : DecidableLT K
  decidableLE : DecidableLE K

namespace Scalar

variable {K : Type} [Scalar K]

instance (priority := low) (a b : K) : Decidable (a < b) := decidableLT a b

instance (priority := low) (a b : K) : Decidable (a ≤ b) := decidableLE a b

/-- Equality as the order sees it: the two zeros are the same, and a value that is not comparable
with itself is the same as nothing. -/
def Same (a b : K) : Prop := a ≤ b ∧ b ≤ a

instance (a b : K) : Decidable (Same a b) := inferInstanceAs (Decidable (_ ∧ _))

abbrev IsZero (a : K) : Prop := Same a 0

/-- The larger of two values, the first if they tie. A value that is not comparable with itself
loses against the other one. -/
def maximum (a b : K) : K := if a < b then b else if a ≤ a then a else b

/-- Sums run from the left and start at zero. -/
def sum (as : List K) : K := as.foldl (· + ·) 0

@[simp] theorem sum_nil : sum ([] : List K) = 0 := rfl

theorem sum_concat (as : List K) (a : K) : sum (as ++ [a]) = sum as + a := by simp [sum]

def order? (a b : K) : Option Ordering :=
  if a < b then some .lt else if b < a then some .gt else if Same a b then some .eq else none

end Scalar
end CutSelection
