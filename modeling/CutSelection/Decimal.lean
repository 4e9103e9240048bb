import CutSelection.Binary64

/-!
Decimal text of double precision numbers, in exact arithmetic on natural numbers: the shortest
decimal that reads back as the same number, and a fixed number of places. Neither uses an exponent.
-/

namespace CutSelection

structure Decimal where
  digits : Nat
  exponent : Int

namespace Decimal

def zeros (n : Nat) : String := "".pushn '0' n

/-- All digits in front of the point, and a point only if digits follow it. -/
def text (d : Decimal) : String :=
  let digits := toString d.digits
  match d.exponent with
  | .ofNat k => digits ++ zeros k
  | .negSucc k =>
    let padded := (zeros (k + 2 - digits.length) ++ digits).toList
    let whole := padded.length - (k + 1)
    String.ofList (padded.take whole ++ '.' :: padded.drop whole)

/-- A number between the two ends of the interval that rounds to it, all in units of `2 ^ (-1076)`.
The ends belong to the interval if the mantissa is even. -/
structure Neighbourhood where
  low : Nat
  value : Nat
  high : Nat
  closed : Bool

/-- Each end lies half way to the next number. Below a power of two the numbers are twice as dense,
except among the smallest ones. -/
def Neighbourhood.of (mantissa exponent : Nat) : Neighbourhood :=
  let unit := Nat.pow 2 exponent
  let gap := if mantissa = Nat.pow 2 Binary64.fractionBits ∧ exponent ≠ 0 then 1 else 2
  ⟨(4 * mantissa - gap) * unit, 4 * mantissa * unit, (4 * mantissa + 2) * unit, mantissa % 2 = 0⟩

namespace Neighbourhood

/-- Of the two multiples of a power of ten around the value, the nearer one that lies in the
neighbourhood. Half way between them the larger one is taken. -/
def nearest (h : Neighbourhood) (exponent : Int) : Option Decimal :=
  let scale := Nat.pow 10 (-exponent).toNat
  let step := Nat.pow 2 1076 * Nat.pow 10 exponent.toNat
  let within (a b : Nat) : Bool := if h.closed then a ≤ b else a < b
  let below := h.value * scale / step
  let above := below + 1
  let rest := h.value * scale - below * step
  let belowReads := within (h.low * scale) (below * step)
  let aboveReads := within (above * step) (h.high * scale)
  if belowReads ∧ (2 * rest < step ∨ ¬aboveReads) then some ⟨below, exponent⟩
  else if aboveReads then some ⟨above, exponent⟩
  else none

/-- How many digits stand in front of the point; zero or less for a number below one. -/
def magnitude (h : Neighbourhood) : Int :=
  (toString (h.value * Nat.pow 10 343 / Nat.pow 2 1076)).length - 343

/-- Multiples of smaller and smaller powers of ten are tried; seventeen digits always suffice. -/
def shortest (h : Neighbourhood) : Decimal :=
  ((List.range 18).findSome? fun (i : Nat) => h.nearest (h.magnitude - i)).getD ⟨0, 0⟩

end Neighbourhood

/-- A quotient rounded to the nearest integer, to the even one of two. -/
def roundDiv (numerator denominator : Nat) : Nat :=
  let q := numerator / denominator
  let twice := 2 * (numerator % denominator)
  if twice < denominator ∨ (twice = denominator ∧ q % 2 = 0) then q else q + 1

def shortest (x : Float) : Decimal :=
  if Binary64.mantissa x = 0 then ⟨0, 0⟩
  else (Neighbourhood.of (Binary64.mantissa x) (Binary64.exponent x)).shortest

def rounded (places : Nat) (x : Float) : Decimal :=
  let scaled := Binary64.mantissa x * Nat.pow 2 (Binary64.exponent x) * Nat.pow 10 places
  ⟨roundDiv scaled (Nat.pow 2 1074), -(places : Int)⟩

end Decimal

namespace Binary64

/-- The sign is written also for zero. What is no number or not finite has a word of its own. -/
def textBy (magnitude : Float → Decimal) (x : Float) : String :=
  if IsNotANumber x then "NaN"
  else
    (if negativeBit x then "-" else "") ++
      if IsFinite x then (magnitude x).text else "inf"

def text (x : Float) : String := textBy Decimal.shortest x

def textWithPlaces (places : Nat) (x : Float) : String := textBy (Decimal.rounded places) x

end Binary64
end CutSelection
