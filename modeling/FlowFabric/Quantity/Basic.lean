/-! One numeric type for bandwidths, sizes, latencies and times. No law is asked for, so that what
holds for every `Quantity` also holds of rounded arithmetic, with its infinities and undefined
values. -/

namespace FlowFabric

/-- A numeric type with the four operations, decidable comparisons and a positive infinity. -/
class Quantity (R : Type) extends Add R, Sub R, Mul R, Div R, LE R, LT R, OfScientific R where
  decLE : DecidableLE R
  decLT : DecidableLT R
  ofNat : Nat → R
  infinity : R
  isFinite : R → Bool

attribute [reducible] Quantity.decLE Quantity.decLT

attribute [instance] Quantity.decLE Quantity.decLT

namespace Quantity

variable {R : Type} [Quantity R]

/-- Numerals stand for the image of the natural number. -/
instance (priority := low) instOfNat {n : Nat} : OfNat R n := ⟨ofNat n⟩

/-- The smaller of two values.
If one of them is undefined, which no comparison accepts, the result is the other one. -/
def min (a b : R) : R :=
  if a < b then a else if b ≤ b then b else a

/-- The larger of two values, the other one if one of them is undefined. -/
def max (a b : R) : R :=
  if b < a then a else if b ≤ b then b else a

def abs (a : R) : R :=
  if a < 0 then 0 - a else a

/-- The sum of a list from left to right. The order matters where addition rounds. -/
def sum (l : List R) : R :=
  l.foldl (· + ·) 0

/-- The least value of a list, infinity for the empty list. -/
def minimum (l : List R) : R :=
  l.foldl min infinity

/-- The order in which values are sorted: ascending, undefined values last. -/
def sortsBefore (a b : R) : Bool :=
  a ≤ b || !decide (b ≤ b)

end Quantity

instance : Quantity Float where
  decLE := inferInstance
  decLT := inferInstance
  ofNat := Float.ofNat
  infinity := 1.0 / 0.0
  isFinite := Float.isFinite

end FlowFabric
