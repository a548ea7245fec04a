/-! Every double is the middle of an interval of reals that round to it. `Decimal.shortest` takes a
decimal of that interval with the fewest digits, and of those the nearest. -/

namespace FlowFabric

/-- The number `digits * 10 ^ exponent`. -/
structure Decimal where
  digits : Nat
  exponent : Int
deriving DecidableEq

namespace Decimal

/-- The number `mantissa * 2 ^ exponent`, with a mark on the least number of each binade: its lower
neighbour is only half as far away as its upper one. -/
structure Dyadic where
  mantissa : Nat
  exponent : Int
  closeBelow : Bool

/-- The magnitude of a finite double, from its bits. -/
def Dyadic.ofBits (b : UInt64) : Dyadic :=
  let biased := ((b >>> 52) &&& 0x7FF).toNat
  let fraction := (b &&& 0xFFFFFFFFFFFFF).toNat
  if biased = 0 then ⟨fraction, -1074, false⟩
  else ⟨0x10000000000000 + fraction, (biased : Int) - 1075,
    decide (fraction = 0) && decide (1 < biased)⟩

/-- A whole power of ten, one for a negative exponent. -/
def tenTo (e : Int) : Nat := Nat.pow 10 e.toNat

/-- A whole power of two, one for a negative exponent. -/
def twoTo (e : Int) : Nat := Nat.pow 2 e.toNat

/-- Compares `a * 10 ^ i` with `n * 2 ^ j`. Negative powers go to the other side. -/
def compareScaled (a : Nat) (i : Int) (n : Nat) (j : Int) : Ordering :=
  compare (a * tenTo i * twoTo (-j)) (n * twoTo j * tenTo (-i))

/-- Whether the decimal lies in the interval that rounds to the number. The interval is taken in
quarters of the number's last place; its ends belong to it when the mantissa is even. -/
def roundsTo (d : Decimal) (x : Dyadic) : Bool :=
  let low := if x.closeBelow then 4 * x.mantissa - 1 else 4 * x.mantissa - 2
  let fromLow := compareScaled d.digits d.exponent low (x.exponent - 2)
  let fromHigh := compareScaled d.digits d.exponent (4 * x.mantissa + 2) (x.exponent - 2)
  let closed := x.mantissa % 2 == 0
  (fromLow == .gt || (closed && fromLow == .eq)) && (fromHigh == .lt || (closed && fromHigh == .eq))

/-- The number of digits before the point: the least `k` with the number below `10 ^ k`, which is
negative for a number with zeros after the point. -/
def magnitude (x : Dyadic) : Int :=
  let guess := ((x.mantissa.log2 : Int) + x.exponent) * 30103 / 100000
  match [guess - 1, guess, guess + 1, guess + 2].find? fun k =>
    compareScaled 1 k x.mantissa x.exponent == .gt with
  | some k => k
  | none => guess + 3

/-- The digits of the number down to the place `10 ^ p`, the rest cut off. -/
def truncated (x : Dyadic) (p : Int) : Nat :=
  (x.mantissa * twoTo x.exponent * tenTo (-p)) / (tenTo p * twoTo (-x.exponent))

/-- The decimal with last place `10 ^ p` that stands for the number, if there is one: one of the two
neighbours of the number among these decimals, the nearer if both qualify, the upper one on a
tie. -/
def candidate? (x : Dyadic) (p : Int) : Option Decimal :=
  let below : Decimal := ⟨truncated x p, p⟩
  let above : Decimal := ⟨truncated x p + 1, p⟩
  match roundsTo below x, roundsTo above x with
  | false, false => none
  | true, false => some below
  | false, true => some above
  | true, true =>
    if compareScaled (below.digits + above.digits) p (2 * x.mantissa) x.exponent == .gt then
      some below
    else some above

/-- Moves trailing zeros of the digits into the exponent. -/
def stripZeros : Nat → Decimal → Decimal
  | 0, d => d
  | n + 1, d => if d.digits % 10 = 0 then stripZeros n ⟨d.digits / 10, d.exponent + 1⟩ else d

/-- The shortest decimal of a nonzero number. Seventeen digits tell all doubles apart. -/
def shortest (x : Dyadic) : Decimal :=
  let k := magnitude x
  match (List.range 17).findSome? fun n : Nat => candidate? x (k - (n : Int) - 1) with
  | some d => stripZeros 17 d
  | none => ⟨truncated x (k - 17), k - 17⟩

end Decimal

end FlowFabric
