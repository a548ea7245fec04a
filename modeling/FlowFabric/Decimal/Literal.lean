import FlowFabric.Quantity.Basic

/-! A numeral is a sequence of digits with an optional point before, among or after them and an
optional exponent, such as `.5`, `5.` or `1.5e-3`. -/

namespace FlowFabric

/-- A numeral that was read: `digits * 10 ^ exponent` with a sign.
`whole` marks a numeral without point and exponent. -/
structure Numeral where
  negative : Bool
  digits : Nat
  exponent : Int
  whole : Bool

namespace Numeral

/-- The leading decimal digits and what follows them. -/
def splitDigits : List Char → List Char × List Char
  | [] => ([], [])
  | c :: rest =>
    if c.isDigit then
      let (ds, tail) := splitDigits rest
      (c :: ds, tail)
    else ([], c :: rest)

def digitsValue (ds : List Char) : Nat :=
  ds.foldl (fun n c => 10 * n + (c.toNat - '0'.toNat)) 0

/-- The sign in front, `true` for a minus, and the rest. -/
def splitSign : List Char → Bool × List Char
  | '-' :: rest => (true, rest)
  | '+' :: rest => (false, rest)
  | cs => (false, cs)

/-- The exponent part, which ends the numeral: nothing, or a mark, an optional sign and digits. -/
def exponent? : List Char → Option Int
  | [] => some 0
  | c :: rest =>
    if c = 'e' ∨ c = 'E' then
      let (negative, tail) := splitSign rest
      match splitDigits tail with
      | ([], _) => none
      | (ds, []) => some (if negative then -(digitsValue ds : Int) else digitsValue ds)
      | (_, _ :: _) => none
    else none

/-- Reads a numeral that takes up the whole text. -/
def ofChars? (cs : List Char) : Option Numeral :=
  let (negative, body) := splitSign cs
  let (before, rest) := splitDigits body
  let (after, tail) := match rest with
    | '.' :: more => splitDigits more
    | _ => ([], rest)
  if before.isEmpty && after.isEmpty then none
  else (exponent? tail).map fun e =>
    { negative
      digits := digitsValue (before ++ after)
      exponent := e - (after.length : Int)
      whole := rest.isEmpty }

/-- The magnitude as a quantity, rounded once if the type rounds. -/
def magnitude {R : Type} [Quantity R] (n : Numeral) : R :=
  OfScientific.ofScientific n.digits (decide (n.exponent < 0)) n.exponent.natAbs

def value {R : Type} [Quantity R] (n : Numeral) : R :=
  if n.negative then 0 - n.magnitude else n.magnitude

end Numeral

end FlowFabric
