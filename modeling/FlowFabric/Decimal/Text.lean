import FlowFabric.Decimal.Shortest

namespace FlowFabric

namespace Decimal

/-- Digits with the point where the exponent puts it. -/
def positional (d : Decimal) : String :=
  let ds := toString d.digits
  match d.exponent with
  | .ofNat n => ds ++ String.ofList (List.replicate n '0')
  | .negSucc m =>
    let places := m + 1
    let padded := List.replicate (places + 1 - ds.length) '0' ++ ds.toList
    let whole := padded.length - places
    String.ofList (padded.take whole) ++ "." ++ String.ofList (padded.drop whole)

def text (v : Float) : String :=
  if v.isNaN then "NaN"
  else
    let bits := v.toBits
    let sign := if (bits >>> 63) == 1 then "-" else ""
    if v.isInf then sign ++ "inf"
    else
      let x := Dyadic.ofBits bits
      sign ++ (if x.mantissa = 0 then "0" else (shortest x).positional)

end Decimal

end FlowFabric
