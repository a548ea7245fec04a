import FlowFabric.Quantity.Basic

/-! Rational numbers with two infinities and an undefined value, closed under the four operations
the way rounded arithmetic is, but without rounding. -/

namespace FlowFabric

/-- A rational number, an infinity, or the result of an operation that has none. -/
inductive Exact where
  | fin (q : Rat)
  | posInf
  | negInf
  | undef
deriving DecidableEq

namespace Exact

/-- The infinity with the sign of a nonzero number, undefined at zero. -/
def infOf (q : Rat) : Exact :=
  if 0 < q then posInf else if q < 0 then negInf else undef

def neg : Exact → Exact
  | fin q => fin (-q)
  | posInf => negInf
  | negInf => posInf
  | undef => undef

/-- Opposite infinities have no sum. -/
def add : Exact → Exact → Exact
  | fin a, fin b => fin (a + b)
  | undef, _ => undef
  | _, undef => undef
  | posInf, negInf => undef
  | negInf, posInf => undef
  | posInf, _ => posInf
  | _, posInf => posInf
  | negInf, _ => negInf
  | _, negInf => negInf

/-- Zero times an infinity is undefined. -/
def mul : Exact → Exact → Exact
  | fin a, fin b => fin (a * b)
  | undef, _ => undef
  | _, undef => undef
  | fin a, posInf => infOf a
  | fin a, negInf => infOf (-a)
  | posInf, fin b => infOf b
  | negInf, fin b => infOf (-b)
  | posInf, posInf => posInf
  | negInf, negInf => posInf
  | posInf, negInf => negInf
  | negInf, posInf => negInf

/-- A nonzero number over zero is the infinity of its sign; infinity over infinity is undefined. -/
def div : Exact → Exact → Exact
  | fin a, fin b => if b = 0 then infOf a else fin (a / b)
  | undef, _ => undef
  | _, undef => undef
  | fin _, _ => fin 0
  | posInf, fin b => if b < 0 then negInf else posInf
  | negInf, fin b => if b < 0 then posInf else negInf
  | _, _ => undef

/-- The order of the extended line. The undefined value is related to nothing, itself included. -/
def le : Exact → Exact → Bool
  | fin a, fin b => decide (a ≤ b)
  | undef, _ => false
  | _, undef => false
  | negInf, _ => true
  | _, posInf => true
  | _, _ => false

def lt (a b : Exact) : Bool :=
  le a b && !le b a

instance : Quantity Exact where
  add := add
  sub a b := add a (neg b)
  mul := mul
  div := div
  le a b := le a b = true
  lt a b := lt a b = true
  ofScientific m s e := fin (OfScientific.ofScientific m s e)
  decLE a b := inferInstanceAs (Decidable (le a b = true))
  decLT a b := inferInstanceAs (Decidable (lt a b = true))
  ofNat n := fin n
  infinity := posInf
  isFinite
    | fin _ => true
    | _ => false

variable {a b : Rat} {n : Nat}

@[simp] theorem fin_add_fin : fin a + fin b = fin (a + b) := rfl

@[simp] theorem fin_sub_fin : fin a - fin b = fin (a - b) := by
  show fin (a + -b) = fin (a - b)
  rw [Rat.sub_eq_add_neg]

@[simp] theorem fin_mul_fin : fin a * fin b = fin (a * b) := rfl

theorem fin_div_fin (h : b ≠ 0) : fin a / fin b = fin (a / b) := by
  show div (fin a) (fin b) = _
  simp only [div, if_neg h]

@[simp] theorem fin_le_fin : fin a ≤ fin b ↔ a ≤ b := by
  show decide (a ≤ b) = true ↔ _
  exact decide_eq_true_iff

@[simp] theorem fin_lt_fin : fin a < fin b ↔ a < b := by
  show (decide (a ≤ b) && !decide (b ≤ a)) = true ↔ _
  simp only [Bool.and_eq_true, decide_eq_true_eq, Bool.not_eq_true', decide_eq_false_iff_not]
  exact ⟨fun h => Rat.not_le.1 h.2, fun h => ⟨Rat.le_of_lt h, Rat.not_le.2 h⟩⟩

@[simp] theorem ofNat_eq_fin : (OfNat.ofNat n : Exact) = fin n := rfl

end Exact

end FlowFabric
