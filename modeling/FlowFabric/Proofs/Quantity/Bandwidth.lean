import FlowFabric.Proofs.Quantity.Finite
import FlowFabric.Proofs.Quantity.Order

/-! Rounded arithmetic keeps these laws as well as exact arithmetic: rounding is monotone, and the
difference of equal values, zero and one are represented exactly. -/

namespace FlowFabric

/-- Finite values are no further than nothing from themselves, and neither a fraction nor an equal
part of a finite value is infinite or undefined. -/
class BandwidthLaws (R : Type) [Quantity R] : Prop where
  le_of_lt {a b : R} : a < b → a ≤ b
  le_self_of_finite {a : R} : Quantity.isFinite a = true → a ≤ a
  zero_le_one : (0 : R) ≤ 1
  finite_zero : Quantity.isFinite (0 : R) = true
  finite_one : Quantity.isFinite (1 : R) = true
  lt_infinity {a : R} : Quantity.isFinite a = true → a < Quantity.infinity
  close_self {a : R} : Quantity.isFinite a = true →
    Quantity.abs (a - a) ≤ tolerance * Quantity.max a 1
  fraction {a b : R} : 0 ≤ a → a < b → 0 ≤ a / b ∧ a / b ≤ 1
  finite_mul {a m : R} : Quantity.isFinite a = true → 0 ≤ m → m ≤ 1 →
    Quantity.isFinite (a * m) = true
  finite_div_ofNat {a : R} {n : Nat} : Quantity.isFinite a = true → n ≠ 0 →
    Quantity.isFinite (a / Quantity.ofNat n) = true

/-- Minus infinity is no more than any finite value. -/
class FloorLaw (R : Type) [Quantity R] : Prop where
  max_floor {a : R} : Quantity.isFinite a = true → Quantity.max (0 - Quantity.infinity) a = a

namespace Quantity

variable {R : Type} [Quantity R]

/-- The smaller of two values is one of them, so it has what both have. -/
theorem min_induction {P : R → Prop} {a b : R} (ha : P a) (hb : P b) : P (min a b) := by
  unfold min
  split
  · exact ha
  · split
    · exact hb
    · exact ha

theorem foldl_min_induction {P : R → Prop} {l : List R} (hl : ∀ x ∈ l, P x) {a : R} (ha : P a) :
    P (l.foldl min a) := by
  induction l generalizing a with
  | nil => exact ha
  | cons x rest ih =>
    have hrest : ∀ y ∈ rest, P y := fun y hy => hl y (List.mem_cons_of_mem _ hy)
    exact ih hrest (min_induction ha (hl x List.mem_cons_self))

theorem max_induction {P : R → Prop} {a b : R} (ha : P a) (hb : P b) : P (max a b) := by
  unfold max
  split
  · exact ha
  · split
    · exact hb
    · exact ha

theorem foldl_max_mem (a : R) (l : List R) : l.foldl max a ∈ a :: l := by
  induction l generalizing a with
  | nil => exact List.mem_cons_self
  | cons x rest ih =>
    have hfirst : max a x ∈ a :: x :: rest :=
      max_induction List.mem_cons_self (List.mem_cons_of_mem _ List.mem_cons_self)
    rcases List.mem_cons.mp (ih (max a x)) with heq | hmem
    · rw [List.foldl_cons, heq]
      exact hfirst
    · exact List.mem_cons_of_mem _ (List.mem_cons_of_mem _ hmem)

/-- The greatest of some finite values is one of them. -/
theorem maximum_mem [FloorLaw R] {l : List R} (hne : l ≠ [])
    (hfinite : ∀ a ∈ l, isFinite a = true) : l.foldl max (0 - infinity) ∈ l := by
  obtain ⟨a, rest, rfl⟩ := List.exists_cons_of_ne_nil hne
  rw [List.foldl_cons, FloorLaw.max_floor (hfinite a List.mem_cons_self)]
  exact foldl_max_mem a rest

end Quantity

namespace Exact

theorem eq_fin_of_isFinite {a : Exact} (h : Quantity.isFinite a = true) : ∃ q, a = fin q := by
  cases a with
  | fin q => exact ⟨q, rfl⟩
  | _ => cases h

theorem fraction {a b : Exact} (ha : 0 ≤ a) (hab : a < b) : 0 ≤ a / b ∧ a / b ≤ 1 := by
  have hzero : le (fin 0) a = true := ha
  have hlt : lt a b = true := hab
  -- Nothing lies above an infinite numerator, so it is finite; an infinite denominator leaves
  -- nothing.
  cases a with
  | fin p =>
    cases b with
    | fin q =>
      have hp : 0 ≤ p := of_decide_eq_true hzero
      have hpq : p < q := fin_lt_fin.mp hab
      have hq : 0 < q := hp.trans_lt hpq
      rw [fin_div_fin hq.ne', ofNat_eq_fin, ofNat_eq_fin, fin_le_fin, fin_le_fin]
      exact ⟨by positivity, (div_le_one hq).mpr (by exact_mod_cast hpq.le)⟩
    | posInf => exact ⟨fin_le_fin.mpr le_rfl, fin_le_fin.mpr zero_le_one⟩
    | negInf => cases hlt
    | undef => cases hlt
  | posInf => exact absurd rfl (below_of_lt hlt).1
  | negInf => cases hzero
  | undef => cases hzero

instance : FloorLaw Exact where
  max_floor h := by
    obtain ⟨q, rfl⟩ := eq_fin_of_isFinite h
    exact if_pos (fin_le_fin.mpr le_rfl)

instance : BandwidthLaws Exact where
  le_of_lt {a b} h := by
    have hlt : (le a b && !le b a) = true := h
    exact (Bool.and_eq_true_iff.mp hlt).1
  le_self_of_finite h := by
    obtain ⟨q, rfl⟩ := eq_fin_of_isFinite h
    exact fin_le_fin.mpr le_rfl
  zero_le_one := fin_le_fin.mpr zero_le_one
  finite_zero := rfl
  finite_one := rfl
  lt_infinity h := by
    obtain ⟨q, rfl⟩ := eq_fin_of_isFinite h
    rfl
  close_self h := by
    obtain ⟨q, rfl⟩ := eq_fin_of_isFinite h
    rw [tolerance_eq, ofNat_eq_fin, fin_sub_fin, abs_fin, max_fin, fin_mul_fin, fin_le_fin,
      sub_self, abs_zero]
    positivity
  fraction := fraction
  finite_mul ha hm hone := by
    obtain ⟨q, rfl⟩ := eq_fin_of_isFinite ha
    rename_i m
    -- A factor between zero and one is a number.
    have hm' : le (fin 0) m = true := hm
    have hone' : le m (fin 1) = true := hone
    cases m with
    | fin p => rfl
    | posInf => cases hone'
    | negInf => cases hm'
    | undef => cases hm'
  finite_div_ofNat ha hn := by
    obtain ⟨q, rfl⟩ := eq_fin_of_isFinite ha
    rw [ofNat_div_fin hn]
    rfl

end Exact

end FlowFabric
