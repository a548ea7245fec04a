import FlowFabric.Quantity.Exact
import FlowFabric.Queue
import Mathlib.Algebra.Order.Field.Rat
import Mathlib.Algebra.Order.BigOperators.Group.List
import Mathlib.Tactic.Linarith
import Mathlib.Tactic.Positivity
import Mathlib.Tactic.Ring

namespace FlowFabric

namespace Exact

open Quantity

variable {a b : ℚ} {α : Type}

@[simp] theorem ofNat_fin (n : Nat) : (Quantity.ofNat n : Exact) = fin n := rfl

theorem tolerance_eq : (tolerance : Exact) = fin (1 / 10 ^ 9) := by
  show fin (OfScientific.ofScientific 1 true 9) = _
  congr 1
  norm_num

@[simp] theorem min_fin : Quantity.min (fin a) (fin b) = fin (a ⊓ b) := by
  unfold Quantity.min
  simp only [fin_lt_fin, fin_le_fin, le_refl, if_true]
  split
  · rename_i h
    rw [inf_eq_left.mpr h.le]
  · rename_i h
    rw [inf_eq_right.mpr (not_lt.mp h)]

@[simp] theorem max_fin : Quantity.max (fin a) (fin b) = fin (a ⊔ b) := by
  unfold Quantity.max
  simp only [fin_lt_fin, fin_le_fin, le_refl, if_true]
  split
  · rename_i h
    rw [sup_eq_left.mpr h.le]
  · rename_i h
    rw [sup_eq_right.mpr (not_lt.mp h)]

theorem fin_pos : (0 : Exact) < fin a ↔ 0 < a := by
  rw [ofNat_eq_fin, fin_lt_fin, Nat.cast_zero]

theorem max_fin_zero : Quantity.max (fin a) 0 = fin (a ⊔ 0) := by
  rw [ofNat_eq_fin, max_fin, Nat.cast_zero]

theorem min_posInf_right : Quantity.min (fin a) posInf = fin a := rfl

theorem min_posInf_left : Quantity.min posInf (fin a) = fin a := by
  show (if lt posInf (fin a) = true then posInf else if le (fin a) (fin a) = true then fin a
    else posInf) = fin a
  simp [lt, le]

@[simp] theorem abs_fin : Quantity.abs (fin a) = fin |a| := by
  unfold Quantity.abs
  simp only [ofNat_eq_fin, fin_lt_fin, fin_sub_fin, Nat.cast_zero, zero_sub]
  split
  · rename_i h
    rw [abs_of_neg h]
  · rename_i h
    rw [abs_of_nonneg (not_lt.mp h)]

theorem ofNat_div_fin {n : Nat} (hn : n ≠ 0) : fin a / Quantity.ofNat n = fin (a / n) :=
  fin_div_fin (Nat.cast_ne_zero.mpr hn)

/-- The rational number that a value is, zero for the values that are none. -/
def toRat : Exact → ℚ
  | fin q => q
  | _ => 0

@[simp] theorem toRat_fin : (fin a).toRat = a := rfl

def Nonneg (x : Exact) : Prop := ∃ q : ℚ, x = fin q ∧ 0 ≤ q

namespace Nonneg

theorem fin (h : 0 ≤ a) : Nonneg (fin a) := ⟨a, rfl, h⟩

variable {x : Exact}

theorem eq_fin (h : x.Nonneg) : x = Exact.fin x.toRat := by
  obtain ⟨q, rfl, _⟩ := h
  rfl

theorem toRat_nonneg (h : x.Nonneg) : 0 ≤ x.toRat := by
  obtain ⟨q, rfl, hq⟩ := h
  exact hq

theorem div_ofNat (hx : x.Nonneg) {n : Nat} (hn : n ≠ 0) : (x / Quantity.ofNat n).Nonneg := by
  obtain ⟨a, rfl, ha⟩ := hx
  rw [ofNat_div_fin hn]
  exact .fin (div_nonneg ha n.cast_nonneg)

end Nonneg

theorem foldl_add_fin (f : α → Exact) (g : α → ℚ) {l : List α} (h : ∀ x ∈ l, f x = fin (g x))
    (a : ℚ) : (l.map f).foldl (· + ·) (fin a) = fin (a + (l.map g).sum) := by
  induction l generalizing a with
  | nil => simp
  | cons x rest ih =>
    have hrest : ∀ y ∈ rest, f y = fin (g y) := fun y hy => h y (List.mem_cons_of_mem _ hy)
    simp only [List.map_cons, List.foldl_cons, List.sum_cons, h x List.mem_cons_self, fin_add_fin]
    rw [ih hrest, add_assoc]

theorem sum_map_fin (f : α → Exact) (g : α → ℚ) {l : List α} (h : ∀ x ∈ l, f x = fin (g x)) :
    Quantity.sum (l.map f) = fin (l.map g).sum := by
  have hsum := foldl_add_fin f g h 0
  rw [zero_add] at hsum
  exact hsum

/-- The least of finite values below a finite start. -/
theorem foldl_min_nonneg {l : List Exact} (hl : ∀ x ∈ l, x.Nonneg) (ha : 0 ≤ a) :
    ∃ m, l.foldl Quantity.min (fin a) = fin m ∧ 0 ≤ m ∧ m ≤ a ∧ ∀ x ∈ l, m ≤ x.toRat := by
  induction l generalizing a with
  | nil => exact ⟨a, rfl, ha, le_refl a, by simp⟩
  | cons x rest ih =>
    obtain ⟨b, rfl, hb⟩ := hl x List.mem_cons_self
    obtain ⟨m, hm, hm0, hma, hmin⟩ :=
      ih (fun y hy => hl y (List.mem_cons_of_mem _ hy)) (le_inf ha hb)
    refine ⟨m, ?_, hm0, hma.trans inf_le_left, ?_⟩
    · rw [List.foldl_cons, min_fin]
      exact hm
    · intro y hy
      rcases List.mem_cons.mp hy with rfl | hy
      · exact hma.trans inf_le_right
      · exact hmin y hy

theorem minimum_nonneg {l : List Exact} (hl : ∀ x ∈ l, x.Nonneg) (hne : l ≠ []) :
    ∃ m, Quantity.minimum l = fin m ∧ 0 ≤ m ∧ ∀ x ∈ l, m ≤ x.toRat := by
  cases l with
  | nil => exact absurd rfl hne
  | cons x rest =>
    obtain ⟨b, rfl, hb⟩ := hl x List.mem_cons_self
    obtain ⟨m, hm, hm0, hmb, hmin⟩ :=
      foldl_min_nonneg (fun y hy => hl y (List.mem_cons_of_mem _ hy)) hb
    refine ⟨m, ?_, hm0, ?_⟩
    · show (Exact.fin b :: rest).foldl Quantity.min posInf = fin m
      rw [List.foldl_cons, min_posInf_left]
      exact hm
    · intro y hy
      rcases List.mem_cons.mp hy with rfl | hy
      · exact hmb
      · exact hmin y hy

end Exact

end FlowFabric
