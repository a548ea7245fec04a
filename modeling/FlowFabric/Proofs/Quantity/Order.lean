import FlowFabric.Quantity.Exact

namespace FlowFabric

/-- Comparisons that hold are those of an order,
and adding the same to both sides does not turn them round. -/
class OrderLaws (R : Type) [Quantity R] : Prop where
  le_trans {a b c : R} : a ≤ b → b ≤ c → a ≤ c
  le_self_of_le {a b : R} : a ≤ b → b ≤ b
  not_lt_of_le {a b : R} : a ≤ b → ¬ b < a
  add_lt_of_le {a b e d : R} : a ≤ b → b + e < d → a + e < d

namespace OrderLaws

variable {R : Type} [Quantity R] [OrderLaws R] {a b : R}

/-- The later of two times in order is the second one. -/
theorem max_eq_right (h : a ≤ b) : Quantity.max a b = b := by
  unfold Quantity.max
  rw [if_neg (not_lt_of_le h), if_pos (le_self_of_le h)]

end OrderLaws

namespace Exact

theorem le_trans' {a b c : Exact} (hab : le a b = true) (hbc : le b c = true) : le a c = true := by
  cases a <;> cases b <;> cases c <;> simp_all only [le, decide_eq_true_eq, Bool.false_eq_true]
  exact Rat.le_trans hab hbc

theorem le_self {a b : Exact} (h : le a b = true) : le b b = true := by
  cases a <;> cases b <;> simp_all [le]

/-- Nothing lies above positive infinity, and nothing is compared with an undefined value. -/
theorem below_of_lt {a b : Exact} (h : lt a b = true) : a ≠ posInf ∧ a ≠ undef := by
  cases a <;> cases b <;> simp_all [lt, le]

/-- Addition of a value is monotone as long as the greater sum is below something. -/
theorem add_le_add {a b e : Exact} (h : le a b = true) (hd : add b e ≠ posInf ∧ add b e ≠ undef) :
    le (add a e) (add b e) = true := by
  by_cases hfin : ∃ p q r, a = fin p ∧ b = fin q ∧ e = fin r
  · obtain ⟨p, q, r, rfl, rfl, rfl⟩ := hfin
    have hpq : p ≤ q := of_decide_eq_true h
    exact decide_eq_true (Rat.add_le_add_right.mpr hpq)
  · cases a <;> cases b <;> cases e <;> simp_all [le, add]

theorem lt_of_le_of_lt {a b c : Exact} (hab : le a b = true) (hbc : lt b c = true) :
    lt a c = true := by
  unfold lt at hbc ⊢
  rw [Bool.and_eq_true, Bool.not_eq_true'] at hbc ⊢
  refine ⟨le_trans' hab hbc.1, ?_⟩
  rw [Bool.eq_false_iff]
  intro hca
  exact Bool.false_ne_true (hbc.2.symm.trans (le_trans' hca hab))

instance : OrderLaws Exact where
  le_trans := le_trans'
  le_self_of_le := le_self
  not_lt_of_le {a b} h hlt := by
    have h' : le a b = true := h
    have hlt' : (le b a && !le a b) = true := hlt
    rw [h', Bool.not_true, Bool.and_false] at hlt'
    exact Bool.false_ne_true hlt'
  add_lt_of_le {a b e d} h hlt := by
    have hlt' : lt (add b e) d = true := hlt
    exact lt_of_le_of_lt (add_le_add h (below_of_lt hlt')) hlt'

end Exact

end FlowFabric
