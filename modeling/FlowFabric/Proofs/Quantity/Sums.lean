import FlowFabric.Quantity.Exact
import Mathlib.Algebra.Order.Ring.Rat
import Mathlib.Data.List.Nodup
import Mathlib.Data.List.Perm.Basic

namespace FlowFabric

namespace Exact

variable {α β : Type} {a b : Exact}

instance : Std.Associative ((· + ·) : Exact → Exact → Exact) where
  assoc a b c := by
    show add (add a b) c = add a (add b c)
    cases a <;> cases b <;> cases c <;> simp only [add]
    exact congrArg fin (Rat.add_assoc _ _ _)

instance : Std.Commutative ((· + ·) : Exact → Exact → Exact) where
  comm a b := by
    show add a b = add b a
    cases a <;> cases b <;> simp only [add]
    exact congrArg fin (Rat.add_comm _ _)

instance : RightCommutative ((· + ·) : Exact → Exact → Exact) where
  right_comm a b c := by
    calc a + b + c = a + (b + c) := Std.Associative.assoc a b c
      _ = a + (c + b) := congrArg (a + ·) (Std.Commutative.comm b c)
      _ = a + c + b := (Std.Associative.assoc a c b).symm

protected theorem add_zero (a : Exact) : a + 0 = a := by
  show add a (fin 0) = a
  cases a <;> simp only [add]
  exact congrArg fin (Rat.add_zero _)

protected theorem zero_add (a : Exact) : 0 + a = a :=
  (Std.Commutative.comm 0 a).trans (Exact.add_zero a)

protected theorem add_nonneg (ha : 0 ≤ a) (hb : 0 ≤ b) : 0 ≤ a + b := by
  change le (fin 0) a = true at ha
  change le (fin 0) b = true at hb
  show le (fin 0) (add a b) = true
  cases a <;> cases b <;> simp_all only [le, add, decide_eq_true_eq, Bool.false_eq_true]
  exact Rat.add_nonneg ha hb

theorem eq_zero_of_not_pos (ha : 0 ≤ a) (hpos : ¬ 0 < a) : a = 0 := by
  change le (fin 0) a = true at ha
  change ¬ (le (fin 0) a && !le a (fin 0)) = true at hpos
  rw [ha, Bool.true_and, Bool.not_eq_true', Bool.not_eq_false] at hpos
  cases a with
  | fin q => exact congrArg fin (le_antisymm (of_decide_eq_true hpos) (of_decide_eq_true ha))
  | posInf => cases hpos
  | negInf => cases ha
  | undef => cases ha

theorem sum_cons (a : Exact) (l : List Exact) : Quantity.sum (a :: l) = a + Quantity.sum l := by
  calc Quantity.sum (a :: l) = l.foldl (· + ·) (a + 0) := by
        rw [Quantity.sum, List.foldl_cons, Exact.zero_add, Exact.add_zero]
    _ = a + Quantity.sum l := List.foldl_assoc

theorem sum_perm {l l' : List Exact} (h : l.Perm l') : Quantity.sum l = Quantity.sum l' :=
  h.foldl_eq 0

theorem sum_nonneg {l : List Exact} (h : ∀ a ∈ l, 0 ≤ a) : 0 ≤ Quantity.sum l := by
  induction l with
  | nil => exact fin_le_fin.mpr le_rfl
  | cons a rest ih =>
    rw [sum_cons]
    exact Exact.add_nonneg (h a List.mem_cons_self) (ih fun b hb => h b (List.mem_cons_of_mem _ hb))

theorem sum_map_add (f g : α → Exact) (l : List α) :
    Quantity.sum (l.map fun x => f x + g x) = Quantity.sum (l.map f) + Quantity.sum (l.map g) := by
  induction l with
  | nil => exact (Exact.add_zero 0).symm
  | cons x rest ih =>
    rw [List.map_cons, List.map_cons, List.map_cons, sum_cons, sum_cons, sum_cons, ih]
    ac_rfl

theorem sum_map_zero {f : α → Exact} {l : List α} (h : ∀ x ∈ l, f x = 0) :
    Quantity.sum (l.map f) = 0 := by
  induction l with
  | nil => rfl
  | cons x rest ih =>
    rw [List.map_cons, sum_cons, h x List.mem_cons_self,
      ih fun y hy => h y (List.mem_cons_of_mem _ hy), Exact.zero_add]

/-- Where one member counts, the sum is what it counts for. -/
theorem sum_map_single [DecidableEq α] {l : List α} (hl : l.Nodup) {x : α} (hx : x ∈ l)
    (a : Exact) : Quantity.sum (l.map fun y => if x = y then a else 0) = a := by
  induction l with
  | nil => cases hx
  | cons y rest ih =>
    obtain ⟨hnew, hrest⟩ := List.nodup_cons.mp hl
    rw [List.map_cons, sum_cons]
    by_cases hxy : x = y
    · have hothers : ∀ z ∈ rest, (if x = z then a else 0) = 0 := by
        intro z hz
        exact if_neg fun hxz : x = z => hnew (hxy ▸ hxz ▸ hz)
      rw [if_pos hxy, sum_map_zero hothers, Exact.add_zero]
    · have hmem : x ∈ rest := (List.mem_cons.mp hx).resolve_left hxy
      rw [if_neg hxy, Exact.zero_add, ih hrest hmem]

/-- What is left out of a sum counts for nothing. -/
theorem sum_filterMap {f : α → Option β} {g : β → Exact} {w : α → Exact} {l : List α}
    (hsome : ∀ x y, f x = some y → g y = w x) (hnone : ∀ x, f x = none → w x = 0) :
    Quantity.sum ((l.filterMap f).map g) = Quantity.sum (l.map w) := by
  induction l with
  | nil => rfl
  | cons x rest ih =>
    rw [List.map_cons, sum_cons]
    cases hx : f x with
    | none => rw [List.filterMap_cons_none hx, ih, hnone x hx, Exact.zero_add]
    | some y => rw [List.filterMap_cons_some hx, List.map_cons, sum_cons, ih, hsome x y hx]

/-- A sum may be taken group by group, if every member is in one of the groups. -/
theorem sum_groups [DecidableEq β] (f : α → Exact) (group : α → β) {groups : List β}
    (hnodup : groups.Nodup) {l : List α} (hgroups : ∀ x ∈ l, group x ∈ groups) :
    Quantity.sum (groups.map fun b => Quantity.sum ((l.filter fun x => group x == b).map f)) =
      Quantity.sum (l.map f) := by
  induction l with
  | nil => exact sum_map_zero fun _ _ => rfl
  | cons x rest ih =>
    -- The first member counts for its own group and for no other.
    have hstep (b : β) : Quantity.sum (((x :: rest).filter fun x => group x == b).map f) =
        (if group x = b then f x else 0) +
          Quantity.sum ((rest.filter fun x => group x == b).map f) := by
      by_cases hx : group x = b
      · rw [List.filter_cons, if_pos (beq_iff_eq.mpr hx), List.map_cons, sum_cons, if_pos hx]
      · rw [List.filter_cons, if_neg (mt beq_iff_eq.mp hx), if_neg hx, Exact.zero_add]
    simp only [hstep]
    rw [sum_map_add, sum_map_single hnodup (hgroups x List.mem_cons_self),
      ih fun y hy => hgroups y (List.mem_cons_of_mem _ hy), List.map_cons, sum_cons]

end Exact

end FlowFabric
