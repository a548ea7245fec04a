import FlowFabric.Proofs.Queue.Rounds
import Mathlib.Data.List.MinMax
import Mathlib.Data.List.Sort
import Mathlib.Tactic.FieldSimp

/-! Between the closed formulas of the predictions and the rounds of an advance stands the forecast,
the list of the transmissions in flight as they will complete. -/

namespace FlowFabric

open Exact (fin posInf)

open Quantity (isFinite)

namespace Exact

/-- A minimum is found if it is one of the values and no more than any. -/
theorem foldl_min_eq {l : List Exact} {v : ℚ} (hv : fin v ∈ l) (hl : ∀ y ∈ l, fin v ≤ y) {x : Exact}
    (hx : fin v ≤ x) : l.foldl Quantity.min x = fin v := by
  have hlow : fin v ≤ l.foldl Quantity.min x :=
    Quantity.foldl_min_induction (P := fun y => fin v ≤ y) hl hx
  rcases AtMost.foldl_min_of_mem hv x with hnone | ⟨b, hb, hle⟩
  · rw [hnone] at hlow
    cases hlow
  · rw [hb, fin_le_fin] at hlow
    rw [hb, hle.antisymm hlow]

end Exact

namespace Transmission

/-- What remains, as a number. -/
def amount (t : Transmission Exact) : ℚ := t.remaining.toRat

/-- The transmission as it is after its completion. -/
def endedAt (finish : Option Exact) (t : Transmission Exact) : Transmission Exact :=
  { t with remaining := 0, finish }

def total (l : List (Transmission Exact)) : ℚ := (l.map amount).sum

theorem total_cons (t : Transmission Exact) (l : List (Transmission Exact)) :
    total (t :: l) = t.amount + total l := rfl

end Transmission

namespace Queue

open Transmission (amount endedAt number total total_cons)

variable {q : Queue Exact} {l rest : List (Transmission Exact)} {t : Transmission Exact}
  {a b c m w x : ℚ} {n : Nat}

/-- Nothing has a deadline, and nothing is left of a transmission or more than the tolerance. -/
structure Clear (l : List (Transmission Exact)) : Prop where
  deadline : ∀ t ∈ l, t.deadline = posInf
  remaining : ∀ t ∈ l, t.remaining = 0 ∨
    isFinite t.remaining = true ∧ tolerance * Quantity.max t.size 1 < t.remaining

/-- Different amounts differ by more than the tolerance of the one that has more left. -/
def Apart (l : List (Transmission Exact)) : Prop :=
  ∀ t ∈ l, ∀ u ∈ l, u.remaining < t.remaining →
    tolerance * Quantity.max t.size 1 < t.remaining - u.remaining

namespace Clear

theorem sublist (h : Clear l) {l' : List (Transmission Exact)} (hl : l'.Sublist l) : Clear l' :=
  ⟨fun t ht => h.deadline t (hl.subset ht), fun t ht => h.remaining t (hl.subset ht)⟩

variable (h : Clear l) (ht : t ∈ l)

include h ht

theorem remaining_eq : t.remaining = fin t.amount := by
  rcases h.remaining t ht with hnone | ⟨hfinite, -⟩
  · unfold amount
    rw [hnone]
    rfl
  · obtain ⟨x, hx⟩ := Exact.eq_fin_of_isFinite hfinite
    unfold amount
    rw [hx]
    rfl

theorem isDone_iff : isDone t = true ↔ t.amount = 0 := by
  have hpos := Exact.tolerance_mul_max_pos t.size
  unfold isDone amount
  rw [Bool.not_eq_true', decide_eq_false_iff_not]
  rcases h.remaining t ht with hnone | ⟨-, hmore⟩
  · rw [hnone]
    refine iff_of_true (fun hlt => ?_) rfl
    exact OrderLaws.not_lt_of_le (BandwidthLaws.le_of_lt hpos) hlt
  · refine iff_of_false (not_not_intro hmore) fun hzero => ?_
    have hlt := Exact.lt_of_le_of_lt (BandwidthLaws.le_of_lt hpos) hmore
    have heq := h.remaining_eq ht
    unfold amount at heq
    rw [hzero] at heq
    rw [heq] at hlt
    exact lt_irrefl 0 (Exact.fin_lt_fin.mp hlt)

theorem amount_nonneg : 0 ≤ t.amount := by
  by_cases hdone : isDone t = true
  · exact ((h.isDone_iff ht).mp hdone).ge
  · have hpos := fin_lt_remaining (Bool.eq_false_iff.mpr hdone)
    rw [h.remaining_eq ht, Exact.fin_lt_fin] at hpos
    exact hpos.le

theorem amount_send (m : ℚ) :
    amount { t with remaining := t.remaining - fin m } = t.amount - m := by
  show (t.remaining - fin m).toRat = t.amount - m
  rw [h.remaining_eq ht, Exact.fin_sub_fin, Exact.toRat_fin]

omit ht in
theorem total_nonneg : 0 ≤ total l := by
  refine List.sum_nonneg fun x hx => ?_
  obtain ⟨t, ht, rfl⟩ := List.mem_map.mp hx
  exact h.amount_nonneg ht

end Clear

/-- One after the other: each completes as soon as what remains
of it has been sent after the one before. -/
def inTurn (w : ℚ) : ℚ → List (Transmission Exact) → List (Transmission Exact)
  | _, [] => []
  | a, t :: rest =>
    t.endedAt (some (fin (a + t.amount / w))) :: inTurn w (a + t.amount / w) rest

/-- The data that is sent together until an amount is used up. -/
def sharedData (l : List (Transmission Exact)) (x : ℚ) : ℚ := (l.map fun u => u.amount ⊓ x).sum

theorem sharedData_cons (t : Transmission Exact) (l : List (Transmission Exact)) (x : ℚ) :
    sharedData (t :: l) x = t.amount ⊓ x + sharedData l x := rfl

/-- All together: each completes when as much has been sent of every one as remains of it. -/
def together (w a : ℚ) (l : List (Transmission Exact)) : List (Transmission Exact) :=
  l.map fun t => t.endedAt (some (fin (a + sharedData l t.amount / w)))

/-- The transmissions in flight as they will complete. -/
def forecast (w a : ℚ) : Discipline → List (Transmission Exact) → List (Transmission Exact)
  | .timeShared, l => inTurn w a l
  | .spaceShared, l => together w a l

section Round

/-- Sending takes the same from everything that is served. -/
theorem total_transmit (h : Clear l) (hn : n ≤ l.length) :
    total (transmit n (fin m) l) = total l - n * m := by
  induction l generalizing n with
  | nil =>
    obtain rfl : n = 0 := Nat.le_zero.mp hn
    rw [Nat.cast_zero, zero_mul, sub_zero]
    rfl
  | cons t rest ih =>
    have hrest := h.sublist (List.sublist_cons_self t rest)
    cases n with
    | zero =>
      rw [Nat.cast_zero, zero_mul, sub_zero]
      rfl
    | succ n =>
      have hcons : transmit (n + 1) (fin m) (t :: rest) =
          { t with remaining := t.remaining - fin m } :: transmit n (fin m) rest := rfl
      rw [hcons, total_cons, total_cons, h.amount_send List.mem_cons_self,
        ih hrest (Nat.le_of_succ_le_succ hn), Nat.cast_succ]
      ring

/-- Nothing is missing when what is done has left. -/
theorem total_retire (h : Clear l) (now : Exact) (n : Nat) :
    total (retire now n l).2 = total l := by
  induction l generalizing n with
  | nil => cases n <;> rfl
  | cons t rest ih =>
    have hrest := h.sublist (List.sublist_cons_self t rest)
    cases n with
    | zero => rfl
    | succ n =>
      unfold retire
      split
      · rename_i hdone
        dsimp only
        rw [ih hrest, total_cons, (h.isDone_iff List.mem_cons_self).mp hdone, zero_add]
      · dsimp only
        rw [total_cons, total_cons, ih hrest]

theorem le_total (h : Clear l) (hn : n ≤ l.length) (hm : ∀ t ∈ l.take n, m ≤ t.amount) :
    n * m ≤ total l := by
  -- Each of those that are served has at least that much left, and the others have no less than
  -- nothing.
  have hserved : (n : ℚ) * m ≤ ((l.take n).map amount).sum := by
    have hsum := List.card_nsmul_le_sum ((l.take n).map amount) m fun x hx => by
      obtain ⟨t, ht, rfl⟩ := List.mem_map.mp hx
      exact hm t ht
    rwa [List.length_map, List.length_take, Nat.min_eq_left hn, nsmul_eq_mul] at hsum
  refine hserved.trans (((List.take_sublist n l).map amount).sum_le_sum fun x hx => ?_)
  obtain ⟨t, ht, rfl⟩ := List.mem_map.mp hx
  exact h.amount_nonneg ht

/-- Something that is served has the least left. -/
theorem exists_least (hn : n ≤ l.length) (hn0 : n ≠ 0) :
    ∃ t ∈ l.take n, ∀ u ∈ l.take n, t.amount ≤ u.amount := by
  have hne : l.take n ≠ [] := by
    intro hnil
    have hlength := congrArg List.length hnil
    rw [List.length_take, Nat.min_eq_left hn] at hlength
    exact hn0 hlength
  have hsome : (l.take n).argmin amount ≠ none := mt List.argmin_eq_none.mp hne
  obtain ⟨t, ht⟩ := Option.ne_none_iff_exists'.mp hsome
  exact ⟨t, List.argmin_mem ht, fun u hu => List.le_of_mem_argmin hu ht⟩

variable {limit : Option Nat}

/-- If there is time enough, a step goes to the first completion among what is served. -/
theorem step_clear (h : Clear q.inFlight) (hr : 0 < x) (hrate : q.rate limit = fin x)
    (hn : served limit q.inFlight.length = n) (ht : t ∈ q.inFlight.take n)
    (hleast : ∀ u ∈ q.inFlight.take n, t.amount ≤ u.amount) (htime : a + t.amount / x < b) :
    q.step limit (fin a) (fin b) = fin (t.amount / x) := by
  have hquot : ∀ u ∈ q.inFlight.take n, u.remaining / fin x = fin (u.amount / x) := by
    intro u hu
    rw [h.remaining_eq (List.mem_of_mem_take hu), Exact.fin_div_fin hr.ne']
  have hevents : q.events limit (fin a) = (q.inFlight.take n).map (fun u => u.remaining / fin x) ++
      q.inFlight.map fun u => u.deadline - fin a := by
    unfold events
    rw [hrate, if_pos (Exact.fin_pos.mpr hr), hn]
  have hmem : fin (t.amount / x) ∈ q.events limit (fin a) := by
    rw [hevents]
    exact List.mem_append_left _ (List.mem_map.mpr ⟨t, ht, hquot t ht⟩)
  have hfirst : ∀ y ∈ q.events limit (fin a), fin (t.amount / x) ≤ y := by
    intro y hy
    rw [hevents] at hy
    rcases List.mem_append.mp hy with hy | hy
    · obtain ⟨u, hu, rfl⟩ := List.mem_map.mp hy
      rw [hquot u hu, Exact.fin_le_fin]
      exact div_le_div_of_nonneg_right (hleast u hu) hr.le
    · -- There are no deadlines, so that none of them is ahead of the completion.
      obtain ⟨u, hu, rfl⟩ := List.mem_map.mp hy
      rw [h.deadline u hu]
      rfl
  have hspan : fin (t.amount / x) ≤ fin b - fin a := by
    rw [Exact.fin_sub_fin, Exact.fin_le_fin]
    linarith
  have hpos := div_nonneg (h.amount_nonneg (List.mem_of_mem_take ht)) hr.le
  rw [step_eq, Exact.foldl_min_eq hmem hfirst hspan, Exact.max_fin_zero, sup_eq_left.mpr hpos]

/-- So does a round, which takes the same from everything that is served. -/
theorem round_clear (hw : 0 < w) (hb : q.bandwidth = fin w) (h : Clear q.inFlight)
    (hn : served limit q.inFlight.length = n) (hn0 : n ≠ 0)
    (htime : a + total q.inFlight / w + 1 / 10 ^ 9 < b) :
    ∃ t ∈ q.inFlight.take n, (∀ u ∈ q.inFlight.take n, t.amount ≤ u.amount) ∧
      q.round limit (fin a) (fin b) =
        ({ q with
            inFlight := (retire (fin (a + n * t.amount / w)) n
              (transmit n (fin t.amount) q.inFlight)).2
            completed := q.completed ++ (retire (fin (a + n * t.amount / w)) n
              (transmit n (fin t.amount) q.inFlight)).1 },
          fin (a + n * t.amount / w)) := by
  have hn' : (0 : ℚ) < n := Nat.cast_pos.mpr (Nat.pos_of_ne_zero hn0)
  have hle : n ≤ q.inFlight.length := hn ▸ served_le limit q.inFlight.length
  obtain ⟨t, ht, hleast⟩ := exists_least hle hn0
  refine ⟨t, ht, hleast, ?_⟩
  have hrate : q.rate limit = fin (w / n) := by
    unfold rate
    rw [hn, hb, Exact.ofNat_div_fin hn0]
  have hr : 0 < w / n := div_pos hw hn'
  -- At an equal part of the bandwidth the least takes as long as all of them up to it at the whole.
  have hlast : t.amount / (w / n) = n * t.amount / w := by
    field_simp
  have hearly : n * t.amount / w ≤ total q.inFlight / w :=
    div_le_div_of_nonneg_right (le_total h hle hleast) hw.le
  have hpos : (0 : ℚ) < 1 / 10 ^ 9 := by norm_num
  have htime' : a + t.amount / (w / n) < b := by
    rw [hlast]
    linarith
  have hstep := step_clear h hr hrate hn ht hleast htime'
  rw [hlast] at hstep
  -- The end of the interval is further than the tolerance away, so that it does not draw the step
  -- to it.
  have hend : stepEnd (fin a) (fin b) (fin (n * t.amount / w)) = fin (a + n * t.amount / w) := by
    unfold stepEnd
    rw [Exact.fin_add_fin, Exact.fin_sub_fin, Exact.tolerance_eq, if_neg]
    rw [Exact.fin_le_fin]
    linarith
  have hamount : w / n * (n * t.amount / w) = t.amount := by
    field_simp
  unfold round
  dsimp only
  rw [hstep, hend, hrate, hn, Exact.fin_mul_fin, hamount]

end Round

section Forecast

/-- To retire the first ones that are done does not change what is in turn. -/
theorem inTurn_retire (h : Clear l) (w c : ℚ) :
    (retire (fin c) 1 l).1 ++ inTurn w c (retire (fin c) 1 l).2 = inTurn w c l := by
  induction l with
  | nil => rfl
  | cons t rest ih =>
    unfold retire
    split
    · rename_i hdone
      have hzero := (h.isDone_iff List.mem_cons_self).mp hdone
      have hrest := ih (h.sublist (List.sublist_cons_self t rest))
      dsimp only
      rw [inTurn, hzero, zero_div, add_zero, ← hrest]
      rfl
    · have hnone : retire (fin c) 0 rest = ([], rest) := by cases rest <;> rfl
      rw [hnone]
      rfl

/-- Nor does it to send what remains of the first one. -/
theorem inTurn_transmit (h : Clear (t :: rest)) (w a : ℚ) :
    inTurn w (a + t.amount / w) (transmit 1 (fin t.amount) (t :: rest)) =
      inTurn w a (t :: rest) := by
  have hnone : t.remaining - fin t.amount = fin 0 := by
    rw [h.remaining_eq List.mem_cons_self, Exact.fin_sub_fin, sub_self]
  have hsent : transmit 1 (fin t.amount) (t :: rest) = { t with remaining := fin 0 } :: rest := by
    rw [← hnone]
    rfl
  have hzero : amount { t with remaining := fin 0 } = 0 := rfl
  rw [hsent, inTurn, hzero, zero_div, add_zero]
  rfl

/-- If all are looked at, those that are done are separated from the others. -/
theorem retire_all (now : Exact) (hn : l.length ≤ n) : retire now n l =
    ((l.filter isDone).map (endedAt (some now)), l.filter fun t => !isDone t) := by
  induction l generalizing n with
  | nil => cases n <;> rfl
  | cons t rest ih =>
    obtain ⟨n, rfl⟩ : ∃ k, n = k + 1 := ⟨n - 1, by rw [List.length_cons] at hn; omega⟩
    rw [List.length_cons] at hn
    unfold retire
    rw [List.filter_cons, List.filter_cons]
    split
    · rename_i hdone
      rw [ih (by omega), hdone]
      rfl
    · rename_i hleft
      rw [ih (by omega), Bool.eq_false_iff.mpr hleft]
      rfl

/-- What is done has no part in what is sent of the others. -/
theorem sharedData_filter (h : Clear l) (hx : 0 ≤ x) :
    sharedData (l.filter fun t => !isDone t) x = sharedData l x := by
  induction l with
  | nil => rfl
  | cons t rest ih =>
    have hrest := ih (h.sublist (List.sublist_cons_self t rest))
    by_cases hdone : isDone t = true
    · have hzero := (h.isDone_iff List.mem_cons_self).mp hdone
      rw [List.filter_cons_of_neg (by rw [hdone]; decide), hrest, sharedData_cons, hzero,
        inf_eq_left.mpr hx, zero_add]
    · rw [List.filter_cons_of_pos (by rw [Bool.eq_false_iff.mpr hdone]; rfl), sharedData_cons,
        sharedData_cons, hrest]

theorem sharedData_zero (h : Clear l) : sharedData l 0 = 0 := by
  refine List.sum_eq_zero fun y hy => ?_
  obtain ⟨t, ht, rfl⟩ := List.mem_map.mp hy
  exact inf_eq_right.mpr (h.amount_nonneg ht)

theorem together_retire (h : Clear l) (w c : ℚ) (hn : l.length ≤ n) :
    ((retire (fin c) n l).1 ++ together w c (retire (fin c) n l).2).Perm (together w c l) := by
  rw [retire_all _ hn]
  have hdone : (l.filter isDone).map (endedAt (some (fin c))) = (l.filter isDone).map
      fun t => t.endedAt (some (fin (c + sharedData l t.amount / w))) := by
    apply List.map_congr_left
    intro t ht
    obtain ⟨hmem, hdone⟩ := List.mem_filter.mp ht
    rw [(h.isDone_iff hmem).mp hdone, sharedData_zero h, zero_div, add_zero]
  have hleft : together w c (l.filter fun t => !isDone t) = (l.filter fun t => !isDone t).map
      fun t => t.endedAt (some (fin (c + sharedData l t.amount / w))) := by
    apply List.map_congr_left
    intro t ht
    rw [sharedData_filter h (h.amount_nonneg (List.mem_filter.mp ht).1)]
  rw [hdone, hleft, ← List.map_append]
  exact (List.filter_append_perm isDone l).map _

/-- If the same is taken from all, it is taken from what is sent together,
as often as there are transmissions. -/
theorem sharedData_send (h : Clear l) (m x : ℚ) :
    sharedData (l.map fun t => { t with remaining := t.remaining - fin m }) (x - m) =
      sharedData l x - l.length * m := by
  induction l with
  | nil =>
    rw [List.length_nil, Nat.cast_zero, zero_mul, sub_zero]
    rfl
  | cons t rest ih =>
    have hrest := ih (h.sublist (List.sublist_cons_self t rest))
    rw [List.map_cons, sharedData_cons, sharedData_cons, hrest, h.amount_send List.mem_cons_self,
      ← inf_sub, List.length_cons, Nat.cast_succ]
    ring

theorem together_send (h : Clear l) (w a m : ℚ) :
    together w (a + l.length * m / w) (l.map fun t => { t with remaining := t.remaining - fin m }) =
      together w a l := by
  unfold together
  rw [List.map_map]
  apply List.map_congr_left
  intro t ht
  have htime : a + l.length * m / w + (sharedData l t.amount - l.length * m) / w =
      a + sharedData l t.amount / w := by ring
  show endedAt
    (some (fin (_ + sharedData _ (amount { t with remaining := t.remaining - fin m }) / w)))
    { t with remaining := t.remaining - fin m } = _
  rw [h.amount_send ht, sharedData_send h, htime]
  rfl

end Forecast

section Rounds

/-- When the first one has been sent, what remains is still clear. -/
theorem clear_transmit (h : Clear (t :: rest)) : Clear (transmit 1 (fin t.amount) (t :: rest)) := by
  have hcons : transmit 1 (fin t.amount) (t :: rest) =
      { t with remaining := t.remaining - fin t.amount } :: rest := rfl
  have hrest := h.sublist (List.sublist_cons_self t rest)
  rw [hcons]
  refine ⟨List.forall_mem_cons.mpr ⟨?_, hrest.deadline⟩,
    List.forall_mem_cons.mpr ⟨Or.inl ?_, hrest.remaining⟩⟩
  · exact h.deadline t List.mem_cons_self
  · show t.remaining - fin t.amount = 0
    rw [h.remaining_eq List.mem_cons_self, Exact.fin_sub_fin, sub_self]
    rfl

section Together

variable (h : Clear l) (ha : Apart l)

include h ha

/-- When as much has been sent of all as remains of one with the least left, it is done, and the
others have more left than the tolerance. -/
theorem clear_send (ht : t ∈ l) (hleast : ∀ u ∈ l, t.amount ≤ u.amount) :
    Clear (l.map fun u => { u with remaining := u.remaining - fin t.amount }) := by
  refine ⟨List.forall_mem_map.mpr h.deadline, List.forall_mem_map.mpr fun u hu => ?_⟩
  show u.remaining - fin t.amount = 0 ∨ isFinite (u.remaining - fin t.amount) = true ∧
    tolerance * Quantity.max u.size 1 < u.remaining - fin t.amount
  rcases (hleast u hu).eq_or_lt with heq | hlt
  · left
    rw [h.remaining_eq hu, heq, Exact.fin_sub_fin, sub_self]
    rfl
  · right
    have hless : t.remaining < u.remaining := by
      rw [h.remaining_eq ht, h.remaining_eq hu, Exact.fin_lt_fin]
      exact hlt
    have hmore := ha u hu t ht hless
    rw [h.remaining_eq ht] at hmore
    refine ⟨?_, hmore⟩
    rw [h.remaining_eq hu, Exact.fin_sub_fin]
    rfl

/-- What is taken from all makes no difference to how far they are apart. -/
theorem apart_send (m : ℚ) :
    Apart (l.map fun u => { u with remaining := u.remaining - fin m }) := by
  refine List.forall_mem_map.mpr fun t ht => List.forall_mem_map.mpr fun u hu => ?_
  show u.remaining - fin m < t.remaining - fin m →
    tolerance * Quantity.max t.size 1 < t.remaining - fin m - (u.remaining - fin m)
  have hmore := ha t ht u hu
  rw [h.remaining_eq ht, h.remaining_eq hu] at hmore ⊢
  rw [Exact.fin_lt_fin, Exact.fin_sub_fin] at hmore
  rw [Exact.fin_sub_fin, Exact.fin_sub_fin, Exact.fin_sub_fin, Exact.fin_lt_fin,
    sub_sub_sub_cancel_right]
  intro hlt
  exact hmore (by linarith)

end Together

/-- What a forecast needs to come true by a time. -/
structure Foreseen (d : Discipline) (w a b : ℚ) (l : List (Transmission Exact)) : Prop where
  clear : Clear l
  /-- One after the other it does not matter how far they are apart. -/
  apart : d = .spaceShared → Apart l
  time : a + total l / w + 1 / 10 ^ 9 < b

theorem Foreseen.retire {d : Discipline} (h : Foreseen d w a b l) (now : Exact) (n : Nat) :
    Foreseen d w a b (retire now n l).2 where
  clear := h.clear.sublist (retire_sublist now n l)
  apart hd t ht u hu := h.apart hd t (mem_of_mem_retire ht) u (mem_of_mem_retire hu)
  time := by
    rw [total_retire h.clear]
    exact h.time

/-- Sending takes time, but there is less to be sent then. -/
theorem time_transmit (h : Clear l) (hn : n ≤ l.length) (htime : a + total l / w + 1 / 10 ^ 9 < b) :
    a + n * m / w + total (transmit n (fin m) l) / w + 1 / 10 ^ 9 < b := by
  calc a + n * m / w + total (transmit n (fin m) l) / w + 1 / 10 ^ 9
      = a + n * m / w + (total l - n * m) / w + 1 / 10 ^ 9 := by rw [total_transmit h hn]
    _ = a + total l / w + 1 / 10 ^ 9 := by ring
    _ < b := htime

/-- A round that is foreseen completes what the forecast says,
and leaves the rest of it to be foreseen. -/
theorem forecast_round (hw : 0 < w) (hb : q.bandwidth = fin w) (hne : q.inFlight ≠ [])
    (h : Foreseen q.discipline w a b q.inFlight) :
    ∃ c done, (q.round q.discipline.limit (fin a) (fin b)).2 = fin c ∧
      (q.round q.discipline.limit (fin a) (fin b)).1.completed = q.completed ++ done ∧
      Foreseen q.discipline w c b (q.round q.discipline.limit (fin a) (fin b)).1.inFlight ∧
      (done ++ forecast w c q.discipline
        (q.round q.discipline.limit (fin a) (fin b)).1.inFlight).Perm
          (forecast w a q.discipline q.inFlight) := by
  have hlength : q.inFlight.length ≠ 0 := mt List.length_eq_zero_iff.mp hne
  obtain ⟨t, ht, hleast, hround⟩ := round_clear hw hb h.clear rfl
    (served_ne_zero q.discipline _ hlength) h.time
  rw [hround]
  refine ⟨_, _, rfl, rfl, ?_⟩
  have hserved := served_le q.discipline.limit q.inFlight.length
  have htime := time_transmit (m := t.amount) h.clear hserved h.time
  -- What is served is the first one or everything.
  cases hd : q.discipline with
  | timeShared =>
    obtain ⟨u, rest, hl⟩ := List.exists_cons_of_ne_nil hne
    have hone : served Discipline.timeShared.limit q.inFlight.length = 1 :=
      Nat.min_eq_right (Nat.one_le_iff_ne_zero.mpr hlength)
    rw [hd, hone] at ht htime
    rw [hl] at ht htime
    obtain rfl := List.mem_singleton.mp ht
    have hclear := h.clear
    rw [hone, hl]
    rw [hl] at hclear
    rw [Nat.cast_one, one_mul] at htime ⊢
    have hsent :
        Foreseen .timeShared w (a + t.amount / w) b (transmit 1 (fin t.amount) (t :: rest)) :=
      ⟨clear_transmit hclear, fun hd => (by cases hd), htime⟩
    refine ⟨hsent.retire _ _, List.Perm.of_eq ?_⟩
    exact (inTurn_retire hsent.clear w _).trans (inTurn_transmit hclear w a)
  | spaceShared =>
    have hall : served Discipline.spaceShared.limit q.inFlight.length = q.inFlight.length := rfl
    rw [hd, hall] at ht htime hleast
    rw [List.take_length] at ht hleast
    have hapart := h.apart hd
    have hsend : transmit q.inFlight.length (fin t.amount) q.inFlight =
        q.inFlight.map fun u => { u with remaining := u.remaining - fin t.amount } := by
      unfold transmit
      rw [List.take_length, List.drop_length, List.append_nil]
    rw [hall, hsend]
    rw [hsend] at htime
    have hsent : Foreseen .spaceShared w (a + q.inFlight.length * t.amount / w) b
        (q.inFlight.map fun u => { u with remaining := u.remaining - fin t.amount }) :=
      ⟨clear_send h.clear hapart ht hleast, fun _ => apart_send h.clear hapart _, htime⟩
    refine ⟨hsent.retire _ _, ?_⟩
    have hretire := together_retire hsent.clear w (a + q.inFlight.length * t.amount / w)
      (n := q.inFlight.length) (by rw [List.length_map])
    rw [together_send h.clear] at hretire
    exact hretire

theorem Foreseen.lt {d : Discipline} (h : Foreseen d w a b l) (hw : 0 < w) : a < b := by
  have hspan : 0 ≤ total l / w := div_nonneg h.clear.total_nonneg hw.le
  have htime := h.time
  have hpos : (0 : ℚ) < 1 / 10 ^ 9 := by norm_num
  linarith

/-- Where nothing has a deadline, nothing fails. -/
theorem expire_clear (h : Clear q.inFlight) (c : ℚ) : q.expire (fin c) = q := by
  apply expire_of_not_isDue
  intro t ht
  unfold isDue
  rw [h.deadline t ht, Exact.tolerance_eq]
  rfl

/-- Since the beginning of an advance everything has gone
as the forecast says, and so will the rest. -/
structure OnCourse (q : Queue Exact) (w a b : ℚ) (q' : Queue Exact) (c : ℚ) : Prop where
  discipline : q'.discipline = q.discipline
  bandwidth : q'.bandwidth = fin w
  failed : q'.failed = q.failed
  foreseen : Foreseen q.discipline w c b q'.inFlight
  completed : ∃ done, q'.completed = q.completed ++ done ∧
    (done ++ forecast w c q.discipline q'.inFlight).Perm (forecast w a q.discipline q.inFlight)

theorem OnCourse.round {q' : Queue Exact} {c' : ℚ} (h : OnCourse q w a b q' c) (hw : 0 < w)
    (hne : q'.inFlight ≠ []) (hc : (q'.round q.discipline.limit (fin c) (fin b)).2 = fin c') :
    OnCourse q w a b (q'.round q.discipline.limit (fin c) (fin b)).1 c' := by
  obtain ⟨done, hdone, hperm⟩ := h.completed
  have hforeseen := h.foreseen
  rw [← h.discipline] at hc hforeseen hperm ⊢
  obtain ⟨c'', more, hc'', hmore, hnext, hrest⟩ := forecast_round hw h.bandwidth hne hforeseen
  obtain rfl := Exact.fin.inj (hc.symm.trans hc'')
  rw [h.discipline] at hmore hnext hrest hperm ⊢
  refine ⟨h.discipline, h.bandwidth, h.failed, hnext, done ++ more, ?_, ?_⟩
  · rw [hmore, hdone, List.append_assoc]
  · rw [List.append_assoc]
    exact (hrest.append_left done).trans hperm

/-- What is foreseen comes true in one advance. -/
theorem forecast_advance (hw : 0 < w) (hb : q.bandwidth = fin w) (hlast : q.lastUpdate = fin a)
    (h : Foreseen q.discipline w a b q.inFlight) :
    (q.advance (fin b)).inFlight = [] ∧ (q.advance (fin b)).failed = q.failed ∧
      ∃ done, (q.advance (fin b)).completed = q.completed ++ done ∧
        done.Perm (forecast w a q.discipline q.inFlight) := by
  have hstart : OnCourse q w a b q a :=
    ⟨rfl, hb, rfl, h, [], (List.append_nil _).symm, List.Perm.refl _⟩
  have hround (q' : Queue Exact) (a' c : ℚ) (h : OnCourse q w a b q' a') (_ : a' < b) (_ : a' ≤ c)
      (_ : c ≤ b) (hne : (q'.expire (fin a')).inFlight ≠ [])
      (hc : ((q'.expire (fin a')).round q.discipline.limit (fin a') (fin b)).2 = fin c) :
      OnCourse q w a b ((q'.expire (fin a')).round q.discipline.limit (fin a') (fin b)).1 c := by
    rw [expire_clear h.foreseen.clear] at hne hc ⊢
    exact h.round hw hne hc
  obtain ⟨q', c, hend, hover, hadvance⟩ :=
    advance_reaches (by rw [hb]; rfl) hlast (h.lt hw).le hstart hround
  obtain ⟨done, hdone, hperm⟩ := hend.completed
  rw [expire_clear hend.foreseen.clear] at hover hadvance
  -- There is still time at the end of the last round, so that nothing is left.
  have hnone := hover.resolve_left (hend.foreseen.lt hw).ne
  have hnil : forecast w c q.discipline [] = [] := by cases q.discipline <;> rfl
  rw [hadvance]
  refine ⟨hnone, hend.failed, done, hdone, ?_⟩
  rwa [hnone, hnil, List.append_nil] at hperm

end Rounds

section Estimates

theorem estimates_inTurn (h : Clear l) (hw : 0 < w) (hnodup : (l.map number).Nodup) (a x : ℚ) :
    l.map (fun t => t.endedAt ((dataThrough t.number (fin x) l).map fun ahead =>
      fin a + ahead / fin w)) = inTurn w (a + x / w) l := by
  induction l generalizing x with
  | nil => rfl
  | cons t rest ih =>
    obtain ⟨hnew, hrest⟩ := List.nodup_cons.mp hnodup
    have hnext : a + x / w + t.amount / w = a + (x + t.amount) / w := by ring
    have hahead : fin x + t.remaining = fin (x + t.amount) := by
      rw [h.remaining_eq List.mem_cons_self, Exact.fin_add_fin]
    rw [List.map_cons, inTurn, hnext, ← ih (h.sublist (List.sublist_cons_self t rest)) hrest]
    congr 1
    · have hfirst : dataThrough t.number (fin x) (t :: rest) = some (fin (x + t.amount)) := by
        unfold dataThrough
        rw [← hahead]
        exact if_pos rfl
      rw [hfirst, Option.map_some, Exact.fin_div_fin hw.ne', Exact.fin_add_fin]
    · apply List.map_congr_left
      intro u hu
      have hother : t.number ≠ u.number := fun heq => hnew (heq ▸ List.mem_map_of_mem hu)
      have hlater : dataThrough u.number (fin x) (t :: rest) =
          dataThrough u.number (fin (x + t.amount)) rest := by
        conv => lhs; unfold dataThrough
        rw [← hahead]
        exact if_neg hother
      rw [hlater]

theorem sum_inf_of_le {l : List ℚ} (hl : ∀ y ∈ l, x ≤ y) : (l.map (· ⊓ x)).sum = l.length * x := by
  have hconst : l.map (· ⊓ x) = List.replicate l.length x := by
    rw [← List.map_const']
    exact List.map_congr_left fun y hy => inf_eq_right.mpr (hl y hy)
  rw [hconst, List.sum_replicate, nsmul_eq_mul]

/-- Up to an amount as much has been sent of each other one, or all that there was of it. -/
theorem sharedTime_eq {l : List ℚ} (hl : l.Pairwise (· ≤ ·)) (hx : x ∈ l) (hw : w ≠ 0) (e p : ℚ) :
    sharedTime (fin w) (fin x) (fin e) (fin p) (l.map fin) =
      fin (e + ((l.map (· ⊓ x)).sum - l.length * p) / w) := by
  induction l generalizing e p with
  | nil => cases hx
  | cons r rest ih =>
    obtain ⟨hfirst, hrest⟩ := List.pairwise_cons.mp hl
    have helapsed : fin e + (fin r - fin p) * Quantity.ofNat ((rest.map fin).length + 1) / fin w =
        fin (e + (r - p) * (rest.length + 1 : ℕ) / w) := by
      rw [List.length_map, Exact.fin_sub_fin, Exact.ofNat_fin, Exact.fin_mul_fin,
        Exact.fin_div_fin hw, Exact.fin_add_fin]
    rw [List.map_cons]
    unfold sharedTime
    dsimp only
    rw [helapsed, List.length_cons]
    split
    · -- The amounts ascend, so that the one looked for is the first that is no less.
      rename_i hle
      rw [Exact.fin_le_fin] at hle
      have hall : ∀ y ∈ r :: rest, x ≤ y := by
        intro y hy
        rcases List.mem_cons.mp hy with rfl | hy
        · exact hle
        · exact hle.trans (hfirst y hy)
      have heq : x = r := by
        rcases List.mem_cons.mp hx with heq | hmem
        · exact heq
        · exact hle.antisymm (hfirst x hmem)
      rw [sum_inf_of_le hall, heq, List.length_cons]
      congr 1
      ring
    · rename_i hlt
      rw [Exact.fin_le_fin, not_le] at hlt
      have hmem : x ∈ rest := (List.mem_cons.mp hx).resolve_left hlt.ne'
      rw [ih hrest hmem, List.map_cons, List.sum_cons, inf_eq_left.mpr hlt.le, Nat.cast_succ]
      congr 1
      ring

theorem find?_number (hnodup : (l.map number).Nodup) (ht : t ∈ l) :
    (l.find? fun u => u.packet.header.id == t.number) = some t := by
  induction l with
  | nil => cases ht
  | cons u rest ih =>
    obtain ⟨hnew, hrest⟩ := List.nodup_cons.mp hnodup
    rcases List.mem_cons.mp ht with rfl | hmem
    · exact List.find?_cons_of_pos (beq_self_eq_true t.number)
    · have hother : u.number ≠ t.number := fun heq => hnew (heq ▸ List.mem_map_of_mem hmem)
      have hskip : (u.packet.header.id == t.number) = false := beq_eq_false_iff_ne.mpr hother
      rw [List.find?_cons, hskip]
      exact ih hrest hmem

/-- The amounts in ascending order, as numbers. -/
theorem sort_amounts (h : Clear l) : (l.map Transmission.remaining).mergeSort Quantity.sortsBefore =
    ((l.map amount).mergeSort fun x y => decide (x ≤ y)).map fin := by
  have hamounts : l.map Transmission.remaining = (l.map amount).map fin := by
    rw [List.map_map]
    exact List.map_congr_left fun t ht => h.remaining_eq ht
  rw [hamounts, List.map_mergeSort]
  intro x _ y _
  have hself : decide (fin y ≤ fin y) = true := decide_eq_true (Exact.fin_le_fin.mpr le_rfl)
  unfold Quantity.sortsBefore
  rw [hself, Bool.not_true, Bool.or_false]
  exact decide_eq_decide.mpr Exact.fin_le_fin.symm

theorem estimates_together (h : Clear l) (hw : 0 < w) (ht : t ∈ l) :
    sharedTime (fin w) t.remaining 0 0
      ((l.map Transmission.remaining).mergeSort Quantity.sortsBefore) =
      fin (sharedData l t.amount / w) := by
  have hperm := List.mergeSort_perm (l.map amount) fun x y => decide (x ≤ y)
  have hsorted := List.pairwise_mergeSort' (· ≤ ·) (l.map amount)
  have hmem : t.amount ∈ (l.map amount).mergeSort fun x y => decide (x ≤ y) :=
    hperm.mem_iff.mpr (List.mem_map_of_mem ht)
  have htime := sharedTime_eq hsorted hmem hw.ne' 0 0
  rw [mul_zero, sub_zero, zero_add, (hperm.map (· ⊓ t.amount)).sum_eq, List.map_map] at htime
  rw [sort_amounts h, h.remaining_eq ht]
  exact htime

/-- The queue predicts what the forecast says. -/
theorem estimates_eq_forecast (hw : 0 < w) (hb : q.bandwidth = fin w) (hlast : q.lastUpdate = fin a)
    (h : Clear q.inFlight) (hnodup : (q.inFlight.map number).Nodup) :
    q.inFlight.map (fun t => t.endedAt (q.estimateFinish t.number)) =
      forecast w a q.discipline q.inFlight := by
  have hpos : (0 : Exact) < fin w := Exact.fin_pos.mpr hw
  have hnonpos : ¬ fin w ≤ (0 : Exact) := fun hle => OrderLaws.not_lt_of_le hle hpos
  cases hd : q.discipline with
  | timeShared =>
    have hturn := estimates_inTurn h hw hnodup a 0
    rw [zero_div, add_zero] at hturn
    refine Eq.trans (List.map_congr_left fun t _ => ?_) hturn
    unfold estimateFinish
    rw [hd, hb, hlast]
    dsimp only
    simp only [if_pos hpos]
    rfl
  | spaceShared =>
    apply List.map_congr_left
    intro t ht
    unfold estimateFinish
    rw [hd, hb, hlast]
    dsimp only
    rw [find?_number hnodup ht, Option.map_some, if_neg hnonpos, estimates_together h hw ht,
      Exact.fin_add_fin]

theorem inTurn_after (h : Clear l) (hw : 0 < w) : ∀ t ∈ inTurn w a l, ∃ f : ℚ,
    t.finish = some (fin f) ∧ a ≤ f := by
  induction l generalizing a with
  | nil => exact fun t ht => by cases ht
  | cons u rest ih =>
    have hspan : 0 ≤ u.amount / w := div_nonneg (h.amount_nonneg List.mem_cons_self) hw.le
    have hnext : a ≤ a + u.amount / w := le_add_of_nonneg_right hspan
    intro t ht
    rcases List.mem_cons.mp ht with rfl | ht
    · exact ⟨_, rfl, hnext⟩
    · obtain ⟨f, hf, hle⟩ := ih (h.sublist (List.sublist_cons_self u rest)) t ht
      exact ⟨f, hf, hnext.trans hle⟩

/-- The next completion is the first one of the forecast. -/
theorem nextFinish_eq (hw : 0 < w) (hb : q.bandwidth = fin w) (hlast : q.lastUpdate = fin a)
    (h : Clear q.inFlight) (hne : q.inFlight ≠ []) :
    ∃ next : ℚ, q.nextFinish = fin next ∧
      (∃ t ∈ forecast w a q.discipline q.inFlight, t.finish = some (fin next)) ∧
      ∀ t ∈ forecast w a q.discipline q.inFlight, ∃ f : ℚ, t.finish = some (fin f) ∧ next ≤ f := by
  have hpos : (0 : Exact) < fin w := Exact.fin_pos.mpr hw
  cases hd : q.discipline with
  | timeShared =>
    obtain ⟨u, rest, hl⟩ := List.exists_cons_of_ne_nil hne
    rw [hl] at h ⊢
    refine ⟨a + u.amount / w, ?_, ⟨_, List.mem_cons_self, rfl⟩, fun t ht => ?_⟩
    · unfold nextFinish
      rw [hd, hl, hb, hlast]
      dsimp only
      rw [if_pos hpos, h.remaining_eq List.mem_cons_self, Exact.fin_div_fin hw.ne',
        Exact.fin_add_fin]
    · rcases List.mem_cons.mp ht with rfl | ht
      · exact ⟨_, rfl, le_rfl⟩
      · exact inTurn_after (h.sublist (List.sublist_cons_self u rest)) hw t ht
  | spaceShared =>
    obtain ⟨t, ht, hleast⟩ :=
      exists_least (le_refl q.inFlight.length) (mt List.length_eq_zero_iff.mp hne)
    rw [List.take_length] at ht hleast
    -- By then as much has been sent of each transmission as the smallest one has left.
    have hshared : sharedData q.inFlight t.amount = q.inFlight.length * t.amount := by
      have hsum := sum_inf_of_le (l := q.inFlight.map amount) (List.forall_mem_map.mpr hleast)
      rw [List.map_map, List.length_map] at hsum
      exact hsum
    refine ⟨a + sharedData q.inFlight t.amount / w, ?_,
      ⟨_, List.mem_map_of_mem ht, rfl⟩, fun u hu => ?_⟩
    · have hmin : Quantity.minimum (q.inFlight.map Transmission.remaining) = fin t.amount := by
        refine Exact.foldl_min_eq ?_ (List.forall_mem_map.mpr fun u hu => ?_) rfl
        · rw [← h.remaining_eq ht]
          exact List.mem_map_of_mem ht
        · rw [h.remaining_eq hu, Exact.fin_le_fin]
          exact hleast u hu
      have hgo : ¬ (q.inFlight.isEmpty || decide (fin w ≤ (0 : Exact))) = true := by
        rw [Bool.or_eq_true, not_or, List.isEmpty_iff, decide_eq_true_eq]
        exact ⟨hne, fun hle => OrderLaws.not_lt_of_le hle hpos⟩
      unfold nextFinish
      rw [hd, hb, hlast]
      dsimp only
      rw [if_neg hgo, hmin, hshared, Exact.ofNat_fin, Exact.fin_mul_fin, Exact.fin_div_fin hw.ne',
        Exact.fin_add_fin, mul_comm t.amount]
    · obtain ⟨v, hv, rfl⟩ := List.mem_map.mp hu
      refine ⟨_, rfl, ?_⟩
      have hmore : sharedData q.inFlight t.amount ≤ sharedData q.inFlight v.amount :=
        List.sum_le_sum fun y _ => inf_le_inf_left _ (hleast v hv)
      have hspan := div_le_div_of_nonneg_right hmore hw.le
      linarith

end Estimates

/-- A queue with a rate, whose packets have different
numbers and whose amounts can be told apart. -/
structure Predictable (q : Queue Exact) : Prop where
  bandwidth : isFinite q.bandwidth = true
  positive : 0 < q.bandwidth
  clock : isFinite q.lastUpdate = true
  clear : Clear q.inFlight
  /-- One after the other it does not matter how far the amounts are apart. -/
  apart : q.discipline = .spaceShared → Apart q.inFlight
  numbers : (q.inFlight.map number).Nodup

/-- Predictions agree with execution. An advance that is long enough to send everything completes
each packet at the time that was estimated for it before, all in one go, and the next completion
that was predicted is the first of these times. -/
theorem estimates_come_true {q : Queue Exact} (hq : q.Predictable) (hne : q.inFlight ≠ []) {T : ℚ}
    (hT : q.lastUpdate +
      Quantity.sum (q.inFlight.map Transmission.remaining) / q.bandwidth + tolerance < fin T) :
    ((q.advance (fin T)).inFlight = [] ∧ (q.advance (fin T)).failed = q.failed ∧
      ∃ done, (q.advance (fin T)).completed = q.completed ++ done ∧
        done.Perm (q.inFlight.map fun t => t.endedAt (q.estimateFinish t.number))) ∧
    (∀ t ∈ q.inFlight, ∃ f : ℚ, q.estimateFinish t.number = some (fin f) ∧ q.nextFinish ≤ fin f) ∧
    ∃ t ∈ q.inFlight, q.estimateFinish t.number = some q.nextFinish := by
  obtain ⟨w, hb⟩ := Exact.eq_fin_of_isFinite hq.bandwidth
  obtain ⟨a, hlast⟩ := Exact.eq_fin_of_isFinite hq.clock
  have hw : 0 < w := by
    have hpos := hq.positive
    rwa [hb, Exact.fin_pos] at hpos
  have hforecast := estimates_eq_forecast hw hb hlast hq.clear hq.numbers
  obtain ⟨next, hnext, ⟨s, hs, hsnext⟩, hfirst⟩ := nextFinish_eq hw hb hlast hq.clear hne
  have hsum : Quantity.sum (q.inFlight.map Transmission.remaining) = fin (total q.inFlight) :=
    Exact.sum_map_fin _ _ fun t ht => hq.clear.remaining_eq ht
  rw [hsum, hb, hlast, Exact.fin_div_fin hw.ne', Exact.tolerance_eq, Exact.fin_add_fin,
    Exact.fin_add_fin, Exact.fin_lt_fin] at hT
  have hdone := forecast_advance hw hb hlast ⟨hq.clear, hq.apart, hT⟩
  rw [← hforecast] at hdone hs hfirst
  rw [hnext]
  refine ⟨hdone, fun t ht => ?_, ?_⟩
  · obtain ⟨f, hf, hle⟩ := hfirst _ (List.mem_map_of_mem ht)
    exact ⟨f, hf, Exact.fin_le_fin.mpr hle⟩
  · obtain ⟨t, ht, rfl⟩ := List.mem_map.mp hs
    exact ⟨t, ht, hsnext⟩

/-- Of three transmissions that share ten units a second one has nothing left, one is done after ten
seconds and the last one after fifteen. -/
theorem three_estimates_come_true :
    let t : Transmission Exact := .ofPacket ⟨⟨0, 1, 2, 7⟩, [], 100, none, 1⟩ 0
    let q : Queue Exact :=
      { Queue.empty .spaceShared none with
        bandwidth := 10
        inFlight := [t, .ofPacket ⟨⟨1, 1, 2, 7⟩, [], 50, none, 1⟩ 0,
          .ofPacket ⟨⟨2, 1, 2, 7⟩, [], 0, none, 1⟩ 0] }
    q.Predictable ∧ q.inFlight ≠ [] ∧
      q.lastUpdate +
        Quantity.sum (q.inFlight.map Transmission.remaining) / q.bandwidth + tolerance < fin 20 ∧
      (q.advance (fin 20)).completed.map Transmission.finish = [some 0, some 10, some 15] ∧
      ((q.advance (fin 20)).inFlight = [] ∧ (q.advance (fin 20)).failed = q.failed ∧
        ∃ done, (q.advance (fin 20)).completed = q.completed ++ done ∧
          done.Perm (q.inFlight.map fun t => t.endedAt (q.estimateFinish t.number))) ∧
      (∀ t ∈ q.inFlight, ∃ f : ℚ, q.estimateFinish t.number = some (fin f) ∧ q.nextFinish ≤ fin f) ∧
      ∃ t ∈ q.inFlight, q.estimateFinish t.number = some q.nextFinish := by
  intro t q
  have hclear : Clear q.inFlight := ⟨by decide +kernel, by decide +kernel⟩
  have hapart : Apart q.inFlight := by
    unfold Apart
    decide +kernel
  have hq : q.Predictable :=
    ⟨rfl, by decide +kernel, rfl, hclear, fun _ => hapart, by decide +kernel⟩
  have hne : q.inFlight ≠ [] := List.cons_ne_nil _ _
  have hT : q.lastUpdate +
      Quantity.sum (q.inFlight.map Transmission.remaining) / q.bandwidth + tolerance < fin 20 := by
    decide +kernel
  have hcompleted : (q.advance (fin 20)).completed.map Transmission.finish =
      [some 0, some 10, some 15] := by
    decide +kernel
  exact ⟨hq, hne, hT, hcompleted, estimates_come_true hq hne hT⟩

end Queue

end FlowFabric
