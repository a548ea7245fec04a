import FlowFabric.Proofs.Queue.Service

namespace FlowFabric

open Quantity (isFinite)

namespace Exact

/-- A number, or the infinity that stands for never. -/
def Definite (x : Exact) : Prop := isFinite x = true ∨ x = posInf

variable {x : Exact} {l : List Exact}

theorem definite_fin (a : ℚ) : (fin a).Definite := Or.inl rfl

theorem Definite.eq_posInf (h : x.Definite) (hx : isFinite x = false) : x = posInf :=
  h.resolve_left (Bool.eq_false_iff.mp hx)

theorem Definite.fin_add (h : x.Definite) (a : ℚ) : (fin a + x).Definite := by
  rcases h with h | rfl
  · obtain ⟨q, rfl⟩ := eq_fin_of_isFinite h
    exact definite_fin (a + q)
  · exact Or.inr rfl

theorem definite_minimum (h : ∀ x ∈ l, x.Definite) : (Quantity.minimum l).Definite :=
  Quantity.foldl_min_induction h (Or.inr rfl)

theorem finite_minimum (h : ∀ x ∈ l, isFinite x = true) (hne : l ≠ []) :
    isFinite (Quantity.minimum l) = true := by
  obtain ⟨x, rest, rfl⟩ := List.exists_cons_of_ne_nil hne
  obtain ⟨q, rfl⟩ := eq_fin_of_isFinite (h x List.mem_cons_self)
  unfold Quantity.minimum
  rw [List.foldl_cons]
  refine Quantity.foldl_min_induction (P := fun x => isFinite x = true)
    (fun y hy => h y (List.mem_cons_of_mem _ hy)) ?_
  show isFinite (Quantity.min posInf (fin q)) = true
  rw [min_posInf_left]
  rfl

theorem min_eq_posInf {x y : Exact} (hx : x.Definite) (hy : y.Definite)
    (h : Quantity.min x y = posInf) : x = posInf ∧ y = posInf := by
  rcases hx with hx | rfl
  · obtain ⟨p, rfl⟩ := eq_fin_of_isFinite hx
    rcases hy with hy | rfl
    · obtain ⟨q, rfl⟩ := eq_fin_of_isFinite hy
      rw [min_fin] at h
      cases h
    · rw [min_posInf_right] at h
      cases h
  · rcases hy with hy | rfl
    · obtain ⟨q, rfl⟩ := eq_fin_of_isFinite hy
      rw [min_posInf_left] at h
      cases h
    · exact ⟨rfl, rfl⟩

/-- The least of several times is never only if each of them is. -/
theorem eq_posInf_of_minimum (h : ∀ x ∈ l, x.Definite) (hmin : Quantity.minimum l = posInf) :
    ∀ x ∈ l, x = posInf := by
  have hfold {l : List Exact} (hl : ∀ x ∈ l, x.Definite) {s : Exact} (hs : s.Definite)
      (hmin : l.foldl Quantity.min s = posInf) : s = posInf ∧ ∀ x ∈ l, x = posInf := by
    induction l generalizing s with
    | nil => exact ⟨hmin, fun x hx => by cases hx⟩
    | cons y rest ih =>
      have hy := hl y List.mem_cons_self
      obtain ⟨hstart, hrest⟩ := ih (fun x hx => hl x (List.mem_cons_of_mem _ hx))
        (Quantity.min_induction hs hy) hmin
      obtain ⟨hs', hy'⟩ := min_eq_posInf hs hy hstart
      refine ⟨hs', fun x hx => ?_⟩
      rcases List.mem_cons.mp hx with rfl | hx
      · exact hy'
      · exact hrest x hx
  exact (hfold h (Or.inr rfl) hmin).2

end Exact

/-- What remains is a number, and the deadline is a time or never comes. -/
structure Transmission.Dated (t : Transmission Exact) : Prop where
  remaining : isFinite t.remaining = true
  start : isFinite t.start = true
  timeout : ∀ x, t.timeout = some x → x.Definite

/-- Besides, more than the tolerance remains. -/
structure Transmission.Timely (t : Transmission Exact) : Prop extends Transmission.Dated t where
  undone : Queue.isDone t = false

namespace Transmission

open Exact (fin)

variable {t : Transmission Exact}

theorem Dated.definite_deadline (h : t.Dated) : t.deadline.Definite := by
  obtain ⟨a, ha⟩ := Exact.eq_fin_of_isFinite h.start
  unfold deadline
  split
  · rename_i limit hlimit
    rw [ha]
    exact (h.timeout limit hlimit).fin_add a
  · exact Or.inr rfl

theorem Dated.serve (h : t.Dated) (x : ℚ) :
    Dated { t with remaining := t.remaining - fin x } := by
  obtain ⟨r, hr⟩ := Exact.eq_fin_of_isFinite h.remaining
  refine ⟨?_, h.start, h.timeout⟩
  dsimp only
  rw [hr, Exact.fin_sub_fin]
  rfl

/-- What nothing is taken from does not come to its end. -/
theorem Timely.serve (h : t.Timely) {x : ℚ} (hx : x ≤ 0) :
    Timely { t with remaining := t.remaining - fin x } := by
  refine ⟨h.toDated.serve x, ?_⟩
  obtain ⟨r, hr⟩ := Exact.eq_fin_of_isFinite h.remaining
  have hundone := h.undone
  unfold Queue.isDone at hundone ⊢
  rw [Bool.not_eq_false', decide_eq_true_eq] at hundone ⊢
  show tolerance * Quantity.max t.size 1 < t.remaining - fin x
  rw [hr] at hundone ⊢
  rw [Exact.fin_sub_fin]
  generalize (tolerance * Quantity.max t.size 1 : Exact) = limit at hundone
  cases limit with
  | fin p =>
    rw [Exact.fin_lt_fin] at hundone ⊢
    linarith
  | posInf => exact absurd rfl (Exact.below_of_lt hundone).1
  | negInf => rfl
  | undef => exact absurd rfl (Exact.below_of_lt hundone).2

end Transmission

namespace Queue

open Exact (fin posInf AtMost Definite)

variable {q : Queue Exact} {limit : Option Nat} {a b w : ℚ}

section Advance

/-- Whatever is in flight, a step takes no longer than the time that is left. -/
theorem step_bounds (q : Queue Exact) (limit : Option Nat) (hab : a ≤ b) :
    ∃ d : ℚ, q.step limit (fin a) (fin b) = fin d ∧ 0 ≤ d ∧ a + d ≤ b := by
  have hwhole : (fin (b - a)).AtMost (b - a) := Or.inr ⟨b - a, rfl, le_rfl⟩
  have hfinish : (if 0 < q.rate limit then
      (q.inFlight.take (served limit q.inFlight.length)).foldl
        (fun s t => Quantity.min s (t.remaining / q.rate limit)) (fin (b - a))
      else fin (b - a)).AtMost (b - a) := by
    split
    · exact hwhole.foldl_min _ _
    · exact hwhole
  obtain ⟨d, hd, hd0, hle⟩ :=
    (hfinish.foldl_min (fun t => t.deadline - fin a) q.inFlight).max_zero (sub_nonneg.mpr hab)
  refine ⟨d, ?_, hd0, by linarith⟩
  unfold step
  dsimp only
  rw [Exact.fin_sub_fin]
  exact hd

/-- In a round everything in flight sends for some time at
the same rate, and some of it may be retired. -/
theorem round_serves (hb : q.bandwidth = fin w) (hn : served limit q.inFlight.length ≠ 0)
    (hab : a ≤ b) : ∃ c x : ℚ, (q.round limit (fin a) (fin b)).2 = fin c ∧ (w ≤ 0 → x ≤ 0) ∧
      (q.round limit (fin a) (fin b)).1.inFlight =
        (retire (fin c) (served limit q.inFlight.length)
          (transmit (served limit q.inFlight.length) (fin x) q.inFlight)).2 := by
  obtain ⟨d, hd, hd0, hle⟩ := step_bounds q limit hab
  obtain ⟨c, hc, -, -⟩ := stepEnd_eq hle
  have hrate : q.rate limit = fin (w / served limit q.inFlight.length) := by
    unfold rate
    rw [hb, Exact.ofNat_div_fin hn]
  refine ⟨c, w / served limit q.inFlight.length * d, ?_, fun hw => ?_, ?_⟩
  · unfold round
    dsimp only
    rw [hd, hc]
  · exact mul_nonpos_of_nonpos_of_nonneg (div_nonpos_of_nonpos_of_nonneg hw (Nat.cast_nonneg _)) hd0
  · unfold round
    dsimp only
    rw [hd, hc, hrate, Exact.fin_mul_fin]

theorem forall_transmit {P : Transmission Exact → Prop} {x : ℚ}
    (hP : ∀ t, P t → P { t with remaining := t.remaining - fin x })
    {l : List (Transmission Exact)} (h : ∀ t ∈ l, P t) (n : Nat) :
    ∀ t ∈ transmit n (fin x) l, P t := by
  intro t ht
  rcases List.mem_append.mp ht with ht | ht
  · obtain ⟨u, hu, rfl⟩ := List.mem_map.mp ht
    exact hP u (h u (List.mem_of_mem_take hu))
  · exact h t (List.mem_of_mem_drop ht)

/-- A property of transmissions that does not depend on how much remains holds
of what is still in flight after any rounds. -/
theorem forall_inFlight_rounds {P : Transmission Exact → Prop}
    (hP : ∀ t (x : ℚ), P t → P { t with remaining := t.remaining - fin x })
    (hl : ∀ n, n ≠ 0 → served limit n ≠ 0) (fuel : Nat) (hb : q.bandwidth = fin w)
    (h : ∀ t ∈ q.inFlight, P t) (a b : ℚ) :
    ∀ t ∈ (rounds limit (fin b) fuel q (fin a)).inFlight, P t := by
  induction fuel generalizing q a with
  | zero => exact fun t ht => h t (List.mem_filter.mp ht).1
  | succ fuel ih =>
    unfold rounds
    dsimp only
    have hkept : ∀ t ∈ (q.expire (fin a)).inFlight, P t :=
      fun t ht => h t (List.mem_filter.mp ht).1
    split
    · exact hkept
    · rename_i hgo
      rw [Bool.or_eq_true, not_or, List.isEmpty_iff, decide_eq_true_eq, Exact.fin_le_fin,
        not_le] at hgo
      have hserved := hl _ fun h0 => hgo.1 (List.length_eq_zero_iff.mp h0)
      obtain ⟨c, x, hc, -, hround⟩ := round_serves (q := q.expire (fin a)) hb hserved hgo.2.le
      rw [hc]
      refine ih (q := ((q.expire (fin a)).round limit (fin a) (fin b)).1) hb (fun t ht => ?_) c
      rw [hround] at ht
      exact forall_transmit (fun u hu => hP u x hu) hkept _ t (mem_of_mem_retire ht)

theorem forall_inFlight_advance {P : Transmission Exact → Prop}
    (hP : ∀ t (x : ℚ), P t → P { t with remaining := t.remaining - fin x })
    (hb : isFinite q.bandwidth = true) (hlast : isFinite q.lastUpdate = true)
    (h : ∀ t ∈ q.inFlight, P t) (b : ℚ) : ∀ t ∈ (q.advance (fin b)).inFlight, P t := by
  obtain ⟨w, hw⟩ := Exact.eq_fin_of_isFinite hb
  obtain ⟨a, ha⟩ := Exact.eq_fin_of_isFinite hlast
  have hrounds :=
    forall_inFlight_rounds hP (served_ne_zero q.discipline) q.roundLimit hw h a b
  rw [← ha] at hrounds
  exact hrounds

end Advance

/-- Bandwidth and clock are numbers, and everything in flight is timely. -/
structure Timely (q : Queue Exact) : Prop where
  bandwidth : isFinite q.bandwidth = true
  clock : isFinite q.lastUpdate = true
  timeout : ∀ x, q.defaultTimeout = some x → x.Definite
  inFlight : ∀ t ∈ q.inFlight, t.Timely

namespace Timely

theorem empty (discipline : Discipline) {timeout : Option Exact}
    (h : ∀ x, timeout = some x → x.Definite) : (Queue.empty discipline timeout).Timely where
  bandwidth := rfl
  clock := rfl
  timeout := h
  inFlight t ht := by cases ht

theorem advance (h : q.Timely) (b : ℚ) : (q.advance (fin b)).Timely where
  bandwidth := by
    rw [bandwidth_advance]
    exact h.bandwidth
  clock := by
    obtain ⟨a, ha⟩ := Exact.eq_fin_of_isFinite h.clock
    rw [lastUpdate_advance, ha, Exact.max_fin]
    rfl
  timeout := by
    rw [defaultTimeout_advance]
    exact h.timeout
  inFlight t ht := by
    have hdated := forall_inFlight_advance (P := Transmission.Dated) (fun t x ht => ht.serve x)
      h.bandwidth h.clock (fun u hu => (h.inFlight u hu).toDated) b t ht
    rcases mem_inFlight_advance ht with hold | hundone
    · exact h.inFlight t hold
    · exact ⟨hdated, hundone⟩

theorem collect (h : q.Timely) : q.collect.Timely := ⟨h.bandwidth, h.clock, h.timeout, h.inFlight⟩

theorem setBandwidth (h : q.Timely) {bandwidth : Exact} (hb : isFinite bandwidth = true) :
    (q.setBandwidth bandwidth).Timely :=
  ⟨hb, h.clock, h.timeout, h.inFlight⟩

theorem add (h : q.Timely) {t : Transmission Exact} (ht : t.Timely) (b : ℚ) :
    (q.add t (fin b)).Timely where
  bandwidth := h.bandwidth
  clock := by
    show isFinite (if q.inFlight.isEmpty then fin b else q.lastUpdate) = true
    split
    · rfl
    · exact h.clock
  timeout := h.timeout
  inFlight u hu := by
    rcases List.mem_append.mp hu with hu | hu
    · exact h.inFlight u hu
    · rw [List.mem_singleton.mp hu]
      refine ⟨⟨ht.remaining, ht.start, fun x hx => ?_⟩, ht.undone⟩
      -- The timeout is the transmission's own, or else that of the queue.
      cases hown : t.timeout with
      | some y =>
        rw [hown] at hx
        exact ht.timeout x (hown.trans hx)
      | none =>
        rw [hown] at hx
        exact h.timeout x hx

theorem definite_deadlines (h : q.Timely) :
    ∀ x ∈ q.inFlight.map Transmission.deadline, x.Definite := by
  intro x hx
  obtain ⟨t, ht, rfl⟩ := List.mem_map.mp hx
  exact (h.inFlight t ht).definite_deadline

theorem definite_nextTimeout (h : q.Timely) : q.nextTimeout.Definite :=
  Exact.definite_minimum h.definite_deadlines

theorem finite_remaining (h : q.Timely) (hne : q.inFlight ≠ []) :
    isFinite (Quantity.minimum (q.inFlight.map Transmission.remaining)) = true := by
  refine Exact.finite_minimum (fun x hx => ?_) fun hnil => hne (List.map_eq_nil_iff.mp hnil)
  obtain ⟨t, ht, rfl⟩ := List.mem_map.mp hx
  exact (h.inFlight t ht).remaining

/-- A completion is predicted if there is anything to complete and any bandwidth. -/
theorem nextFinish_cases (h : q.Timely) :
    (isFinite q.nextFinish = true ∧ q.inFlight ≠ [] ∧ 0 < q.bandwidth) ∨
      q.nextFinish = posInf ∧ (q.inFlight = [] ∨ q.bandwidth ≤ 0) := by
  obtain ⟨a, ha⟩ := Exact.eq_fin_of_isFinite h.clock
  obtain ⟨w, hw⟩ := Exact.eq_fin_of_isFinite h.bandwidth
  have hnone : fin w ≤ (0 : Exact) ↔ w ≤ 0 := by
    rw [Exact.ofNat_eq_fin, Exact.fin_le_fin, Nat.cast_zero]
  by_cases hempty : q.inFlight = []
  · refine Or.inr ⟨?_, Or.inl hempty⟩
    unfold nextFinish
    rw [hempty]
    cases q.discipline <;> rfl
  · rw [hw, Exact.fin_pos, hnone]
    unfold nextFinish
    rw [ha, hw]
    obtain ⟨r, hr⟩ := Exact.eq_fin_of_isFinite (h.finite_remaining hempty)
    obtain ⟨t, rest, hcons⟩ := List.exists_cons_of_ne_nil hempty
    obtain ⟨s, hs⟩ := Exact.eq_fin_of_isFinite
      (h.inFlight t (hcons ▸ List.mem_cons_self)).remaining
    rcases lt_or_ge 0 w with hlt | hle
    · refine Or.inl ⟨?_, hempty, hlt⟩
      cases q.discipline with
      | timeShared =>
        rw [hcons]
        dsimp only
        rw [if_pos (Exact.fin_pos.mpr hlt), hs, Exact.fin_div_fin hlt.ne', Exact.fin_add_fin]
        rfl
      | spaceShared =>
        dsimp only
        rw [if_neg, hr, Exact.ofNat_fin, Exact.fin_mul_fin, Exact.fin_div_fin hlt.ne',
          Exact.fin_add_fin]
        · rfl
        · rw [Bool.or_eq_true, not_or, List.isEmpty_iff, decide_eq_true_eq, hnone]
          exact ⟨hempty, not_le.mpr hlt⟩
    · refine Or.inr ⟨?_, Or.inr hle⟩
      cases q.discipline with
      | timeShared =>
        rw [hcons]
        dsimp only
        rw [if_neg (mt Exact.fin_pos.mp (not_lt.mpr hle))]
        rfl
      | spaceShared =>
        dsimp only
        rw [if_pos]
        · rfl
        · rw [Bool.or_eq_true, decide_eq_true_eq, hnone]
          exact Or.inr hle

theorem definite_nextFinish (h : q.Timely) : q.nextFinish.Definite :=
  h.nextFinish_cases.imp (fun hsome => hsome.1) fun hnone => hnone.1

end Timely

/-- Nothing is sent, and no deadline ever comes. -/
structure Stalled (q : Queue Exact) : Prop where
  bandwidth : q.bandwidth ≤ 0
  endless : ∀ t ∈ q.inFlight, t.deadline = posInf

/-- A queue that carries something and predicts nothing is stalled. -/
theorem Timely.stalled (h : q.Timely) (hne : q.inFlight ≠ []) (hfinish : q.nextFinish = posInf)
    (htimeout : q.nextTimeout = posInf) : q.Stalled where
  bandwidth := by
    rcases h.nextFinish_cases with ⟨hfinite, -⟩ | ⟨-, hnone⟩
    · rw [hfinish] at hfinite
      cases hfinite
    · exact hnone.resolve_left hne
  endless t ht :=
    Exact.eq_posInf_of_minimum h.definite_deadlines htimeout _ (List.mem_map_of_mem ht)

namespace Stalled

theorem nextTimeout (h : q.Stalled) : q.nextTimeout = posInf := by
  refine Quantity.foldl_min_induction (P := (· = posInf)) (fun x hx => ?_) rfl
  obtain ⟨t, ht, rfl⟩ := List.mem_map.mp hx
  exact h.endless t ht

theorem nextFinish (h : q.Stalled) (hq : q.Timely) : q.nextFinish = posInf := by
  rcases hq.nextFinish_cases with ⟨-, -, hpos⟩ | ⟨hnone, -⟩
  · exact absurd hpos (OrderLaws.not_lt_of_le h.bandwidth)
  · exact hnone

theorem advance (h : q.Stalled) (hq : q.Timely) (b : ℚ) : (q.advance (fin b)).Stalled where
  bandwidth := by
    rw [bandwidth_advance]
    exact h.bandwidth
  endless := forall_inFlight_advance (P := fun t => t.deadline = posInf) (fun _ _ ht => ht)
    hq.bandwidth hq.clock h.endless b

/-- A transmission without a deadline is never due. -/
theorem not_isDue {t : Transmission Exact} (ht : t.deadline = posInf) (a : ℚ) :
    isDue (fin a) t = false := by
  unfold isDue
  rw [ht, Exact.tolerance_eq, Exact.fin_add_fin]
  rfl

theorem retire_of_undone {now : Exact} {l : List (Transmission Exact)}
    (h : ∀ t ∈ l, isDone t = false) (n : Nat) : (retire now n l).2 = l := by
  induction l generalizing n with
  | nil => cases n <;> rfl
  | cons t rest ih =>
    cases n with
    | zero => rfl
    | succ n =>
      unfold retire
      rw [if_neg (Bool.eq_false_iff.mp (h t List.mem_cons_self))]
      dsimp only
      rw [ih (fun u hu => h u (List.mem_cons_of_mem _ hu)) n]

/-- What is in flight in a stalled queue stays there. -/
theorem rounds_ne_nil (hl : ∀ n, n ≠ 0 → served limit n ≠ 0) (fuel : Nat)
    (hb : q.bandwidth = fin w) (hw : w ≤ 0)
    (h : ∀ t ∈ q.inFlight, t.Timely ∧ t.deadline = posInf) (hne : q.inFlight ≠ []) (a b : ℚ) :
    (rounds limit (fin b) fuel q (fin a)).inFlight ≠ [] := by
  -- Without deadlines nothing expires, and what is served is never done.
  have hexpire (now : ℚ) {q : Queue Exact}
      (h : ∀ t ∈ q.inFlight, t.Timely ∧ t.deadline = posInf) : q.expire (fin now) = q :=
    expire_of_not_isDue fun t ht => not_isDue (h t ht).2 now
  induction fuel generalizing q a with
  | zero =>
    show (q.expire (fin b)).inFlight ≠ []
    rw [hexpire b h]
    exact hne
  | succ fuel ih =>
    unfold rounds
    rw [hexpire a h]
    dsimp only
    split
    · exact hne
    · rename_i hgo
      rw [Bool.or_eq_true, not_or, List.isEmpty_iff, decide_eq_true_eq, Exact.fin_le_fin,
        not_le] at hgo
      have hserved := hl _ fun h0 => hgo.1 (List.length_eq_zero_iff.mp h0)
      obtain ⟨c, x, hc, hx, hround⟩ := round_serves hb hserved hgo.2.le
      -- A rate that is not positive takes nothing away, so that nothing is retired.
      have hleft := forall_transmit (P := fun t => t.Timely ∧ t.deadline = posInf)
        (fun t ht => ⟨ht.1.serve (hx hw), ht.2⟩) h (served limit q.inFlight.length)
      rw [retire_of_undone fun t ht => (hleft t ht).1.undone] at hround
      rw [hc]
      refine ih (q := (q.round limit (fin a) (fin b)).1) hb ?_ ?_ c
      · rw [hround]
        exact hleft
      · rw [hround]
        intro hnil
        have hlen := length_transmit (served limit q.inFlight.length) (fin x) q.inFlight
        rw [hnil] at hlen
        exact hne (List.length_eq_zero_iff.mp hlen.symm)

theorem advance_ne_nil (h : q.Stalled) (hq : q.Timely) (hne : q.inFlight ≠ []) (b : ℚ) :
    (q.advance (fin b)).inFlight ≠ [] := by
  obtain ⟨w, hw⟩ := Exact.eq_fin_of_isFinite hq.bandwidth
  obtain ⟨a, ha⟩ := Exact.eq_fin_of_isFinite hq.clock
  have hnone := h.bandwidth
  rw [hw, Exact.ofNat_eq_fin, Exact.fin_le_fin, Nat.cast_zero] at hnone
  have hrounds := rounds_ne_nil (served_ne_zero q.discipline) q.roundLimit hw hnone
    (fun t ht => ⟨hq.inFlight t ht, h.endless t ht⟩) hne a b
  rw [← ha] at hrounds
  exact hrounds

end Stalled

end Queue

end FlowFabric
