import FlowFabric.Proofs.Quantity.Bandwidth
import FlowFabric.Proofs.Queue.Conservation

namespace FlowFabric

namespace Exact

/-- A value that is at most the number, and neither undefined nor infinite above. -/
def AtMost (x : Exact) (a : ℚ) : Prop := x = negInf ∨ ∃ b : ℚ, x = fin b ∧ b ≤ a

variable {x : Exact} {a : ℚ}

/-- Nothing raises a minimum, not even an undefined value. -/
theorem AtMost.min (h : x.AtMost a) (y : Exact) : (Quantity.min x y).AtMost a := by
  rcases h with rfl | ⟨b, rfl, hb⟩
  · left
    cases y <;> rfl
  · cases y with
    | fin c =>
      rw [min_fin]
      exact Or.inr ⟨b ⊓ c, rfl, inf_le_left.trans hb⟩
    | posInf => exact Or.inr ⟨b, rfl, hb⟩
    | negInf => exact Or.inl rfl
    | undef => exact Or.inr ⟨b, rfl, hb⟩

theorem AtMost.foldl_min {α : Type} (h : x.AtMost a) (f : α → Exact) (l : List α) :
    (l.foldl (fun s e => Quantity.min s (f e)) x).AtMost a := by
  induction l generalizing x with
  | nil => exact h
  | cons e rest ih => exact ih (h.min (f e))

theorem AtMost.max_zero (h : x.AtMost a) (ha : 0 ≤ a) :
    ∃ b : ℚ, Quantity.max x 0 = fin b ∧ 0 ≤ b ∧ b ≤ a := by
  rcases h with rfl | ⟨b, rfl, hb⟩
  · exact ⟨0, rfl, le_rfl, ha⟩
  · exact ⟨b ⊔ 0, max_fin_zero, le_sup_right, sup_le hb ha⟩

end Exact

/-- Size and what is left of it are numbers, and neither is negative. -/
structure Transmission.Numeric (t : Transmission Exact) : Prop where
  size : t.size.Nonneg
  remaining : t.remaining.Nonneg

namespace Transmission

variable {t : Transmission Exact}

/-- The data sent so far, as a number. -/
def sentData (t : Transmission Exact) : ℚ := t.size.toRat - t.remaining.toRat

/-- The size of a transmission without the remainder that the tolerance forgives. -/
def dueData (t : Transmission Exact) : ℚ := t.size.toRat - 1 / 10 ^ 9 * (t.size.toRat ⊔ 1)

theorem Numeric.sent_eq (h : t.Numeric) : t.sent = Exact.fin t.sentData := by
  have hsent : t.sent = t.size - t.remaining := rfl
  rw [hsent, h.size.eq_fin, h.remaining.eq_fin, Exact.fin_sub_fin]
  rfl

theorem sentData_ofPacket (p : Packet Exact) (start : Exact) : (ofPacket p start).sentData = 0 :=
  sub_self _

theorem Numeric.tolerated_eq (h : t.Numeric) :
    tolerance * Quantity.max t.size 1 = Exact.fin (1 / 10 ^ 9 * (t.size.toRat ⊔ 1)) := by
  rw [h.size.eq_fin, Exact.tolerance_eq, Exact.ofNat_eq_fin, Exact.max_fin, Exact.fin_mul_fin,
    Nat.cast_one]
  rfl

theorem Numeric.dueData_le (h : t.Numeric) (hd : Queue.isDone t = true) :
    t.dueData ≤ t.sentData := by
  have hle : t.remaining.toRat ≤ 1 / 10 ^ 9 * (t.size.toRat ⊔ 1) := by
    unfold Queue.isDone at hd
    rw [Bool.not_eq_true', decide_eq_false_iff_not, h.tolerated_eq, h.remaining.eq_fin,
      Exact.fin_lt_fin, not_lt] at hd
    exact hd
  unfold dueData sentData
  linarith

/-- The data sent of all transmissions together. -/
def sentTotal (l : List (Transmission Exact)) : ℚ := (l.map sentData).sum

def dueTotal (l : List (Transmission Exact)) : ℚ := (l.map dueData).sum

theorem sentTotal_append (l m : List (Transmission Exact)) :
    sentTotal (l ++ m) = sentTotal l + sentTotal m := by
  unfold sentTotal
  rw [List.map_append, List.sum_append]

theorem dueTotal_append (l m : List (Transmission Exact)) :
    dueTotal (l ++ m) = dueTotal l + dueTotal m := by
  unfold dueTotal
  rw [List.map_append, List.sum_append]

theorem sentTotal_cons (t : Transmission Exact) (l : List (Transmission Exact)) :
    sentTotal (t :: l) = t.sentData + sentTotal l := rfl

theorem dueTotal_cons (t : Transmission Exact) (l : List (Transmission Exact)) :
    dueTotal (t :: l) = t.dueData + dueTotal l := rfl

theorem sentTotal_filter_add (p : Transmission Exact → Bool) (l : List (Transmission Exact)) :
    sentTotal (l.filter fun t => !p t) + sentTotal (l.filter p) = sentTotal l := by
  rw [add_comm, ← sentTotal_append]
  exact ((List.filter_append_perm p l).map _).sum_eq

end Transmission

namespace Queue

open Exact Transmission

section Transmissions

variable {l : List (Transmission Exact)} {n : Nat} {x : ℚ} {now : Exact}

theorem numeric_serve (h : ∀ t ∈ l, t.Numeric) (hx : ∀ t ∈ l, x ≤ t.remaining.toRat) :
    ∀ t ∈ l.map (fun t => { t with remaining := t.remaining - fin x }), t.Numeric := by
  intro t ht
  obtain ⟨u, hu, rfl⟩ := List.mem_map.mp ht
  have hleft : u.remaining - fin x = fin (u.remaining.toRat - x) := by
    rw [(h u hu).remaining.eq_fin, fin_sub_fin, toRat_fin]
  refine ⟨(h u hu).size, ?_⟩
  rw [hleft]
  exact .fin (sub_nonneg.mpr (hx u hu))

theorem numeric_transmit (h : ∀ t ∈ l, t.Numeric) (hx : ∀ t ∈ l.take n, x ≤ t.remaining.toRat) :
    ∀ t ∈ transmit n (fin x) l, t.Numeric := by
  intro t ht
  rcases List.mem_append.mp ht with ht | ht
  · exact numeric_serve (fun u hu => h u (List.mem_of_mem_take hu)) hx t ht
  · exact h t (List.mem_of_mem_drop ht)

theorem sentTotal_serve (h : ∀ t ∈ l, t.Numeric) :
    sentTotal (l.map fun t => { t with remaining := t.remaining - fin x }) =
      sentTotal l + l.length * x := by
  induction l with
  | nil => simp [sentTotal]
  | cons t rest ih =>
    have ht := h t List.mem_cons_self
    have hsent : sentData { t with remaining := t.remaining - fin x } = t.sentData + x := by
      have hleft : (t.remaining - fin x).toRat = t.remaining.toRat - x := by
        rw [ht.remaining.eq_fin, fin_sub_fin, toRat_fin, toRat_fin]
      show t.size.toRat - (t.remaining - fin x).toRat = t.size.toRat - t.remaining.toRat + x
      rw [hleft]
      ring
    rw [List.map_cons, sentTotal_cons, ih fun u hu => h u (List.mem_cons_of_mem _ hu), hsent,
      sentTotal_cons, List.length_cons, Nat.cast_succ]
    ring

theorem sentTotal_transmit (h : ∀ t ∈ l, t.Numeric) (hn : n ≤ l.length) :
    sentTotal (transmit n (fin x) l) = sentTotal l + n * x := by
  have hserved : sentTotal ((l.take n).map fun t => { t with remaining := t.remaining - fin x }) =
      sentTotal (l.take n) + n * x := by
    rw [sentTotal_serve fun t ht => h t (List.mem_of_mem_take ht), List.length_take,
      min_eq_left hn]
  have hall : sentTotal l = sentTotal (l.take n) + sentTotal (l.drop n) := by
    rw [← sentTotal_append, List.take_append_drop]
  unfold transmit
  rw [sentTotal_append, hserved, hall]
  ring

theorem numeric_retire (now : Exact) (h : ∀ t ∈ l, t.Numeric) :
    (∀ t ∈ (retire now n l).1, t.Numeric) ∧ ∀ t ∈ (retire now n l).2, t.Numeric := by
  constructor
  · intro t ht
    obtain ⟨u, hu, rfl⟩ := mem_retire_done ht
    exact ⟨(h u hu).size, .fin le_rfl⟩
  · intro t ht
    exact h t (mem_of_mem_retire ht)

/-- Retiring a transmission gives away no more than the tolerance. -/
theorem dueTotal_retire (now : Exact) (h : ∀ t ∈ l, t.Numeric) :
    dueTotal (retire now n l).1 + sentTotal (retire now n l).2 ≤ sentTotal l := by
  induction l generalizing n with
  | nil => cases n <;> exact (add_zero _).le
  | cons t rest ih =>
    have hrest : ∀ u ∈ rest, u.Numeric := fun u hu => h u (List.mem_cons_of_mem _ hu)
    cases n with
    | zero => exact (zero_add _).le
    | succ n =>
      unfold retire
      split
      · rename_i hdone
        have hle := (h t List.mem_cons_self).dueData_le hdone
        have hih := ih (n := n + 1) hrest
        have hdue : dueData { t with remaining := 0, finish := some now } = t.dueData := rfl
        dsimp only
        rw [dueTotal_cons, sentTotal_cons, hdue]
        linarith
      · have hih := ih (n := n) hrest
        dsimp only
        rw [sentTotal_cons, sentTotal_cons]
        linarith

end Transmissions

/-- The numbers of a queue are such that it can be advanced exactly. -/
structure Numeric (q : Queue Exact) : Prop where
  bandwidth : q.bandwidth.Nonneg
  inFlight : ∀ t ∈ q.inFlight, t.Numeric
  completed : ∀ t ∈ q.completed, t.Numeric
  failed : ∀ t ∈ q.failed, t.Numeric

/-- The data that the queue has certainly sent:
of a completed transmission all but the tolerance. -/
def certain (q : Queue Exact) : ℚ :=
  dueTotal q.completed + sentTotal q.failed + sentTotal q.inFlight

variable {q : Queue Exact} {limit : Option Nat} {a b : ℚ}

theorem Numeric.expire (h : q.Numeric) (now : Exact) : (q.expire now).Numeric where
  bandwidth := h.bandwidth
  inFlight t ht := h.inFlight t (List.mem_filter.mp ht).1
  completed := h.completed
  failed t ht := by
    rcases List.mem_append.mp ht with ht | ht
    · exact h.failed t ht
    · obtain ⟨u, hu, rfl⟩ := List.mem_map.mp ht
      have hnum := h.inFlight u (List.mem_filter.mp hu).1
      exact ⟨hnum.size, hnum.remaining⟩

theorem certain_expire (q : Queue Exact) (now : Exact) : (q.expire now).certain = q.certain := by
  have hsplit := sentTotal_filter_add (isDue now) q.inFlight
  have hfailed :
      sentTotal ((q.inFlight.filter (isDue now)).map fun t => { t with finish := some now })
      = sentTotal (q.inFlight.filter (isDue now)) := by
    unfold sentTotal
    rw [List.map_map]
    rfl
  unfold certain Queue.expire
  dsimp only
  rw [sentTotal_append, hfailed, ← hsplit]
  ring

/-- The first completion at a given rate bounds a step: until then no served transmission has sent
more than what was left of it. -/
theorem finish_bound {l : List (Transmission Exact)} {r : ℚ} (h : ∀ t ∈ l, t.Numeric) (hr : 0 ≤ r)
    (ha : 0 ≤ a) : ∃ m : ℚ,
      (if 0 < fin r then l.foldl (fun s t => Quantity.min s (t.remaining / fin r)) (fin a)
        else fin a) = fin m ∧ 0 ≤ m ∧ m ≤ a ∧ ∀ t ∈ l, r * m ≤ t.remaining.toRat := by
  split
  · rename_i hpos
    rw [fin_pos] at hpos
    have hquot : ∀ t ∈ l, t.remaining / fin r = fin (t.remaining.toRat / r) := by
      intro t ht
      rw [(h t ht).remaining.eq_fin, fin_div_fin hpos.ne', toRat_fin]
    have hnonneg : ∀ x ∈ l.map fun t => t.remaining / fin r, x.Nonneg := by
      intro x hx
      obtain ⟨t, ht, rfl⟩ := List.mem_map.mp hx
      rw [hquot t ht]
      exact .fin (div_nonneg (h t ht).remaining.toRat_nonneg hr)
    obtain ⟨m, hm, hm0, hle, hmin⟩ := foldl_min_nonneg hnonneg ha
    rw [List.foldl_map] at hm
    refine ⟨m, hm, hm0, hle, fun t ht => ?_⟩
    have hquick := hmin _ (List.mem_map.mpr ⟨t, ht, rfl⟩)
    rw [hquot t ht, toRat_fin] at hquick
    exact (le_div_iff₀' hpos).mp hquick
  · rename_i hzero
    have hr0 : r = 0 := le_antisymm (not_lt.mp (mt fin_pos.mpr hzero)) hr
    refine ⟨a, rfl, ha, le_rfl, fun t ht => ?_⟩
    rw [hr0, zero_mul]
    exact (h t ht).remaining.toRat_nonneg

/-- How long a step is, and what each served transmission sends meanwhile. -/
theorem Numeric.step_eq (h : q.Numeric) (hn : served limit q.inFlight.length ≠ 0) (hab : a ≤ b) :
    ∃ d r : ℚ, q.step limit (fin a) (fin b) = fin d ∧ q.rate limit = fin r ∧ 0 ≤ d ∧ d ≤ b - a ∧
      served limit q.inFlight.length * r = q.bandwidth.toRat ∧
      ∀ t ∈ q.inFlight.take (served limit q.inFlight.length), r * d ≤ t.remaining.toRat := by
  have hserved : (0 : ℚ) < served limit q.inFlight.length :=
    Nat.cast_pos.mpr (Nat.pos_of_ne_zero hn)
  have hrate : q.rate limit = fin (q.bandwidth.toRat / served limit q.inFlight.length) := by
    unfold rate
    rw [h.bandwidth.eq_fin, ofNat_div_fin hn, toRat_fin]
  have hr : 0 ≤ q.bandwidth.toRat / served limit q.inFlight.length :=
    div_nonneg h.bandwidth.toRat_nonneg hserved.le
  have hshare := mul_div_cancel₀ q.bandwidth.toRat hserved.ne'
  generalize q.bandwidth.toRat / served limit q.inFlight.length = r at hrate hr hshare
  have hnum : ∀ t ∈ q.inFlight.take (served limit q.inFlight.length), t.Numeric :=
    fun t ht => h.inFlight t (List.mem_of_mem_take ht)
  obtain ⟨m, hm, hm0, hle, hsend⟩ := finish_bound hnum hr (sub_nonneg.mpr hab)
  -- The deadlines can only make the step shorter.
  have hmost : (fin m).AtMost m := Or.inr ⟨m, rfl, le_rfl⟩
  obtain ⟨d, hd, hd0, hdm⟩ :=
    (hmost.foldl_min (fun t => t.deadline - fin a) q.inFlight).max_zero hm0
  refine ⟨d, r, ?_, hrate, hd0, hdm.trans hle, hshare, fun t ht => ?_⟩
  · unfold step
    dsimp only
    rw [hrate, fin_sub_fin, hm]
    exact hd
  · exact (mul_le_mul_of_nonneg_left hdm hr).trans (hsend t ht)

theorem stepEnd_eq {d : ℚ} (hd : a + d ≤ b) :
    ∃ c : ℚ, stepEnd (fin a) (fin b) (fin d) = fin c ∧ a + d ≤ c ∧ c ≤ b := by
  unfold stepEnd
  rw [fin_add_fin]
  split
  · exact ⟨b, rfl, hd, le_rfl⟩
  · exact ⟨a + d, rfl, le_rfl, hd⟩

theorem served_le (limit : Option Nat) (n : Nat) : served limit n ≤ n := by
  cases limit with
  | none => exact Nat.le_refl n
  | some c => exact Nat.min_le_left n c

/-- A round sends no more than the bandwidth allows for the time that it takes. -/
theorem Numeric.round (h : q.Numeric) (hn : served limit q.inFlight.length ≠ 0) (hab : a ≤ b) :
    ∃ c : ℚ, (q.round limit (fin a) (fin b)).2 = fin c ∧ a ≤ c ∧ c ≤ b ∧
      (q.round limit (fin a) (fin b)).1.Numeric ∧
      (q.round limit (fin a) (fin b)).1.certain ≤ q.certain + q.bandwidth.toRat * (c - a) := by
  obtain ⟨d, r, hstep, hrate, hd0, hspan, hshare, hsend⟩ := h.step_eq hn hab
  obtain ⟨c, hend, hlow, hhigh⟩ := stepEnd_eq (a := a) (b := b) (d := d) (by linarith)
  have hnum := numeric_transmit h.inFlight hsend
  have htotal := sentTotal_transmit (x := r * d) h.inFlight (served_le limit q.inFlight.length)
  have hretired := dueTotal_retire (n := served limit q.inFlight.length) (fin c) hnum
  obtain ⟨hdone, hleft⟩ := numeric_retire (n := served limit q.inFlight.length) (fin c) hnum
  unfold Queue.round
  dsimp only
  rw [hstep, hrate, hend, fin_mul_fin]
  refine ⟨c, rfl, by linarith, hhigh, ⟨h.bandwidth, hleft, fun t ht => ?_, h.failed⟩, ?_⟩
  · rcases List.mem_append.mp ht with ht | ht
    · exact h.completed t ht
    · exact hdone t ht
  · -- The served transmissions share the bandwidth for the duration of the step.
    have hsent : served limit q.inFlight.length * (r * d) ≤ q.bandwidth.toRat * (c - a) := by
      rw [← mul_assoc, hshare]
      exact mul_le_mul_of_nonneg_left (by linarith) h.bandwidth.toRat_nonneg
    unfold certain
    dsimp only
    rw [dueTotal_append]
    linarith

/-- The same for any number of rounds; each begins where the last one ended. -/
theorem Numeric.rounds (hl : ∀ n, n ≠ 0 → served limit n ≠ 0) (fuel : Nat) (h : q.Numeric)
    (a b : ℚ) : (rounds limit (fin b) fuel q (fin a)).Numeric ∧
      (rounds limit (fin b) fuel q (fin a)).certain
        ≤ q.certain + q.bandwidth.toRat * ((b - a) ⊔ 0) := by
  have hbw := h.bandwidth.toRat_nonneg
  have hidle : 0 ≤ q.bandwidth.toRat * ((b - a) ⊔ 0) := mul_nonneg hbw le_sup_right
  induction fuel generalizing q a with
  | zero =>
    refine ⟨h.expire _, ?_⟩
    show (q.expire (fin b)).certain ≤ _
    rw [certain_expire]
    linarith
  | succ fuel ih =>
    unfold Queue.rounds
    dsimp only
    split
    · refine ⟨h.expire _, ?_⟩
      rw [certain_expire]
      linarith
    · rename_i hgo
      rw [Bool.or_eq_true, not_or, List.isEmpty_iff, decide_eq_true_eq, fin_le_fin, not_le] at hgo
      obtain ⟨hne, hab⟩ := hgo
      have hlen : (q.expire (fin a)).inFlight.length ≠ 0 :=
        fun h0 => hne (List.length_eq_zero_iff.mp h0)
      obtain ⟨c, hc, hlow, hhigh, hnum, hcertain⟩ :=
        (h.expire (fin a)).round (hl _ hlen) hab.le
      -- This round accounts for `c - a` of the time, the rest of them for `b - c`.
      have hrest : 0 ≤ q.bandwidth.toRat * ((b - c) ⊔ 0) := mul_nonneg hbw le_sup_right
      have hih := ih hnum c hbw hrest
      rw [hc]
      refine ⟨hih.1, hih.2.trans ?_⟩
      rw [certain_expire] at hcertain
      have hb : ((q.expire (fin a)).round limit (fin a) (fin b)).1.bandwidth = q.bandwidth := rfl
      have hbe : (q.expire (fin a)).bandwidth = q.bandwidth := rfl
      rw [hb, sup_eq_left.mpr (by linarith : (0 : ℚ) ≤ b - c),
        sup_eq_left.mpr (by linarith : (0 : ℚ) ≤ b - a)]
      rw [hbe] at hcertain
      linarith

theorem served_ne_zero (d : Discipline) (n : Nat) (hn : n ≠ 0) : served d.limit n ≠ 0 := by
  cases d with
  | timeShared =>
    have hone : Nat.min n 1 = 1 := Nat.min_eq_right (Nat.one_le_iff_ne_zero.mpr hn)
    show Nat.min n 1 ≠ 0
    rw [hone]
    exact Nat.one_ne_zero
  | spaceShared => exact hn

/-- An advance sends no more than the bandwidth allows for the time since the last one. -/
theorem Numeric.advance (h : q.Numeric) (ha : q.lastUpdate = fin a) (b : ℚ) :
    (q.advance (fin b)).Numeric ∧
      (q.advance (fin b)).certain ≤ q.certain + q.bandwidth.toRat * ((b - a) ⊔ 0) := by
  have hrounds := h.rounds (served_ne_zero q.discipline) q.roundLimit a b
  rw [← ha] at hrounds
  exact ⟨⟨hrounds.1.bandwidth, hrounds.1.inFlight, hrounds.1.completed, hrounds.1.failed⟩,
    hrounds.2⟩

theorem Numeric.add (h : q.Numeric) {t : Transmission Exact} (ht : t.Numeric) (time : Exact) :
    (q.add t time).Numeric where
  bandwidth := h.bandwidth
  inFlight u hu := by
    rcases List.mem_append.mp hu with hu | hu
    · exact h.inFlight u hu
    · rw [List.mem_singleton.mp hu]
      exact ⟨ht.size, ht.remaining⟩
  completed := h.completed
  failed := h.failed

/-- A new transmission adds nothing to what has been sent. -/
theorem certain_add (q : Queue Exact) {t : Transmission Exact} (ht : t.sentData = 0)
    (time : Exact) : (q.add t time).certain = q.certain := by
  have hnew : sentTotal [{ t with timeout := t.timeout <|> q.defaultTimeout }] = 0 := by
    have hsame : sentData { t with timeout := t.timeout <|> q.defaultTimeout } = t.sentData := rfl
    rw [sentTotal_cons, hsame, ht, zero_add]
    rfl
  unfold certain Queue.add
  dsimp only
  rw [sentTotal_append, hnew, add_zero]

/-- All data that the queue has delivered:
completed transmissions in full, the others so far as they got. -/
def delivered {R : Type} [Quantity R] (q : Queue R) : R :=
  Quantity.sum (q.completed.map Transmission.size) + Quantity.sum (q.failed.map sent)
    + Quantity.sum (q.inFlight.map sent)

/-- What completed transmissions may have been forgiven. -/
def forgiven {R : Type} [Quantity R] (q : Queue R) : R :=
  Quantity.sum (q.completed.map fun t => tolerance * Quantity.max t.size 1)

theorem Numeric.delivered_le (h : q.Numeric) {amount : ℚ} (hle : q.certain ≤ amount) :
    q.delivered ≤ fin amount + q.forgiven := by
  have hsize := sum_map_fin Transmission.size (fun t => t.size.toRat)
    fun t ht => (h.completed t ht).size.eq_fin
  have hfailed := sum_map_fin sent sentData fun t ht => (h.failed t ht).sent_eq
  have hflight := sum_map_fin sent sentData fun t ht => (h.inFlight t ht).sent_eq
  have hforgiven := sum_map_fin (fun t => tolerance * Quantity.max (Transmission.size t) 1) _
    fun t ht => (h.completed t ht).tolerated_eq
  -- A completed transmission counts with its size, of which the tolerance may be missing.
  have hsplit : (q.completed.map fun t => t.size.toRat).sum = dueTotal q.completed +
      (q.completed.map fun t => 1 / 10 ^ 9 * (t.size.toRat ⊔ 1)).sum := by
    unfold dueTotal
    rw [← List.sum_map_add]
    congr 1
    apply List.map_congr_left
    intro t _
    unfold dueData
    ring
  unfold delivered forgiven
  rw [hsize, hfailed, hflight, hforgiven, fin_add_fin, fin_add_fin, fin_add_fin, fin_le_fin, hsplit]
  unfold certain sentTotal at hle
  linarith

end Queue

end FlowFabric
