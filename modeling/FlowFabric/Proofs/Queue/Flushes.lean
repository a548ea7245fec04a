import FlowFabric.Proofs.Queue.Predictions

/-! Up to a time at which nothing ends, everything in flight has sent at one rate, and the next
round of a later advance is the rest of the round that it would have been. -/

namespace FlowFabric

namespace Exact

variable {a : ℚ} {l : List Exact}

/-- What is later than a number is a later number, or it never comes. -/
theorem of_fin_lt {x : Exact} (h : fin a < x) : x = posInf ∨ ∃ b : ℚ, x = fin b ∧ a < b := by
  cases x with
  | fin b => exact Or.inr ⟨b, rfl, fin_lt_fin.mp h⟩
  | posInf => exact Or.inl rfl
  | negInf => cases h
  | undef => cases h

theorem fin_lt_add {x : Exact} (h : fin 0 < x) (d : ℚ) : fin d < x + fin d := by
  rcases of_fin_lt h with rfl | ⟨b, rfl, hb⟩
  · rfl
  · rw [fin_add_fin, fin_lt_fin]
    linarith

theorem fin_lt_sub {x : Exact} (h : fin a < x) : fin 0 < x - fin a := by
  rcases of_fin_lt h with rfl | ⟨b, rfl, hb⟩
  · rfl
  · rw [fin_sub_fin, fin_lt_fin]
    linarith

theorem fin_lt_div {x : Exact} {r : ℚ} (h : fin 0 < x) (hr : 0 < r) : fin 0 < x / fin r := by
  rcases of_fin_lt h with rfl | ⟨b, rfl, hb⟩
  · have hinf : posInf / fin r = posInf := if_neg (not_lt.mpr hr.le)
    rw [hinf]
    rfl
  · rw [fin_div_fin hr.ne', fin_lt_fin]
    exact div_pos hb hr

/-- What is used up at a rate for some time lasts shorter by that time. -/
theorem div_eq_sub_div_add (x : Exact) {r : ℚ} (hr : 0 < r) (d : ℚ) :
    x / fin r = (x - fin (r * d)) / fin r + fin d := by
  cases x with
  | fin y =>
    rw [fin_sub_fin, fin_div_fin hr.ne', fin_div_fin hr.ne', fin_add_fin, sub_div,
      mul_div_cancel_left₀ d hr.ne', sub_add_cancel]
  | posInf =>
    have hinf : posInf / fin r = posInf := if_neg (not_lt.mpr hr.le)
    show posInf / fin r = posInf / fin r + fin d
    rw [hinf]
    rfl
  | negInf =>
    have hinf : negInf / fin r = negInf := if_neg (not_lt.mpr hr.le)
    show negInf / fin r = negInf / fin r + fin d
    rw [hinf]
    rfl
  | undef => rfl

/-- The first of several times that are ahead is ahead, and it is later by as much as they are. -/
theorem foldl_min_ahead (hl : ∀ x ∈ l, fin 0 < x) (ha : 0 < a) (d : ℚ) :
    ∃ b : ℚ, 0 < b ∧ l.foldl Quantity.min (fin a) = fin b ∧
      (l.map (· + fin d)).foldl Quantity.min (fin (a + d)) = fin (b + d) := by
  induction l generalizing a with
  | nil => exact ⟨a, ha, rfl, rfl⟩
  | cons x rest ih =>
    have hrest : ∀ y ∈ rest, fin 0 < y := fun y hy => hl y (List.mem_cons_of_mem _ hy)
    rw [List.map_cons, List.foldl_cons, List.foldl_cons]
    rcases of_fin_lt (hl x List.mem_cons_self) with rfl | ⟨b, rfl, hb⟩
    · exact ih hrest ha
    · rw [fin_add_fin, min_fin, min_fin, min_add_add_right]
      exact ih hrest (lt_inf_iff.mpr ⟨ha, hb⟩)

/-- Whatever a size is, there is some tolerance. -/
theorem tolerance_mul_max_pos (x : Exact) : fin 0 < tolerance * Quantity.max x 1 := by
  have hone : fin 0 < tolerance * (1 : Exact) := by
    rw [tolerance_eq, ofNat_eq_fin, fin_mul_fin, fin_lt_fin]
    norm_num
  cases x with
  | fin b =>
    rw [tolerance_eq, ofNat_eq_fin, max_fin, fin_mul_fin, fin_lt_fin]
    apply mul_pos (by norm_num)
    exact lt_of_lt_of_le one_pos (by rw [Nat.cast_one]; exact le_sup_right)
  | posInf =>
    have hinf : infOf (1 / 10 ^ 9) = posInf := if_pos (by norm_num)
    rw [tolerance_eq]
    show fin 0 < infOf (1 / 10 ^ 9)
    rw [hinf]
    rfl
  | negInf => exact hone
  | undef => exact hone

end Exact

namespace Queue

section Reports

variable {R : Type} [Quantity R] {q q' q'' : Queue R} {limit : Option Nat} {now time : R}

/-- What has completed or failed is only added to. -/
structure Reports (q q' : Queue R) : Prop where
  completed : q.completed <+: q'.completed
  failed : q.failed <+: q'.failed

omit [Quantity R] in
theorem Reports.refl (q : Queue R) : q.Reports q := ⟨List.prefix_rfl, List.prefix_rfl⟩

omit [Quantity R] in
theorem Reports.trans (h : q.Reports q') (h' : q'.Reports q'') : q.Reports q'' :=
  ⟨h.completed.trans h'.completed, h.failed.trans h'.failed⟩

theorem reports_expire (q : Queue R) (now : R) : q.Reports (q.expire now) :=
  ⟨List.prefix_rfl, List.prefix_append _ _⟩

theorem reports_round (q : Queue R) (limit : Option Nat) (now time : R) :
    q.Reports (q.round limit now time).1 :=
  ⟨List.prefix_append _ _, List.prefix_rfl⟩

theorem reports_rounds_succ {fuel : Nat}
    (hrest : ∀ (q : Queue R) now, q.Reports (rounds limit time fuel q now)) (q : Queue R)
    (now : R) :
    (q.expire now).Reports (rounds limit time (fuel + 1) q now) := by
  unfold rounds
  dsimp only
  split
  · exact .refl _
  · exact (reports_round _ limit now time).trans (hrest _ _)

theorem reports_rounds (limit : Option Nat) (time : R) (fuel : Nat) (q : Queue R) (now : R) :
    q.Reports (rounds limit time fuel q now) := by
  induction fuel generalizing q now with
  -- Without fuel what is due fails, and nothing else happens.
  | zero => exact reports_expire q time
  | succ fuel ih => exact (reports_expire q now).trans (reports_rounds_succ ih q now)

/-- Nothing has completed or failed. -/
structure Silent (q q' : Queue R) : Prop where
  completed : q'.completed = q.completed
  failed : q'.failed = q.failed

omit [Quantity R] in
/-- If nothing has ended at last, nothing had ended on the way. -/
theorem Silent.split (h : q.Silent q'') (hfirst : q.Reports q') (hrest : q'.Reports q'') :
    q.Silent q' ∧ q'.Silent q'' := by
  -- Lists that only grow and are as long at the end have not grown.
  have hcompleted : q'.completed = q.completed := by
    have hle := hrest.completed.length_le
    rw [h.completed] at hle
    exact (hfirst.completed.eq_of_length_le hle).symm
  have hfailed : q'.failed = q.failed := by
    have hle := hrest.failed.length_le
    rw [h.failed] at hle
    exact (hfirst.failed.eq_of_length_le hle).symm
  exact ⟨⟨hcompleted, hfailed⟩, h.completed.trans hcompleted.symm, h.failed.trans hfailed.symm⟩

theorem Silent.not_isDue (h : q.Silent (q.expire now)) : ∀ t ∈ q.inFlight, isDue now t = false := by
  have hnone : (q.inFlight.filter (isDue now)).map (fun t => { t with finish := some now }) = [] :=
    List.append_right_eq_self.mp h.failed
  intro t ht
  apply Bool.eq_false_iff.mpr
  exact List.filter_eq_nil_iff.mp (List.map_eq_nil_iff.mp hnone) t ht

theorem Silent.of_rounds {fuel : Nat} (h : q.Silent (rounds limit time (fuel + 1) q now)) :
    ∀ t ∈ q.inFlight, isDue now t = false :=
  (h.split (reports_expire q now)
    (reports_rounds_succ (reports_rounds limit time fuel) q now)).1.not_isDue

/-- If nothing is retired, everything stays where it is, and what was looked at is not done. -/
theorem retire_of_none {n : Nat} {l : List (Transmission R)} (h : (retire now n l).1 = []) :
    (retire now n l).2 = l ∧ ∀ t ∈ l.take n, isDone t = false := by
  induction l generalizing n with
  | nil =>
    have hnil : (retire now n ([] : List (Transmission R))).2 = [] := by cases n <;> rfl
    rw [List.take_nil]
    exact ⟨hnil, fun t ht => by cases ht⟩
  | cons u rest ih =>
    cases n with
    | zero => exact ⟨rfl, fun t ht => by cases ht⟩
    | succ n =>
      unfold retire at h ⊢
      split at h
      · cases h
      · rename_i hundone
        rw [if_neg hundone]
        obtain ⟨hleft, hrest⟩ := ih h
        refine ⟨congrArg (u :: ·) hleft, fun t ht => ?_⟩
        rcases List.mem_cons.mp ht with rfl | hmem
        · exact Bool.eq_false_iff.mpr hundone
        · exact hrest t hmem

/-- A round begins unless there is nothing to do. -/
theorem rounds_of_open {fuel : Nat} (hdue : ∀ t ∈ q.inFlight, isDue now t = false)
    (hne : q.inFlight ≠ []) (hlt : ¬ time ≤ now) :
    rounds limit time (fuel + 1) q now =
      rounds limit time fuel (q.round limit now time).1 (q.round limit now time).2 := by
  have hopen : ¬ (q.inFlight.isEmpty || decide (time ≤ now)) = true := by
    rw [Bool.or_eq_true, not_or, List.isEmpty_iff, decide_eq_true_eq]
    exact ⟨hne, hlt⟩
  conv => lhs; unfold rounds
  rw [expire_of_not_isDue hdue]
  exact if_neg hopen

/-- No round begins at the end of the interval. -/
theorem rounds_of_le {fuel : Nat} (hle : time ≤ now) :
    rounds limit time (fuel + 1) q now = q.expire now := by
  have hover : ((q.expire now).inFlight.isEmpty || decide (time ≤ now)) = true := by
    rw [Bool.or_eq_true, decide_eq_true_eq]
    exact Or.inr hle
  unfold rounds
  exact if_pos hover

theorem rounds_of_over {fuel : Nat} (hdue : ∀ t ∈ q.inFlight, isDue now t = false)
    (hle : time ≤ now) : rounds limit time (fuel + 1) q now = q := by
  rw [rounds_of_le hle, expire_of_not_isDue hdue]

/-- The queue with another clock. -/
def withClock (q : Queue R) (clock : R) : Queue R := { q with lastUpdate := clock }

theorem advance_eq (q : Queue R) (time : R) : q.advance time =
    (rounds q.discipline.limit time q.roundLimit q q.lastUpdate).withClock
      (Quantity.max q.lastUpdate time) := by
  have hclock : (rounds q.discipline.limit time q.roundLimit q q.lastUpdate).lastUpdate =
      q.lastUpdate :=
    same_rounds lastUpdate (fun _ _ => rfl) (fun _ _ _ _ => rfl) _ _ _ _ _
  unfold advance advanceServing withClock
  dsimp only
  rw [hclock]

/-- The rounds do not look at the clock. -/
theorem rounds_withClock (clock : R) (limit : Option Nat) (time : R) (fuel : Nat) (q : Queue R)
    (now : R) : rounds limit time fuel (q.withClock clock) now =
      (rounds limit time fuel q now).withClock clock := by
  induction fuel generalizing q now with
  | zero => rfl
  | succ fuel ih =>
    unfold rounds
    dsimp only
    by_cases hend : ((q.expire now).inFlight.isEmpty || decide (time ≤ now)) = true
    · rw [if_pos hend]
      exact if_pos hend
    · rw [if_neg hend]
      refine (if_neg hend).trans ?_
      exact ih ((q.expire now).round limit now time).1 ((q.expire now).round limit now time).2

/-- The times until the next completions, if there is a rate, and until the deadlines. -/
def events (q : Queue R) (limit : Option Nat) (now : R) : List R :=
  (if 0 < q.rate limit then
    (q.inFlight.take (served limit q.inFlight.length)).map fun t => t.remaining / q.rate limit
  else []) ++ q.inFlight.map fun t => t.deadline - now

/-- A step lasts until the first event. -/
theorem step_eq (q : Queue R) (limit : Option Nat) (now time : R) : q.step limit now time =
    Quantity.max ((q.events limit now).foldl Quantity.min (time - now)) 0 := by
  unfold step events
  dsimp only
  rw [List.foldl_append, List.foldl_map]
  split
  · rw [List.foldl_map]
  · rw [List.foldl_nil]

/-- The queue after what is served has sent for some time. -/
def send (q : Queue R) (limit : Option Nat) (d : R) : Queue R :=
  { q with inFlight := transmit (served limit q.inFlight.length) (q.rate limit * d) q.inFlight }

theorem length_send (q : Queue R) (limit : Option Nat) (d : R) :
    (q.send limit d).inFlight.length = q.inFlight.length := length_transmit _ _ _

theorem map_deadline_send (q : Queue R) (limit : Option Nat) (d : R) :
    (q.send limit d).inFlight.map Transmission.deadline = q.inFlight.map Transmission.deadline := by
  show (transmit _ _ _).map Transmission.deadline = _
  unfold transmit
  rw [List.map_append, List.map_map]
  show (List.take _ _).map Transmission.deadline ++ _ = _
  rw [← List.map_append, List.take_append_drop]

theorem rate_send (q : Queue R) (limit : Option Nat) (d : R) :
    (q.send limit d).rate limit = q.rate limit := by
  unfold rate
  rw [length_send]
  rfl

theorem take_send (q : Queue R) (limit : Option Nat) (d : R) :
    (q.send limit d).inFlight.take (served limit q.inFlight.length) =
      (q.inFlight.take (served limit q.inFlight.length)).map
        fun t => { t with remaining := t.remaining - q.rate limit * d } := by
  show (transmit _ _ _).take _ = _
  unfold transmit
  apply List.take_left'
  rw [List.length_map, List.length_take, Nat.min_eq_left (served_le limit _)]

theorem drop_send (q : Queue R) (limit : Option Nat) (d : R) :
    (q.send limit d).inFlight.drop (served limit q.inFlight.length) =
      q.inFlight.drop (served limit q.inFlight.length) := by
  show (transmit _ _ _).drop _ = _
  unfold transmit
  apply List.drop_left'
  rw [List.length_map, List.length_take, Nat.min_eq_left (served_le limit _)]

/-- Nothing that is served is done, and nothing is due. -/
structure Ongoing (q : Queue R) (limit : Option Nat) (now : R) : Prop where
  undone : ∀ t ∈ q.inFlight.take (served limit q.inFlight.length), isDone t = false
  notDue : ∀ t ∈ q.inFlight, isDue now t = false

/-- In a round without a completion what is served sends and is not done. -/
theorem round_of_silent (h : q.Silent (q.round limit now time).1)
    (hdue : ∀ t ∈ (q.round limit now time).1.inFlight, isDue (q.round limit now time).2 t = false) :
    (q.round limit now time).1 = q.send limit (q.step limit now time) ∧
      (q.send limit (q.step limit now time)).Ongoing limit (q.round limit now time).2 := by
  have hnone := List.append_right_eq_self.mp h.completed
  obtain ⟨hleft, hundone⟩ := retire_of_none hnone
  have hsent : (q.round limit now time).1 = q.send limit (q.step limit now time) := by
    unfold round send
    dsimp only
    rw [hnone, hleft, List.append_nil]
  refine ⟨hsent, ?_, ?_⟩
  · rw [length_send]
    exact hundone
  · rw [← hsent]
    exact hdue

end Reports

open Exact (fin posInf)

open Quantity (isFinite)

variable {q : Queue Exact} {limit : Option Nat} {a b c d r : ℚ}

section Done

variable {t : Transmission Exact}

theorem fin_lt_remaining (h : isDone t = false) : fin 0 < t.remaining := by
  unfold isDone at h
  rw [Bool.not_eq_false', decide_eq_true_eq] at h
  exact Exact.lt_of_le_of_lt (BandwidthLaws.le_of_lt (Exact.tolerance_mul_max_pos t.size)) h

theorem fin_lt_deadline (h : isDue (fin c) t = false) : fin c < t.deadline := by
  unfold isDue at h
  rw [Bool.not_eq_false', decide_eq_true_eq, Exact.tolerance_eq, Exact.fin_add_fin] at h
  have hle : fin c ≤ fin (c + 1 / 10 ^ 9) :=
    Exact.fin_le_fin.mpr (le_add_of_nonneg_right (by norm_num))
  exact Exact.lt_of_le_of_lt hle h

end Done

section Step

variable (hrate : q.rate limit = fin r)

include hrate

/-- What goes on has all its events ahead. -/
theorem Ongoing.ahead (h : q.Ongoing limit (fin a)) : ∀ x ∈ q.events limit (fin a), fin 0 < x := by
  intro x hx
  rcases List.mem_append.mp hx with hfinish | hdeadline
  · split at hfinish
    · rename_i hpos
      rw [hrate, Exact.fin_pos] at hpos
      obtain ⟨t, ht, rfl⟩ := List.mem_map.mp hfinish
      rw [hrate]
      exact Exact.fin_lt_div (fin_lt_remaining (h.undone t ht)) hpos
    · cases hfinish
  · obtain ⟨t, ht, rfl⟩ := List.mem_map.mp hdeadline
    exact Exact.fin_lt_sub (fin_lt_deadline (h.notDue t ht))

/-- After sending for some time all events are nearer by that time. -/
theorem events_send (a d : ℚ) : q.events limit (fin a) =
    ((q.send limit (fin d)).events limit (fin (a + d))).map (· + fin d) := by
  unfold events
  rw [length_send, rate_send, take_send, List.map_append, hrate, Exact.fin_mul_fin]
  congr 1
  -- The completions come nearer because less remains, the deadlines because time has passed.
  · split
    · rename_i hpos
      rw [Exact.fin_pos] at hpos
      rw [List.map_map, List.map_map]
      apply List.map_congr_left
      intro t _
      exact Exact.div_eq_sub_div_add t.remaining hpos d
    · rfl
  · have hdeadlines (q : Queue Exact) (now : Exact) : (q.inFlight.map fun t => t.deadline - now) =
        (q.inFlight.map Transmission.deadline).map fun x => x - now := by
      rw [List.map_map]
      rfl
    rw [hdeadlines, hdeadlines, map_deadline_send]
    generalize q.inFlight.map Transmission.deadline = deadlines
    rw [List.map_map]
    apply List.map_congr_left
    intro x _
    show x - fin a = x - fin (a + d) + fin d
    cases x with
    | fin y =>
      rw [Exact.fin_sub_fin, Exact.fin_sub_fin, Exact.fin_add_fin]
      congr 1
      ring
    -- What is no number, such as a deadline that never comes, stays what it is.
    | _ => rfl

/-- If a round neither completes anything nor ends where something is due, it goes all the way. -/
theorem step_of_ongoing (hab : a ≤ b)
    (h : (q.send limit (q.step limit (fin a) (fin b))).Ongoing limit
    (q.round limit (fin a) (fin b)).2) : q.step limit (fin a) (fin b) = fin (b - a) := by
  obtain ⟨s, hs, _, hsb⟩ := step_bounds q limit hab
  obtain ⟨c, hc, hlow, _⟩ := stepEnd_eq hsb
  have hreached : (q.round limit (fin a) (fin b)).2 = fin c := by
    show stepEnd (fin a) (fin b) (q.step limit (fin a) (fin b)) = fin c
    rw [hs, hc]
  rw [hs, hreached] at h
  -- The time reached may be later than the end of the step, but then nothing is due at the end
  -- either.
  have hstop : (q.send limit (fin s)).Ongoing limit (fin (a + s)) :=
    ⟨h.undone, fun t ht => not_isDue_of_le (Exact.fin_le_fin.mpr hlow) (h.notDue t ht)⟩
  have hafter := hstop.ahead (rate_send q limit _ ▸ hrate)
  have hfirst : (q.events limit (fin a)).foldl Quantity.min (fin (b - a)) ∈
      fin (b - a) :: q.events limit (fin a) :=
    Quantity.foldl_min_induction (fun y hy => List.mem_cons_of_mem _ hy) List.mem_cons_self
  have hlength := hs
  rw [step_eq, Exact.fin_sub_fin] at hlength
  rw [hs]
  generalize (q.events limit (fin a)).foldl Quantity.min (fin (b - a)) = first at hlength hfirst
  rcases List.mem_cons.mp hfirst with rfl | hevent
  · rw [Exact.max_fin_zero, sup_eq_left.mpr (sub_nonneg.mpr hab)] at hlength
    exact hlength.symm
  · -- The step ends no later than its first event, but all events are ahead of its end.
    exfalso
    rw [events_send hrate a s] at hevent
    obtain ⟨x, hx, rfl⟩ := List.mem_map.mp hevent
    rcases Exact.of_fin_lt (Exact.fin_lt_add (hafter x hx) s) with hnever | ⟨y, hy, hlt⟩
    · rw [hnever] at hlength
      cases hlength
    · rw [hy, Exact.max_fin_zero] at hlength
      have hle : y ≤ s := by
        rw [← Exact.fin.inj hlength]
        exact le_sup_left
      linarith

/-- A step that begins before a time without events goes on as the step from there. -/
theorem step_send (hd : 0 ≤ d) (hab : a + d < b)
    (h : (q.send limit (fin d)).Ongoing limit (fin (a + d))) :
    ∃ m : ℚ, (q.send limit (fin d)).step limit (fin (a + d)) (fin b) = fin m ∧
      q.step limit (fin a) (fin b) = fin (m + d) := by
  have hahead := h.ahead (rate_send q limit _ ▸ hrate)
  obtain ⟨m, hm, hfirst, hlater⟩ := Exact.foldl_min_ahead hahead (sub_pos.mpr hab) d
  refine ⟨m, ?_, ?_⟩
  · rw [step_eq, Exact.fin_sub_fin, hfirst, Exact.max_fin_zero, sup_eq_left.mpr hm.le]
  · have hwhole : b - a = b - (a + d) + d := by ring
    rw [step_eq, events_send hrate a d, Exact.fin_sub_fin, hwhole, hlater, Exact.max_fin_zero,
      sup_eq_left.mpr (add_nonneg hm.le hd)]

/-- In rounds that end nothing everything that is served sends all the time. -/
theorem rounds_of_silent {fuel : Nat} (hab : a < b) (hne : q.inFlight ≠ [])
    (h : q.Silent (rounds limit (fin b) (fuel + 1 + 1) q (fin a))) :
    rounds limit (fin b) (fuel + 1 + 1) q (fin a) = q.send limit (fin (b - a)) ∧
      (∀ t ∈ q.inFlight, isDue (fin a) t = false) ∧
      (q.send limit (fin (b - a))).Ongoing limit (fin b) := by
  have hstart := h.of_rounds
  rw [rounds_of_open hstart hne (Exact.fin_le_fin.not.mpr hab.not_ge)] at h ⊢
  -- Nothing ends in the first round, nor where it stops, so it goes all the way.
  obtain ⟨hround, hrest⟩ :=
    h.split (reports_round q limit (fin a) (fin b)) (reports_rounds _ _ _ _ _)
  obtain ⟨hsent, hongoing⟩ := round_of_silent hround hrest.of_rounds
  have hstep := step_of_ongoing hrate hab.le hongoing
  have hreached : (q.round limit (fin a) (fin b)).2 = fin b := by
    show stepEnd (fin a) (fin b) (q.step limit (fin a) (fin b)) = fin b
    unfold stepEnd
    rw [hstep, Exact.fin_add_fin, add_sub_cancel, ite_self]
  rw [hstep] at hsent
  rw [hstep, hreached] at hongoing
  rw [hsent, hreached]
  exact ⟨rounds_of_over hongoing.notDue (Exact.fin_le_fin.mpr le_rfl), hstart, hongoing⟩

variable (hleft : ∀ t ∈ q.inFlight.take (served limit q.inFlight.length),
    isFinite t.remaining = true)

include hleft

/-- To send for one time and then for another is to send for both. -/
theorem send_send (d e : ℚ) :
    (q.send limit (fin d)).send limit (fin e) = q.send limit (fin (e + d)) := by
  have hinFlight : ((q.send limit (fin d)).send limit (fin e)).inFlight =
      (q.send limit (fin (e + d))).inFlight := by
    show transmit (served limit (q.send limit (fin d)).inFlight.length) _
      (q.send limit (fin d)).inFlight = transmit (served limit q.inFlight.length) _ q.inFlight
    unfold transmit
    rw [length_send, rate_send, take_send, drop_send, List.map_map, hrate]
    congr 1
    apply List.map_congr_left
    intro t ht
    obtain ⟨y, hy⟩ := Exact.eq_fin_of_isFinite (hleft t ht)
    have hremaining : t.remaining - fin r * fin d - fin r * fin e =
        t.remaining - fin r * fin (e + d) := by
      rw [hy, Exact.fin_mul_fin, Exact.fin_mul_fin, Exact.fin_mul_fin, Exact.fin_sub_fin,
        Exact.fin_sub_fin, Exact.fin_sub_fin]
      congr 1
      ring
    exact congrArg (fun x => { t with remaining := x }) hremaining
  exact congrArg (fun l => { q with inFlight := l }) hinFlight

/-- So a round that begins before such a time ends as the round from there. -/
theorem round_send (hd : 0 ≤ d) (hab : a + d < b)
    (h : (q.send limit (fin d)).Ongoing limit (fin (a + d))) :
    (q.send limit (fin d)).round limit (fin (a + d)) (fin b) = q.round limit (fin a) (fin b) := by
  obtain ⟨m, hshort, hlong⟩ := step_send hrate hd hab h
  -- Whether the end of the interval counts as reached depends on where the step ends only.
  have hend : stepEnd (fin (a + d)) (fin b) (fin m) = stepEnd (fin a) (fin b) (fin (m + d)) := by
    unfold stepEnd
    rw [Exact.fin_add_fin, Exact.fin_add_fin, add_assoc, add_comm d m]
  have hsent := congrArg Queue.inFlight (send_send hrate hleft d m)
  have hsent' : transmit (served limit (q.send limit (fin d)).inFlight.length)
        ((q.send limit (fin d)).rate limit * fin m) (q.send limit (fin d)).inFlight =
      transmit (served limit q.inFlight.length) (q.rate limit * fin (m + d)) q.inFlight := hsent
  unfold round
  dsimp only
  rw [hshort, hlong, hend, hsent', length_send]
  rfl

/-- Rounds that begin before such a time go on as the rounds from there. -/
theorem rounds_send {fuel : Nat} (hab : a < b) (hbc : b < c) (hne : q.inFlight ≠ [])
    (hstart : ∀ t ∈ q.inFlight, isDue (fin a) t = false)
    (h : (q.send limit (fin (b - a))).Ongoing limit (fin b)) :
    rounds limit (fin c) (fuel + 1) (q.send limit (fin (b - a))) (fin b) =
      rounds limit (fin c) (fuel + 1) q (fin a) := by
  have hsent : (q.send limit (fin (b - a))).inFlight ≠ [] := by
    intro hnil
    have hlength := length_send q limit (fin (b - a))
    rw [hnil] at hlength
    exact hne (List.length_eq_zero_iff.mp hlength.symm)
  have hround : (q.send limit (fin (b - a))).round limit (fin b) (fin c) =
      q.round limit (fin a) (fin c) := by
    have hmiddle : a + (b - a) = b := add_sub_cancel a b
    have hmore := round_send (b := c) hrate hleft (sub_nonneg.mpr hab.le) (hmiddle.symm ▸ hbc)
      (hmiddle.symm ▸ h)
    rwa [hmiddle] at hmore
  -- The first round from either time ends in the same queue, and so do the others.
  rw [rounds_of_open hstart hne (Exact.fin_le_fin.not.mpr (hab.trans hbc).not_ge),
    rounds_of_open h.notDue hsent (Exact.fin_le_fin.not.mpr hbc.not_ge), hround]

end Step

/-- Bandwidth, clock and what remains are numbers. Sizes and deadlines may be anything. -/
structure Measured (q : Queue Exact) : Prop where
  bandwidth : isFinite q.bandwidth = true
  clock : isFinite q.lastUpdate = true
  remaining : ∀ t ∈ q.inFlight, isFinite t.remaining = true

theorem Measured.rate (h : q.Measured) (hne : q.inFlight ≠ []) :
    ∃ r : ℚ, q.rate q.discipline.limit = fin r := by
  obtain ⟨w, hw⟩ := Exact.eq_fin_of_isFinite h.bandwidth
  have hserved := served_ne_zero q.discipline _ (mt List.length_eq_zero_iff.mp hne)
  unfold Queue.rate
  rw [hw, Exact.ofNat_div_fin hserved]
  exact ⟨_, rfl⟩

section Flush

variable (hq : q.Measured) (hlast : q.lastUpdate = fin a)

include hlast

theorem advance_eq_rounds (hab : a ≤ b) : q.advance (fin b) =
    (rounds q.discipline.limit (fin b) q.roundLimit q (fin a)).withClock (fin b) := by
  rw [advance_eq, hlast, Exact.max_fin, sup_eq_right.mpr hab]

theorem Silent.of_advance (hab : a ≤ b) (h : q.Silent (q.advance (fin b))) :
    q.Silent (rounds q.discipline.limit (fin b) q.roundLimit q (fin a)) := by
  rw [advance_eq_rounds hlast hab] at h
  exact ⟨h.completed, h.failed⟩

/-- To advance a queue twice to the same time is to advance it once. -/
theorem advance_advance_self (b : ℚ) : (q.advance (fin b)).advance (fin b) = q.advance (fin b) := by
  have hclock : (q.advance (fin b)).lastUpdate = fin (a ⊔ b) := by
    rw [lastUpdate_advance, hlast, Exact.max_fin]
  have hdue : ∀ t ∈ (q.advance (fin b)).inFlight, isDue (fin (a ⊔ b)) t = false := by
    rcases le_total a b with hab | hba
    · rw [sup_eq_right.mpr hab]
      exact not_isDue_advance q (fin b)
    · -- A time that has passed only makes fail what is due now.
      have hrounds : (q.advance (fin b)).inFlight = (q.expire (fin a)).inFlight := by
        rw [advance_eq, hlast]
        show (rounds _ _ (4 * q.inFlight.length + 7 + 1) q (fin a)).inFlight = _
        rw [rounds_of_le (Exact.fin_le_fin.mpr hba)]
      rw [hrounds, sup_eq_left.mpr hba]
      exact not_isDue_expire q (fin a)
  have hover : ((q.advance (fin b)).inFlight.isEmpty ||
      decide (fin b ≤ (q.advance (fin b)).lastUpdate)) = true := by
    rw [Bool.or_eq_true, decide_eq_true_eq, hclock, Exact.fin_le_fin]
    exact Or.inr le_sup_right
  rw [← hclock] at hdue
  rw [advance_of_over hdue hover, hclock, Exact.max_fin, sup_assoc, sup_idem, ← hclock]

/-- An idle queue only tells the time. -/
theorem advance_after_idle (hab : a ≤ b) (hbc : b ≤ c) (hidle : q.inFlight = []) :
    (q.advance (fin b)).advance (fin c) = q.advance (fin c) := by
  have hfirst : q.advance (fin b) = q.withClock (fin b) := by
    rw [advance_of_idle hidle, hlast, Exact.max_fin, sup_eq_right.mpr hab]
    rfl
  have hagain : (q.withClock (fin b)).inFlight = [] := hidle
  have hclock : (q.withClock (fin b)).lastUpdate = fin b := rfl
  rw [hfirst, advance_of_idle hagain, advance_of_idle hidle, hclock, hlast, Exact.max_fin,
    Exact.max_fin, sup_eq_right.mpr hbc, sup_eq_right.mpr (hab.trans hbc)]
  rfl

/-- Where nothing is due, an advance to the present time does nothing. -/
theorem advance_now (h : q.Silent (q.advance (fin a))) : q.advance (fin a) = q := by
  have hsilent := h.of_advance hlast le_rfl
  obtain ⟨fuel, hfuel⟩ : ∃ k, q.roundLimit = k + 1 := ⟨4 * q.inFlight.length + 7, rfl⟩
  rw [hfuel] at hsilent
  rw [advance_eq_rounds hlast le_rfl, hfuel,
    rounds_of_over hsilent.of_rounds (Exact.fin_le_fin.mpr le_rfl), ← hlast]
  rfl

include hq

/-- After an advance that ends nothing the rest of a later one is what it would have been. -/
theorem advance_after_silent (hab : a < b) (hbc : b < c) (hne : q.inFlight ≠ [])
    (h : q.Silent (q.advance (fin b))) :
    (q.advance (fin b)).advance (fin c) = q.advance (fin c) := by
  obtain ⟨r, hr⟩ := hq.rate hne
  have hserved : ∀ t ∈ q.inFlight.take (served q.discipline.limit q.inFlight.length),
      isFinite t.remaining = true := fun t ht => hq.remaining t (List.mem_of_mem_take ht)
  have hsilent := h.of_advance hlast hab.le
  obtain ⟨fuel, hfuel⟩ : ∃ k, q.roundLimit = k + 1 + 1 := ⟨4 * q.inFlight.length + 6, rfl⟩
  rw [hfuel] at hsilent
  obtain ⟨hrounds, hstart, hongoing⟩ := rounds_of_silent hr hab hne hsilent
  have hfirst : q.advance (fin b) = (q.send q.discipline.limit (fin (b - a))).withClock
      (fin b) := by
    rw [advance_eq_rounds hlast hab.le, hfuel, hrounds]
  have hlimit : ((q.send q.discipline.limit (fin (b - a))).withClock (fin b)).roundLimit =
      fuel + 1 + 1 := by
    rw [← hfuel]
    show 4 * (q.send q.discipline.limit (fin (b - a))).inFlight.length + 8 = _
    rw [length_send]
    rfl
  have hclock : ((q.send q.discipline.limit (fin (b - a))).withClock (fin b)).lastUpdate = fin b :=
    rfl
  have hdiscipline : ((q.send q.discipline.limit (fin (b - a))).withClock (fin b)).discipline =
      q.discipline := rfl
  rw [hfirst, advance_eq_rounds hclock hbc.le, advance_eq_rounds hlast (hab.trans hbc).le,
    hlimit, hfuel, hdiscipline, rounds_withClock,
    rounds_send hr hserved hab hbc hne hstart hongoing]
  rfl

end Flush

/-- An advance to a time at which nothing ends does not show in a later one: what is in flight and
how much of it remains, what has completed or failed and when, the clock, and whether a completion
is reported, all are the same as without it. To advance twice to the same time is to advance
once. -/
theorem silent_flush_invisible {q : Queue Exact} (hq : q.Measured) :
    (∀ b c : ℚ, q.lastUpdate ≤ fin b → b ≤ c → (q.advance (fin b)).completed = q.completed →
      (q.advance (fin b)).failed = q.failed →
      (q.advance (fin b)).advance? (fin c) = q.advance? (fin c)) ∧
    ∀ b : ℚ, (q.advance (fin b)).advance (fin b) = q.advance (fin b) := by
  obtain ⟨a, ha⟩ := Exact.eq_fin_of_isFinite hq.clock
  refine ⟨fun b c hab hbc hcompleted hfailed => ?_, advance_advance_self ha⟩
  rw [ha, Exact.fin_le_fin] at hab
  have hsilent : q.Silent (q.advance (fin b)) := ⟨hcompleted, hfailed⟩
  have hsame : (q.advance (fin b)).advance (fin c) = q.advance (fin c) := by
    by_cases hne : q.inFlight = []
    · exact advance_after_idle ha hab hbc hne
    · rcases hab.eq_or_lt with rfl | hab
      · rw [advance_now ha hsilent]
      · rcases hbc.eq_or_lt with rfl | hbc
        · exact advance_advance_self ha b
        · exact advance_after_silent hq ha hab hbc hne hsilent
  unfold advance?
  rw [hsame, hcompleted]

/-- Two transmissions share ten units a second. Nothing ends after two seconds; after twenty seconds
both have ended, one of them at its deadline. -/
theorem pair_flush_invisible :
    let t : Transmission Exact := .ofPacket ⟨⟨0, 1, 2, 7⟩, [], 100, none, 1⟩ 0
    let q : Queue Exact :=
      { Queue.empty .spaceShared none with
        bandwidth := 10
        inFlight := [t, { t with timeout := some 15 }] }
    q.Measured ∧ q.lastUpdate ≤ fin 2 ∧ (q.advance (fin 2)).completed = q.completed ∧
      (q.advance (fin 2)).failed = q.failed ∧
      (q.advance (fin 2)).advance? (fin 20) = q.advance? (fin 20) := by
  intro t q
  have hq : q.Measured := by
    refine ⟨rfl, rfl, ?_⟩
    rw [List.forall_mem_cons, List.forall_mem_singleton]
    exact ⟨rfl, rfl⟩
  have hclock : q.lastUpdate ≤ fin 2 := by decide +kernel
  have hcompleted : (q.advance (fin 2)).completed = [] := by
    rw [← List.isEmpty_iff]
    decide +kernel
  have hfailed : (q.advance (fin 2)).failed = [] := by
    rw [← List.isEmpty_iff]
    decide +kernel
  exact ⟨hq, hclock, hcompleted, hfailed,
    (silent_flush_invisible hq).1 2 20 hclock (by decide +kernel) hcompleted hfailed⟩

end Queue

end FlowFabric
