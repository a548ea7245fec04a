import FlowFabric.Proofs.Quantity.Order
import FlowFabric.Queue
import Mathlib.Algebra.Order.Group.Multiset
import Mathlib.Tactic.Abel

namespace FlowFabric

variable {R : Type}

/-- The number of the packet. -/
def Transmission.number (t : Transmission R) : Nat := t.packet.header.id

/-- What tells a transmission apart: its packet and the time at which it was sent. -/
def Transmission.origin (t : Transmission R) : Packet R × R := (t.packet, t.start)

/-- The transmissions of a list, whatever their order and progress. -/
def origins (l : List (Transmission R)) : Multiset (Packet R × R) := ↑(l.map Transmission.origin)

@[simp] theorem origins_nil : origins ([] : List (Transmission R)) = 0 := rfl

@[simp] theorem origins_append (l m : List (Transmission R)) :
    origins (l ++ m) = origins l + origins m := by
  unfold origins
  rw [List.map_append, Multiset.coe_add]

theorem origins_cons (t : Transmission R) (l : List (Transmission R)) :
    origins (t :: l) = t.origin ::ₘ origins l := rfl

theorem card_origins (l : List (Transmission R)) : (origins l).card = l.length := by
  unfold origins
  rw [Multiset.coe_card, List.length_map]

theorem origins_map {f : Transmission R → Transmission R} (hf : ∀ t, (f t).origin = t.origin)
    (l : List (Transmission R)) : origins (l.map f) = origins l := by
  unfold origins
  have hcomp : Transmission.origin ∘ f = Transmission.origin := funext hf
  rw [List.map_map, hcomp]

theorem origins_filter_add (p : Transmission R → Bool) (l : List (Transmission R)) :
    origins (l.filter fun t => !p t) + origins (l.filter p) = origins l := by
  rw [add_comm, ← origins_append]
  exact Quot.sound ((List.filter_append_perm p l).map _)

namespace Queue

variable [Quantity R]

/-- All transmissions of a queue, in flight or ended. -/
def contents (q : Queue R) : Multiset (Packet R × R) :=
  origins q.inFlight + origins q.completed + origins q.failed

theorem contents_expire (q : Queue R) (now : R) : (q.expire now).contents = q.contents := by
  unfold contents expire
  dsimp only
  rw [origins_append, origins_map (fun _ => by rfl), ← origins_filter_add (isDue now) q.inFlight]
  abel

theorem origins_transmit (n : Nat) (amount : R) (l : List (Transmission R)) :
    origins (transmit n amount l) = origins l := by
  unfold transmit
  rw [origins_append, origins_map (fun _ => by rfl), ← origins_append, List.take_append_drop]

theorem length_transmit (n : Nat) (amount : R) (l : List (Transmission R)) :
    (transmit n amount l).length = l.length := by
  rw [← card_origins, origins_transmit, card_origins]

theorem origins_retire (now : R) (n : Nat) (l : List (Transmission R)) :
    origins (retire now n l).1 + origins (retire now n l).2 = origins l := by
  induction l generalizing n with
  | nil => rfl
  | cons t rest ih =>
    cases n with
    | zero => exact zero_add _
    | succ n =>
      unfold retire
      split
      · have h := ih (n + 1)
        dsimp only
        rw [origins_cons, origins_cons, Multiset.cons_add, h]
        rfl
      · have h := ih n
        dsimp only
        rw [origins_cons, origins_cons, Multiset.add_cons, h]

/-- What is retired differs from what it was in what remains and in the time of its end. -/
theorem mem_retire_done {now : R} {n : Nat} {l : List (Transmission R)} {t : Transmission R}
    (ht : t ∈ (retire now n l).1) :
    ∃ u ∈ l, t = { u with remaining := 0, finish := some now } := by
  induction l generalizing n with
  | nil => cases n <;> cases ht
  | cons u rest ih =>
    have hlater {m : Nat} (h : t ∈ (retire now m rest).1) :
        ∃ v ∈ u :: rest, t = { v with remaining := 0, finish := some now } := by
      obtain ⟨v, hv, he⟩ := ih h
      exact ⟨v, List.mem_cons_of_mem _ hv, he⟩
    cases n with
    | zero => cases ht
    | succ n =>
      unfold retire at ht
      split at ht
      · rcases List.mem_cons.mp ht with rfl | ht
        · exact ⟨u, List.mem_cons_self, rfl⟩
        · exact hlater ht
      · exact hlater ht

/-- What is not retired keeps its order and is as it was. -/
theorem retire_sublist (now : R) (n : Nat) (l : List (Transmission R)) :
    (retire now n l).2.Sublist l := by
  induction l generalizing n with
  | nil => cases n <;> exact List.Sublist.refl []
  | cons t rest ih =>
    cases n with
    | zero => exact List.Sublist.refl _
    | succ n =>
      unfold retire
      split
      · exact (ih (n + 1)).cons t
      · exact (ih n).cons_cons t

theorem mem_of_mem_retire {now : R} {n : Nat} {l : List (Transmission R)} {t : Transmission R}
    (ht : t ∈ (retire now n l).2) : t ∈ l :=
  (retire_sublist now n l).subset ht

theorem contents_round (q : Queue R) (limit : Option Nat) (now time : R) :
    (q.round limit now time).1.contents = q.contents := by
  have h := origins_retire (stepEnd now time (q.step limit now time))
    (served limit q.inFlight.length)
    (transmit (served limit q.inFlight.length) (q.rate limit * q.step limit now time) q.inFlight)
  rw [origins_transmit] at h
  unfold contents round
  dsimp only
  rw [origins_append, ← h]
  abel

/-- What neither failures nor a round change is the same after any rounds. -/
theorem same_rounds {α : Type} (f : Queue R → α) (hexpire : ∀ q now, f (q.expire now) = f q)
    (hround : ∀ q limit now time, f (q.round limit now time).1 = f q) (limit : Option Nat)
    (time : R) (fuel : Nat) (q : Queue R) (now : R) : f (rounds limit time fuel q now) = f q := by
  induction fuel generalizing q now with
  | zero => exact hexpire q time
  | succ fuel ih =>
    unfold rounds
    dsimp only
    split
    · exact hexpire q now
    · rw [ih, hround, hexpire]

/-- No transmission is lost or doubled by the progress of time. -/
theorem contents_advance (q : Queue R) (time : R) : (q.advance time).contents = q.contents :=
  same_rounds contents contents_expire contents_round _ _ _ _ _

theorem lastUpdate_advance (q : Queue R) (time : R) :
    (q.advance time).lastUpdate = Quantity.max q.lastUpdate time := by
  show Quantity.max (rounds _ _ _ _ _).lastUpdate time = _
  rw [same_rounds lastUpdate (fun _ _ => rfl) fun _ _ _ _ => rfl]

@[simp] theorem bandwidth_advance (q : Queue R) (time : R) :
    (q.advance time).bandwidth = q.bandwidth :=
  same_rounds bandwidth (fun _ _ => rfl) (fun _ _ _ _ => rfl) _ _ _ _ _

theorem defaultTimeout_advance (q : Queue R) (time : R) :
    (q.advance time).defaultTimeout = q.defaultTimeout :=
  same_rounds defaultTimeout (fun _ _ => rfl) (fun _ _ _ _ => rfl) _ _ _ _ _

/-- After a step, what is still in flight is not done, or it was waiting and is as it was. -/
theorem mem_retire_transmit {now amount : R} {n m : Nat} (h : n ≤ m) {l : List (Transmission R)}
    {t : Transmission R} (ht : t ∈ (retire now m (transmit n amount l)).2) :
    t ∈ l ∨ isDone t = false := by
  induction l generalizing n m with
  | nil =>
    rw [transmit, List.take_nil, List.drop_nil] at ht
    cases ht
  | cons u rest ih =>
    obtain ⟨u', hcons⟩ :
        ∃ u', transmit n amount (u :: rest) = u' :: transmit (n - 1) amount rest := by
      cases n <;> exact ⟨_, rfl⟩
    cases m with
    | zero =>
      -- Nobody is served, so that nothing has changed.
      obtain rfl : n = 0 := Nat.le_zero.mp h
      exact Or.inl ht
    | succ m =>
      have hrest {k : Nat} (hk : n - 1 ≤ k)
          (hmem : t ∈ (retire now k (transmit (n - 1) amount rest)).2) :
          t ∈ u :: rest ∨ isDone t = false :=
        (ih hk hmem).imp_left (List.mem_cons_of_mem u)
      rw [hcons, retire] at ht
      split at ht
      · exact hrest (by omega) ht
      · rename_i hleft
        rcases List.mem_cons.mp ht with rfl | hmem
        · exact Or.inr (Bool.eq_false_iff.mpr hleft)
        · exact hrest (by omega) hmem

theorem mem_inFlight_rounds {limit : Option Nat} {time : R} {fuel : Nat} {q : Queue R} {now : R}
    {t : Transmission R} (ht : t ∈ (rounds limit time fuel q now).inFlight) :
    t ∈ q.inFlight ∨ isDone t = false := by
  induction fuel generalizing q now with
  | zero => exact Or.inl (List.mem_filter.mp ht).1
  | succ fuel ih =>
    unfold rounds at ht
    dsimp only at ht
    split at ht
    · exact Or.inl (List.mem_filter.mp ht).1
    · rcases ih ht with hround | hleft
      · rcases mem_retire_transmit (Nat.le_refl _) hround with hkept | hleft
        · exact Or.inl (List.mem_filter.mp hkept).1
        · exact Or.inr hleft
      · exact Or.inr hleft

/-- What is still in flight after an advance is not done, or it has not been touched. -/
theorem mem_inFlight_advance {q : Queue R} {time : R} {t : Transmission R}
    (ht : t ∈ (q.advance time).inFlight) : t ∈ q.inFlight ∨ isDone t = false :=
  mem_inFlight_rounds ht

variable [OrderLaws R]

theorem not_isDue_of_le {now time : R} (h : time ≤ now) {t : Transmission R}
    (ht : isDue now t = false) : isDue time t = false := by
  unfold isDue at ht ⊢
  rw [Bool.not_eq_false', decide_eq_true_eq] at ht ⊢
  exact OrderLaws.add_lt_of_le h ht

omit [OrderLaws R] in
theorem not_isDue_expire (q : Queue R) (now : R) :
    ∀ t ∈ (q.expire now).inFlight, isDue now t = false := by
  intro t ht
  have hkept := (List.mem_filter.mp ht).2
  rwa [Bool.not_eq_true'] at hkept

theorem not_isDue_rounds (limit : Option Nat) (time : R) (fuel : Nat) (q : Queue R) (now : R) :
    ∀ t ∈ (rounds limit time fuel q now).inFlight, isDue time t = false := by
  induction fuel generalizing q now with
  | zero => exact not_isDue_expire q time
  | succ fuel ih =>
    unfold rounds
    dsimp only
    split
    · rename_i hend
      intro t ht
      have hdue := not_isDue_expire q now t ht
      rw [Bool.or_eq_true, List.isEmpty_iff, decide_eq_true_eq] at hend
      -- The last round has nothing left in flight, or it has reached the time.
      rcases hend with hempty | hle
      · rw [hempty] at ht
        cases ht
      · exact not_isDue_of_le hle hdue
    · exact ih _ _

theorem not_isDue_advance (q : Queue R) (time : R) :
    ∀ t ∈ (q.advance time).inFlight, isDue time t = false :=
  not_isDue_rounds _ _ _ _ _

omit [OrderLaws R] in
theorem expire_of_not_isDue {q : Queue R} {now : R} (h : ∀ t ∈ q.inFlight, isDue now t = false) :
    q.expire now = q := by
  have hkeep : q.inFlight.filter (fun t => !isDue now t) = q.inFlight := by
    refine List.filter_eq_self.mpr fun t ht => ?_
    rw [h t ht]
    rfl
  have hgone : q.inFlight.filter (isDue now) = [] := by
    refine List.filter_eq_nil_iff.mpr fun t ht => ?_
    rw [h t ht]
    exact Bool.false_ne_true
  unfold expire
  rw [hkeep, hgone, List.map_nil, List.append_nil]

omit [OrderLaws R] in
/-- An advance that finds nothing due and nothing to do only sets the clock. -/
theorem advance_of_over {q : Queue R} {time : R}
    (h : ∀ t ∈ q.inFlight, isDue q.lastUpdate t = false)
    (hend : (q.inFlight.isEmpty || decide (time ≤ q.lastUpdate)) = true) :
    q.advance time = { q with lastUpdate := Quantity.max q.lastUpdate time } := by
  have hrounds : rounds q.discipline.limit time q.roundLimit q q.lastUpdate = q := by
    unfold roundLimit rounds
    rw [expire_of_not_isDue h]
    exact if_pos hend
  show { rounds q.discipline.limit time q.roundLimit q q.lastUpdate with
    lastUpdate := Quantity.max
      (rounds q.discipline.limit time q.roundLimit q q.lastUpdate).lastUpdate time } = _
  rw [hrounds]

omit [OrderLaws R] in
/-- Time alone does nothing to a queue without transmissions. -/
theorem advance_of_idle {q : Queue R} (h : q.inFlight = []) (time : R) :
    q.advance time = { q with lastUpdate := Quantity.max q.lastUpdate time } := by
  apply advance_of_over
  · rw [h]
    exact fun t ht => by cases ht
  · rw [h]
    rfl

/-- A queue that has been advanced to the time and collected.
Without transmissions its clock does not matter. -/
structure Quiet (q : Queue R) (time : R) : Prop where
  completed : q.completed = []
  failed : q.failed = []
  current : ∀ t ∈ q.inFlight, q.lastUpdate = time ∧ isDue time t = false

omit [OrderLaws R] in
theorem quiet_empty (discipline : Discipline) (timeout : Option R) (time : R) :
    (Queue.empty discipline timeout).Quiet time where
  completed := rfl
  failed := rfl
  current _ ht := by cases ht

/-- An advance and a collection make a queue quiet. -/
theorem quiet_collect_advance {q : Queue R} {time : R} (h : q.inFlight ≠ [] → q.lastUpdate ≤ time) :
    (q.advance time).collect.Quiet time where
  completed := rfl
  failed := rfl
  current t ht := by
    refine ⟨?_, not_isDue_advance q time t ht⟩
    -- What is in flight afterwards was in flight before, so that the clock was running.
    have hne : q.inFlight ≠ [] := by
      intro hnil
      have hmem : t ∈ (q.advance time).inFlight := ht
      rw [advance_of_idle hnil, hnil] at hmem
      cases hmem
    show (q.advance time).lastUpdate = time
    rw [lastUpdate_advance, OrderLaws.max_eq_right (h hne)]

namespace Quiet

variable {q : Queue R} {time : R}

omit [OrderLaws R] in
/-- A queue that carries something has been advanced to the present. -/
theorem lastUpdate_eq (h : q.Quiet time) (hne : q.inFlight ≠ []) : q.lastUpdate = time := by
  obtain ⟨t, ht⟩ := List.exists_mem_of_ne_nil _ hne
  exact (h.current t ht).1

/-- Nothing happens to a quiet queue that is advanced to the present once more. -/
theorem advance (h : q.Quiet time) (ht : time ≤ time) :
    (q.advance time).inFlight = q.inFlight ∧ (q.advance time).Quiet time := by
  -- The first round finds nothing due and no time left, so that it is the last one.
  have hend : (q.inFlight.isEmpty || decide (time ≤ q.lastUpdate)) = true := by
    by_cases hne : q.inFlight = []
    · rw [hne]
      rfl
    · rw [h.lastUpdate_eq hne, decide_eq_true ht, Bool.or_true]
  have hdue : ∀ t ∈ q.inFlight, isDue q.lastUpdate t = false := by
    intro t ht
    obtain ⟨hlast, hdue⟩ := h.current t ht
    rwa [hlast]
  rw [advance_of_over hdue hend]
  refine ⟨rfl, h.completed, h.failed, ?_⟩
  intro t hmem
  obtain ⟨hlast, hdue⟩ := h.current t hmem
  refine ⟨?_, hdue⟩
  show Quantity.max q.lastUpdate time = time
  rw [hlast, OrderLaws.max_eq_right ht]

omit [OrderLaws R] in
theorem lastUpdate_add (h : q.Quiet time) (t : Transmission R) :
    (q.add t time).lastUpdate = time := by
  show (if q.inFlight.isEmpty then time else q.lastUpdate) = time
  split
  · rfl
  · rename_i hne
    exact h.lastUpdate_eq fun hnil => hne (List.isEmpty_iff.mpr hnil)

end Quiet

end Queue

end FlowFabric
