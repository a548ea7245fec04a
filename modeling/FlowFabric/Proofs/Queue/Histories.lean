import FlowFabric.Proofs.Queue.Passes

/-! A queue never looks at the packets, so that they could as well carry the numbers in which they
were added. Transmissions are told apart by these. -/

namespace FlowFabric

namespace Transmission

variable {R : Type}

/-- The same transmission of a packet with another number. -/
def renumber (f : Nat → Nat) (t : Transmission R) : Transmission R :=
  { t with packet := { t.packet with header := { t.packet.header with id := f t.number } } }

theorem renumber_renumber (f g : Nat → Nat) (t : Transmission R) :
    (t.renumber g).renumber f = t.renumber (f ∘ g) := rfl

theorem renumber_eq_self {f : Nat → Nat} {t : Transmission R} (h : f t.number = t.number) :
    t.renumber f = t := by
  unfold renumber
  rw [h]
  rfl

end Transmission

namespace Queue

open Transmission (number)

section Renumber

variable {R : Type} [Quantity R] (f : Nat → Nat)

def renumber (q : Queue R) : Queue R :=
  { q with
    inFlight := q.inFlight.map (Transmission.renumber f)
    completed := q.completed.map (Transmission.renumber f)
    failed := q.failed.map (Transmission.renumber f) }

omit [Quantity R] in
theorem renumber_add (q : Queue R) (t : Transmission R) (time : R) :
    (q.renumber f).add (t.renumber f) time = (q.add t time).renumber f := by
  unfold add renumber
  dsimp only
  rw [List.isEmpty_map, List.map_append]
  rfl

theorem renumber_expire (q : Queue R) (now : R) :
    (q.renumber f).expire now = (q.expire now).renumber f := by
  unfold expire renumber
  dsimp only
  rw [List.filter_map, List.filter_map, List.map_append, List.map_map, List.map_map]
  rfl

theorem renumber_transmit (n : Nat) (amount : R) (l : List (Transmission R)) :
    transmit n amount (l.map (Transmission.renumber f)) =
      (transmit n amount l).map (Transmission.renumber f) := by
  unfold transmit
  rw [← List.map_take, ← List.map_drop, List.map_append, List.map_map, List.map_map]
  rfl

theorem renumber_retire (now : R) (n : Nat) (l : List (Transmission R)) :
    retire now n (l.map (Transmission.renumber f)) =
      ((retire now n l).1.map (Transmission.renumber f),
        (retire now n l).2.map (Transmission.renumber f)) := by
  induction l generalizing n with
  | nil => cases n <;> rfl
  | cons t rest ih =>
    cases n with
    | zero => rfl
    | succ n =>
      have hdone : isDone (t.renumber f) = isDone t := rfl
      rw [List.map_cons]
      unfold retire
      rw [hdone, ih, ih]
      split <;> rfl

theorem renumber_step (q : Queue R) (limit : Option Nat) (now time : R) :
    (q.renumber f).step limit now time = q.step limit now time := by
  unfold step rate renumber
  dsimp only
  rw [List.length_map, ← List.map_take, List.foldl_map, List.foldl_map]
  rfl

theorem renumber_round (q : Queue R) (limit : Option Nat) (now time : R) :
    (q.renumber f).round limit now time =
      ((q.round limit now time).1.renumber f, (q.round limit now time).2) := by
  have hlength : (q.renumber f).inFlight.length = q.inFlight.length := List.length_map _
  have hrate : (q.renumber f).rate limit = q.rate limit := by
    unfold rate
    rw [hlength]
    rfl
  have hinFlight : (q.renumber f).inFlight = q.inFlight.map (Transmission.renumber f) := rfl
  unfold round
  dsimp only
  rw [hlength, hrate, renumber_step, hinFlight, renumber_transmit, renumber_retire]
  unfold renumber
  dsimp only
  rw [List.map_append]

theorem renumber_rounds (limit : Option Nat) (time : R) (fuel : Nat) (q : Queue R) (now : R) :
    rounds limit time fuel (q.renumber f) now = (rounds limit time fuel q now).renumber f := by
  induction fuel generalizing q now with
  | zero => exact renumber_expire f q time
  | succ fuel ih =>
    have hempty (q : Queue R) : (q.renumber f).inFlight.isEmpty = q.inFlight.isEmpty :=
      List.isEmpty_map
    unfold rounds
    dsimp only
    rw [renumber_expire, hempty, renumber_round]
    dsimp only
    rw [ih]
    split <;> rfl

/-- What happens to transmissions does not depend on their numbers. -/
theorem renumber_advance (q : Queue R) (time : R) :
    (q.renumber f).advance time = (q.advance time).renumber f := by
  have hlimit : (q.renumber f).roundLimit = q.roundLimit := by
    unfold roundLimit renumber
    rw [List.length_map]
  unfold advance advanceServing
  rw [hlimit]
  show { rounds q.discipline.limit time q.roundLimit (q.renumber f) q.lastUpdate with
    lastUpdate := Quantity.max
      (rounds q.discipline.limit time q.roundLimit (q.renumber f) q.lastUpdate).lastUpdate time } =
        _
  rw [renumber_rounds]
  rfl

omit [Quantity R] in
theorem length_completed_renumber (q : Queue R) :
    (q.renumber f).completed.length = q.completed.length :=
  List.length_map _

theorem stops_renumber {time : R} (q : Queue R) (now : R) :
    Stops time (q.renumber f, now) ↔ Stops time (q, now) := by
  unfold Stops
  rw [renumber_expire]
  exact or_congr_left List.map_eq_nil_iff

theorem pass_renumber (limit : Option Nat) (time : R) (q : Queue R) (now : R) :
    pass limit time (q.renumber f, now) =
      ((pass limit time (q, now)).1.renumber f, (pass limit time (q, now)).2) := by
  unfold pass
  rw [renumber_expire, renumber_round]

/-- Nor does the way of the loop. -/
theorem Loop.of_renumber {limit : Option Nat} {time now : R} {q r : Queue R}
    {trace : List (Queue R × R)} (h : Loop limit time (q.renumber f, now) trace r) :
    ∃ trace' q', Loop limit time (q, now) trace' q' ∧ r = q'.renumber f := by
  generalize hs : (q.renumber f, now) = s at h
  induction h generalizing q now with
  | stop hstops =>
    subst hs
    exact ⟨_, _, .stop ((stops_renumber f q now).mp hstops), renumber_expire f q now⟩
  | pass hgoes _ ih =>
    subst hs
    obtain ⟨trace', q', hrest, hr⟩ := ih (pass_renumber f limit time q now).symm
    exact ⟨_, q', .pass (mt (stops_renumber f q now).mpr hgoes) hrest, hr⟩

end Renumber

section Served

variable {R : Type} [Quantity R] {limit : Option Nat} {time : R} {q q' : Queue R}

/-- The first queue comes to be the second one by failures, rounds and changes of the clock. This is
all that an advance does, however many rounds it makes. -/
inductive Served (limit : Option Nat) (time : R) (q : Queue R) : Queue R → Prop
  | refl : Served limit time q q
  | expire {q' : Queue R} (h : Served limit time q q') (now : R) :
      Served limit time q (q'.expire now)
  | round {q' : Queue R} (h : Served limit time q q') (now : R) :
      Served limit time q (q'.round limit now time).1
  | withClock {q' : Queue R} (h : Served limit time q q') (clock : R) :
      Served limit time q (q'.withClock clock)

theorem served_advance (q : Queue R) (time : R) :
    Served q.discipline.limit time q (q.advance time) := by
  rw [advance_eq]
  refine .withClock ?_ _
  exact rounds_induction (P := Served q.discipline.limit time q) (fun _ now h => h.expire now)
    (fun _ now h => h.round now) q.roundLimit .refl q.lastUpdate

theorem Loop.served {s : Queue R × R} {trace : List (Queue R × R)} (h : Loop limit time s trace q')
    (hs : Served limit time q s.1) : Served limit time q q' := by
  induction h with
  | stop => exact hs.expire _
  | pass _ _ ih => exact ih ((hs.expire _).round _)

namespace Served

theorem discipline_eq (h : Served limit time q q') : q'.discipline = q.discipline := by
  induction h with
  | refl => rfl
  | expire _ _ ih | round _ _ ih | withClock _ _ ih => exact ih

theorem contents_eq (h : Served limit time q q') : q'.contents = q.contents := by
  induction h with
  | refl => rfl
  | expire _ now ih => exact (contents_expire _ now).trans ih
  | round _ now ih => exact (contents_round _ limit now time).trans ih
  | withClock _ _ ih => exact ih

theorem reports (h : Served limit time q q') : q.Reports q' := by
  induction h with
  | refl => exact .refl q
  | expire _ now ih => exact ih.trans (reports_expire _ now)
  | round _ now ih => exact ih.trans (reports_round _ limit now time)
  | withClock _ _ ih => exact ⟨ih.completed, ih.failed⟩

end Served

theorem map_origin_transmit (n : Nat) (amount : R) (l : List (Transmission R)) :
    (transmit n amount l).map Transmission.origin = l.map Transmission.origin := by
  unfold transmit
  rw [List.map_append, List.map_map]
  show (l.take n).map Transmission.origin ++ _ = _
  rw [← List.map_append, List.take_append_drop]

/-- What stays in flight keeps its order. -/
theorem Served.inFlight_sublist (h : Served limit time q q') :
    (q'.inFlight.map Transmission.origin).Sublist (q.inFlight.map Transmission.origin) := by
  induction h with
  | refl => exact List.Sublist.refl _
  | expire _ now ih => exact (List.filter_sublist.map Transmission.origin).trans ih
  | @round r _ now ih =>
    have hround := (retire_sublist (r.round limit now time).2 (served limit r.inFlight.length)
      (transmit (served limit r.inFlight.length) (r.rate limit * r.step limit now time)
        r.inFlight)).map Transmission.origin
    rw [map_origin_transmit] at hround
    exact hround.trans ih
  | withClock _ _ ih => exact ih

/-- If only the first one can be retired, what is retired was ahead of what is not. -/
theorem map_origin_retire_one {n : Nat} (hn : n ≤ 1) (now : R) (l : List (Transmission R)) :
    ((retire now n l).1 ++ (retire now n l).2).map Transmission.origin =
      l.map Transmission.origin := by
  induction l with
  | nil => cases n <;> rfl
  | cons t rest ih =>
    cases n with
    | zero => rfl
    | succ n =>
      obtain rfl : n = 0 := Nat.le_zero.mp (Nat.le_of_succ_le_succ hn)
      unfold retire
      split
      · exact congrArg (t.origin :: ·) ih
      · have hnone : retire now 0 rest = ([], rest) := by cases rest <;> rfl
        rw [hnone]
        rfl

/-- A queue that serves one after the other completes them in their order. -/
theorem Served.completed_sublist (h : Served (some 1) time q q') :
    ((q'.completed ++ q'.inFlight).map Transmission.origin).Sublist
      ((q.completed ++ q.inFlight).map Transmission.origin) := by
  induction h with
  | refl => exact List.Sublist.refl _
  | expire _ now ih =>
    refine List.Sublist.trans (List.Sublist.map _ ?_) ih
    exact (List.Sublist.refl _).append List.filter_sublist
  | @round r _ now ih =>
    -- Only the first one is served, so that a round moves the border between the two lists at most.
    have hone : served (some 1) r.inFlight.length ≤ 1 := Nat.min_le_right _ 1
    have hround := map_origin_retire_one hone (r.round (some 1) now time).2
      (transmit (served (some 1) r.inFlight.length) (r.rate (some 1) * r.step (some 1) now time)
        r.inFlight)
    rw [map_origin_transmit] at hround
    have hsame : ((r.round (some 1) now time).1.completed ++
        (r.round (some 1) now time).1.inFlight).map Transmission.origin =
          (r.completed ++ r.inFlight).map Transmission.origin := by
      show ((r.completed ++ _) ++ _).map _ = _
      rw [List.append_assoc, List.map_append]
      refine (congrArg (r.completed.map Transmission.origin ++ ·) hround).trans ?_
      exact List.map_append.symm
    rw [hsame]
    exact ih
  | withClock _ _ ih => exact ih

/-- A property of waiting transmissions that does not depend on how much remains lasts as long as
they wait, and it tells what is done or lost. -/
theorem Served.ends {waiting done lost : Transmission R → Prop} (h : Served limit time q q')
    (hq : ∀ t ∈ q.inFlight, waiting t)
    (hsend : ∀ t r, waiting t → waiting { t with remaining := r })
    (hdone : ∀ t now, waiting t → done { t with remaining := 0, finish := some now })
    (hlost : ∀ t now, waiting t → lost { t with finish := some now }) :
    Ends done lost q q' ∧ ∀ t ∈ q'.inFlight, waiting t := by
  induction h with
  | refl => exact ⟨.of_eq rfl rfl, hq⟩
  | expire _ now ih =>
    obtain ⟨hends, hwait⟩ := ih
    refine ⟨hends.trans (ends_expire fun t ht _ => hlost t now (hwait t ht)), fun t ht => ?_⟩
    exact hwait t (List.mem_filter.mp ht).1
  | round _ now ih =>
    obtain ⟨hends, hwait⟩ := ih
    refine ⟨hends.trans (ends_round fun t ht => hdone t _ (hwait t ht)), fun t ht => ?_⟩
    obtain ⟨u, hu, r, rfl⟩ := mem_inFlight_round ht
    exact hsend u r (hwait u hu)
  | withClock _ _ ih => exact ⟨⟨ih.1.completed, ih.1.failed⟩, ih.2⟩

/-- An advance ends what was in flight and nothing else. -/
theorem Served.splits (h : Served limit time q q') : ∃ done lost : List (Transmission R),
    q'.completed = q.completed ++ done ∧ q'.failed = q.failed ++ lost ∧
      origins q'.inFlight + origins done + origins lost = origins q.inFlight := by
  obtain ⟨⟨done, hdone⟩, lost, hlost⟩ := h.reports
  refine ⟨done, lost, hdone.symm, hlost.symm, ?_⟩
  have hcontents := h.contents_eq
  unfold contents at hcontents
  rw [← hdone, ← hlost, origins_append, origins_append] at hcontents
  have hsame : origins q'.inFlight + origins done + origins lost +
      (origins q.completed + origins q.failed) =
        origins q.inFlight + (origins q.completed + origins q.failed) := by
    rw [← add_assoc (origins q.inFlight), ← hcontents]
    abel
  exact add_right_cancel hsame

/-- How a queue is advanced to a time: what it may be afterwards. -/
abbrev Advancing (R : Type) := Queue R → R → Queue R → Prop

namespace Advancing

/-- With the rounds that are granted. -/
def granted : Advancing R := fun q time q' => q' = q.advance time

/-- By the loop, in as many passes as it takes. A loop that does not end leads nowhere. -/
def unbounded : Advancing R := fun q time q' =>
  ∃ trace last, Loop q.discipline.limit time (q, q.lastUpdate) trace last ∧
    q' = last.withClock (Quantity.max last.lastUpdate time)

/-- Nothing but failures and rounds happens, whatever numbers the packets have. -/
structure Regular (advancing : Advancing R) : Prop where
  served : ∀ {q time q'}, advancing q time q' → Served q.discipline.limit time q q'
  renumber : ∀ (f : Nat → Nat) {q : Queue R} {time : R} {r : Queue R},
    advancing (q.renumber f) time r → ∃ q', advancing q time q' ∧ r = q'.renumber f

theorem regular_granted : (granted : Advancing R).Regular where
  served h := by
    rw [h]
    exact served_advance _ _
  renumber f q time r h := ⟨q.advance time, rfl, h.trans (renumber_advance f q time)⟩

theorem regular_unbounded : (unbounded : Advancing R).Regular where
  served h := by
    obtain ⟨trace, last, hloop, rfl⟩ := h
    exact (hloop.served .refl).withClock _
  renumber f q time r h := by
    obtain ⟨trace, last, hloop, rfl⟩ := h
    obtain ⟨trace', last', hloop', rfl⟩ := Loop.of_renumber f hloop
    exact ⟨_, ⟨trace', last', hloop', rfl⟩, rfl⟩

end Advancing

end Served

/-- What can be done with a queue. -/
inductive Operation (R : Type) where
  | add (t : Transmission R) (time : R)
  | advance (time : R)
  | setBandwidth (bandwidth : R)
  | takeCompleted
  | takeFailed

namespace Operation

variable {R : Type}

def added? : Operation R → Option (Transmission R)
  | add t _ => some t
  | _ => none

/-- The transmissions that are added, in their order. -/
def added (ops : List (Operation R)) : List (Transmission R) := ops.filterMap added?

theorem added_cons (op : Operation R) (ops : List (Operation R)) :
    added (op :: ops) = op.added?.toList ++ added ops := by
  cases op <;> rfl

def renumber (f : Nat → Nat) : Operation R → Operation R
  | add t time => add (t.renumber f) time
  | op => op

/-- The same operations with packets that carry the numbers in which they are added. -/
def numbered : Nat → List (Operation R) → List (Operation R)
  | _, [] => []
  | n, add t time :: ops => add (t.renumber fun _ => n) time :: numbered (n + 1) ops
  | n, op :: ops => op :: numbered n ops

theorem added_numbered (n : Nat) (ops : List (Operation R)) :
    added (numbered n ops) = ((added ops).zipIdx n).map fun (t, i) => t.renumber fun _ => i := by
  induction ops generalizing n with
  | nil => rfl
  | cons op ops ih =>
    cases op with
    | add t time => exact congrArg ((t.renumber fun _ => n) :: ·) (ih (n + 1))
    | _ => exact ih n

/-- The packets can be given their own numbers again. -/
theorem map_renumber_numbered {f : Nat → Nat} {n : Nat} {ops : List (Operation R)}
    (hf : ∀ i t, (added ops)[i]? = some t → f (n + i) = t.number) :
    (numbered n ops).map (renumber f) = ops := by
  induction ops generalizing n with
  | nil => rfl
  | cons op ops ih =>
    cases op with
    | add t time =>
      have hown : (t.renumber fun _ => n).renumber f = t := by
        rw [Transmission.renumber_renumber]
        exact Transmission.renumber_eq_self (hf 0 t rfl)
      have hrest : (numbered (n + 1) ops).map (renumber f) = ops := by
        refine ih fun i u hu => ?_
        rw [Nat.add_right_comm, Nat.add_assoc]
        exact hf (i + 1) u hu
      show add ((t.renumber fun _ => n).renumber f) time ::
        (numbered (n + 1) ops).map (renumber f) = _
      rw [hown, hrest]
    | advance time => exact congrArg (advance time :: ·) (ih hf)
    | setBandwidth bandwidth => exact congrArg (setBandwidth bandwidth :: ·) (ih hf)
    | takeCompleted => exact congrArg (takeCompleted :: ·) (ih hf)
    | takeFailed => exact congrArg (takeFailed :: ·) (ih hf)

theorem map_number_added_numbered (ops : List (Operation R)) :
    (added (numbered 0 ops)).map number = List.range (added ops).length := by
  rw [added_numbered, List.map_map, List.range_eq_range', ← List.zipIdx_map_snd 0 (added ops)]
  rfl

/-- A transmission of a numbered packet is what was added under its number. -/
theorem mem_added_numbered {ops : List (Operation R)} {g : Transmission R}
    (hg : g ∈ added (numbered 0 ops)) : ∃ t, (added ops)[g.number]? = some t ∧
      g = t.renumber fun _ => g.number := by
  rw [added_numbered] at hg
  obtain ⟨⟨t, i⟩, ht, rfl⟩ := List.mem_map.mp hg
  exact ⟨t, List.mk_mem_zipIdx_iff_getElem?.mp ht, rfl⟩

end Operation

open Operation (added numbered)

/-- A queue with everything that has been taken from it. -/
structure History (R : Type) where
  queue : Queue R
  takenCompleted : List (Transmission R)
  takenFailed : List (Transmission R)

namespace History

variable {R : Type} [Quantity R]

def start (discipline : Discipline) (timeout : Option R) : History R :=
  ⟨Queue.empty discipline timeout, [], []⟩

def perform (h : History R) : Operation R → History R
  | .add t time => { h with queue := h.queue.add t time }
  | .advance time => { h with queue := (h.queue.advance? time).2 }
  | .setBandwidth bandwidth => { h with queue := h.queue.setBandwidth bandwidth }
  | .takeCompleted =>
    { h with
      queue := h.queue.takeCompleted.2
      takenCompleted := h.takenCompleted ++ h.queue.takeCompleted.1 }
  | .takeFailed =>
    { h with
      queue := h.queue.takeFailed.2
      takenFailed := h.takenFailed ++ h.queue.takeFailed.1 }

def run (h : History R) (ops : List (Operation R)) : History R := ops.foldl perform h

/-- What has completed, in the order of completion, whether taken or not. -/
def done (h : History R) : List (Transmission R) := h.takenCompleted ++ h.queue.completed

/-- What has failed, whether taken or not. -/
def lost (h : History R) : List (Transmission R) := h.takenFailed ++ h.queue.failed

/-- All transmissions, wherever they are. -/
def all (h : History R) : List (Transmission R) := h.queue.inFlight ++ h.done ++ h.lost

def renumber (f : Nat → Nat) (h : History R) : History R where
  queue := h.queue.renumber f
  takenCompleted := h.takenCompleted.map (Transmission.renumber f)
  takenFailed := h.takenFailed.map (Transmission.renumber f)

variable {advancing : Advancing R}

/-- One operation on a history, where queues are advanced in some way. -/
inductive Step (advancing : Advancing R) (h : History R) : Operation R → History R → Prop
  | advance {time : R} {q : Queue R} (hq : advancing h.queue time q) :
      Step advancing h (.advance time) { h with queue := q }
  | other {op : Operation R} (hop : ∀ time, op ≠ .advance time) : Step advancing h op (h.perform op)

/-- Any operations, one after the other. -/
inductive Steps (advancing : Advancing R) : History R → List (Operation R) → History R → Prop
  | nil {h : History R} : Steps advancing h [] h
  | cons {h h' h'' : History R} {op : Operation R} {ops : List (Operation R)}
      (hop : Step advancing h op h') (hops : Steps advancing h' ops h'') :
      Steps advancing h (op :: ops) h''

theorem step_perform (h : History R) (op : Operation R) : Step .granted h op (h.perform op) := by
  cases op with
  | advance time => exact .advance rfl
  | _ => exact .other fun _ => nofun

theorem steps_run (h : History R) (ops : List (Operation R)) :
    Steps .granted h ops (h.run ops) := by
  induction ops generalizing h with
  | nil => exact .nil
  | cons op ops ih => exact .cons (step_perform h op) (ih _)

theorem Steps.eq_run {h h' : History R} {ops : List (Operation R)}
    (hops : Steps .granted h ops h') : h' = h.run ops := by
  induction hops with
  | nil => rfl
  | cons hop _ ih =>
    cases hop with
    | advance hq =>
      rw [ih, hq]
      rfl
    | other => exact ih

theorem origins_step (hadv : advancing.Regular) {h h' : History R} {op : Operation R}
    (hop : Step advancing h op h') : origins h'.all = origins h.all + origins op.added?.toList := by
  unfold all done lost
  simp only [origins_append]
  cases hop with
  | @advance time q hq =>
    have hcontents := (hadv.served hq).contents_eq
    unfold contents at hcontents
    show origins q.inFlight + (_ + origins q.completed) + (_ + origins q.failed) = _ + 0
    -- What was taken before stays where it is, and an advance keeps what the queue holds.
    calc origins q.inFlight + (origins h.takenCompleted + origins q.completed) +
          (origins h.takenFailed + origins q.failed)
        = origins q.inFlight + origins q.completed + origins q.failed +
            (origins h.takenCompleted + origins h.takenFailed) := by abel
      _ = _ := by
        rw [hcontents]
        abel
  | other hnot =>
    cases op with
    | add t time =>
      have hnew : origins (h.queue.add t time).inFlight = origins h.queue.inFlight + origins [t] :=
        origins_append _ _
      show origins (h.queue.add t time).inFlight + _ + _ = _ + origins [t]
      rw [hnew]
      abel
    | advance time => exact absurd rfl (hnot time)
    | setBandwidth bandwidth => exact (add_zero _).symm
    | takeCompleted =>
      show origins h.queue.inFlight +
        (origins (h.takenCompleted ++ h.queue.completed) + 0) + _ = _ + 0
      rw [origins_append, add_zero, add_zero]
      rfl
    | takeFailed =>
      show _ + (origins (h.takenFailed ++ h.queue.failed) + 0) = _ + 0
      rw [origins_append, add_zero, add_zero]
      rfl

/-- All that is anywhere has been added, and the other way round. -/
theorem Steps.origins_eq (hadv : advancing.Regular) {h h' : History R} {ops : List (Operation R)}
    (hops : Steps advancing h ops h') : origins h'.all = origins h.all + origins (added ops) := by
  induction hops with
  | nil => exact (add_zero _).symm
  | cons hop _ ih =>
    rw [ih, origins_step hadv hop, Operation.added_cons, origins_append, add_assoc]

/-- What a history keeps in order: what is in flight,
and what has completed if one is served after the other. -/
def line (h : History R) : List (Transmission R) :=
  match h.queue.discipline with
  | .timeShared => h.done ++ h.queue.inFlight
  | .spaceShared => h.queue.inFlight

omit [Quantity R] in
theorem inFlight_sublist_line (h : History R) : h.queue.inFlight.Sublist h.line := by
  unfold line
  split
  · exact List.sublist_append_right _ _
  · exact List.Sublist.refl _

theorem line_step (hadv : advancing.Regular) {h h' : History R} {op : Operation R}
    (hop : Step advancing h op h') :
    (h'.line.map Transmission.origin).Sublist
      ((h.line ++ op.added?.toList).map Transmission.origin) := by
  cases hop with
  | @advance time q hq =>
    have hserved := hadv.served hq
    show (line { h with queue := q }).map _ |>.Sublist ((h.line ++ []).map _)
    rw [List.append_nil]
    unfold line
    dsimp only
    rw [hserved.discipline_eq]
    cases hd : h.queue.discipline with
    | timeShared =>
      rw [hd] at hserved
      have hcompleted := hserved.completed_sublist
      have htaken (l : List (Transmission R)) : (h.takenCompleted ++ l).map Transmission.origin =
          h.takenCompleted.map Transmission.origin ++ l.map Transmission.origin := List.map_append
      unfold done
      dsimp only
      rw [List.append_assoc, List.append_assoc, htaken, htaken]
      exact (List.Sublist.refl _).append hcompleted
    | spaceShared => exact hserved.inFlight_sublist
  | other hnot =>
    cases op with
    | add t time =>
      -- A default timeout may be filled in, which is no part of the origin.
      have hline : (h.perform (.add t time)).line =
          h.line ++ [{ t with timeout := t.timeout <|> h.queue.defaultTimeout }] := by
        unfold line perform
        cases hd : h.queue.discipline with
        | timeShared =>
          unfold add
          dsimp only
          rw [hd]
          exact (List.append_assoc ..).symm
        | spaceShared =>
          unfold add
          dsimp only
          rw [hd]
      rw [hline, List.map_append, List.map_append]
      exact List.Sublist.refl _
    | advance time => exact absurd rfl (hnot time)
    | setBandwidth bandwidth =>
      show (h.line.map _).Sublist ((h.line ++ []).map _)
      rw [List.append_nil]
    | takeCompleted =>
      -- What is taken stays in the history.
      have hline : (h.perform .takeCompleted).line = h.line := by
        unfold line done perform takeCompleted
        dsimp only
        rw [List.append_nil]
      rw [hline]
      show (h.line.map _).Sublist ((h.line ++ []).map _)
      rw [List.append_nil]
    | takeFailed =>
      show (h.line.map _).Sublist ((h.line ++ []).map _)
      rw [List.append_nil]

/-- What waits, and what has completed one after the other,
is in the order in which it was added. -/
theorem Steps.line_sublist (hadv : advancing.Regular) {h h' : History R} {ops : List (Operation R)}
    (hops : Steps advancing h ops h') :
    (h'.line.map Transmission.origin).Sublist ((h.line ++ added ops).map Transmission.origin) := by
  induction hops with
  | @nil h =>
    show (h.line.map _).Sublist ((h.line ++ []).map _)
    rw [List.append_nil]
  | @cons h h' h'' op ops hop hops ih =>
    have hlater (l : List (Transmission R)) : (l ++ added ops).map Transmission.origin =
        l.map Transmission.origin ++ (added ops).map Transmission.origin := List.map_append
    refine ih.trans ?_
    rw [Operation.added_cons, ← List.append_assoc, hlater, hlater]
    exact (line_step hadv hop).append (List.Sublist.refl _)

/-- An operation with other numbers on a history with
other numbers is that on the history itself. -/
theorem step_of_renumber (hadv : advancing.Regular) (f : Nat → Nat) {h r : History R}
    {op : Operation R} (hop : Step advancing (h.renumber f) (op.renumber f) r) :
    ∃ h', Step advancing h op h' ∧ r = h'.renumber f := by
  cases op with
  | advance time =>
    cases hop with
    | advance hq =>
      obtain ⟨q', hq', rfl⟩ := hadv.renumber f hq
      exact ⟨{ h with queue := q' }, .advance hq', rfl⟩
    | other hnot => exact absurd rfl (hnot time)
  | add t time =>
    cases hop
    refine ⟨_, .other fun _ => nofun, ?_⟩
    show { h.renumber f with queue := (h.queue.renumber f).add (t.renumber f) time } = _
    rw [renumber_add]
    rfl
  | setBandwidth bandwidth =>
    cases hop
    exact ⟨_, .other fun _ => nofun, rfl⟩
  | takeCompleted =>
    cases hop
    refine ⟨_, .other fun _ => nofun, ?_⟩
    unfold renumber perform
    dsimp only
    rw [List.map_append]
    rfl
  | takeFailed =>
    cases hop
    refine ⟨_, .other fun _ => nofun, ?_⟩
    unfold renumber perform
    dsimp only
    rw [List.map_append]
    rfl

theorem Steps.of_renumber (hadv : advancing.Regular) (f : Nat → Nat) {h r : History R}
    {ops : List (Operation R)} (hops : Steps advancing (h.renumber f) (ops.map (.renumber f)) r) :
    ∃ h', Steps advancing h ops h' ∧ r = h'.renumber f := by
  induction ops generalizing h with
  | nil =>
    cases hops
    exact ⟨h, .nil, rfl⟩
  | cons op ops ih =>
    rw [List.map_cons] at hops
    cases hops with
    | cons hop hrest =>
      obtain ⟨h₁, hop', rfl⟩ := step_of_renumber hadv f hop
      obtain ⟨h', hrest', hr⟩ := ih hrest
      exact ⟨h', .cons hop' hrest', hr⟩

/-- One of those that were added, with no other time of its end than it came with. -/
def Waiting (given : List (Transmission R)) (t : Transmission R) : Prop :=
  ∃ g ∈ given, t.origin = g.origin ∧ t.finish = g.finish

/-- What holds of the transmissions of a history, according to where they are. -/
structure Sorted (given : List (Transmission R)) (h : History R) : Prop where
  waiting : ∀ t ∈ h.queue.inFlight, Waiting given t
  done : ∀ t ∈ h.done, t.remaining = 0 ∧ t.finish.isSome = true
  lost : ∀ t ∈ h.lost, t.finish.isSome = true

theorem Sorted.step (hadv : advancing.Regular) {given : List (Transmission R)} {h h' : History R}
    {op : Operation R} (hh : h.Sorted given) (hstep : Step advancing h op h')
    (hop : ∀ t ∈ op.added?, t ∈ given) : h'.Sorted given := by
  obtain ⟨hwaiting, hdone, hlost⟩ := hh
  cases hstep with
  | @advance time q hq =>
    obtain ⟨⟨⟨l, hl, hends⟩, m, hm, hfails⟩, hstay⟩ :
        Ends (fun t => t.remaining = 0 ∧ t.finish.isSome = true) (fun t => t.finish.isSome = true)
          h.queue q ∧ ∀ t ∈ q.inFlight, Waiting given t :=
      (hadv.served hq).ends hwaiting (fun t r ht => ht) (fun t now _ => ⟨rfl, rfl⟩) fun t now _ =>
        rfl
    refine ⟨hstay, fun t ht => ?_, fun t ht => ?_⟩
    · have hmem : t ∈ h.done ++ l := by
        rw [History.done, List.append_assoc, ← hl]
        exact ht
      exact (List.mem_append.mp hmem).elim (hdone t) (hends t)
    · have hmem : t ∈ h.lost ++ m := by
        rw [History.lost, List.append_assoc, ← hm]
        exact ht
      exact (List.mem_append.mp hmem).elim (hlost t) (hfails t)
  | other hnot =>
    cases op with
    | add t time =>
      refine ⟨fun u hu => ?_, hdone, hlost⟩
      rcases List.mem_append.mp hu with hu | hu
      · exact hwaiting u hu
      · rw [List.mem_singleton.mp hu]
        exact ⟨t, hop t rfl, rfl, rfl⟩
    | advance time => exact absurd rfl (hnot time)
    | setBandwidth bandwidth => exact ⟨hwaiting, hdone, hlost⟩
    | takeCompleted =>
      refine ⟨hwaiting, fun t ht => hdone t ?_, hlost⟩
      have htaken : (h.perform .takeCompleted).done = h.done := List.append_nil _
      rwa [htaken] at ht
    | takeFailed =>
      refine ⟨hwaiting, hdone, fun t ht => hlost t ?_⟩
      have htaken : (h.perform .takeFailed).lost = h.lost := List.append_nil _
      rwa [htaken] at ht

theorem Sorted.steps (hadv : advancing.Regular) {given : List (Transmission R)} {h h' : History R}
    {ops : List (Operation R)} (hh : h.Sorted given) (hsteps : Steps advancing h ops h')
    (hops : ∀ t ∈ added ops, t ∈ given) : h'.Sorted given := by
  induction hsteps with
  | nil => exact hh
  | cons hop _ ih =>
    rw [Operation.added_cons] at hops
    refine ih (hh.step hadv hop fun t ht => hops t ?_) fun t ht =>
      hops t (List.mem_append_right _ ht)
    exact List.mem_append_left _ (Option.mem_toList.mpr ht)

/-- Where everything is that has been added, by the numbers that the packets carry. -/
structure Accounted (given : List (Transmission R)) (h : History R) : Prop where
  /-- Each number is in one place. -/
  placed : (h.all.map number).Perm (List.range given.length)
  /-- It stands for what was added under it. -/
  origin : ∀ t ∈ h.all, ∃ g, given[t.number]? = some g ∧
    t.origin = (g.renumber fun _ => t.number).origin
  inOrder : (h.queue.inFlight.map number).Pairwise (· < ·)
  /-- What is in flight has not been given a time of its end. -/
  pending : ∀ t ∈ h.queue.inFlight, ∃ g, given[t.number]? = some g ∧ t.finish = g.finish
  done : ∀ t ∈ h.done, t.remaining = 0 ∧ t.finish.isSome = true
  lost : ∀ t ∈ h.lost, t.finish.isSome = true
  doneInOrder : h.queue.discipline = .timeShared → (h.done.map number).Pairwise (· < ·)

omit [Quantity R] in
/-- The number of a transmission is that of the packet in its origin. -/
theorem map_number_eq (l : List (Transmission R)) :
    l.map number = (l.map Transmission.origin).map fun o => o.1.header.id := by
  rw [List.map_map]
  rfl

theorem Steps.accounted (hadv : advancing.Regular) {discipline : Discipline} {timeout : Option R}
    {ops : List (Operation R)} {h : History R}
    (hops : Steps advancing (start discipline timeout) (numbered 0 ops) h) :
    h.Accounted (added ops) := by
  have hnumbers := Operation.map_number_added_numbered ops
  have horigins := hops.origins_eq hadv
  have hline := hops.line_sublist hadv
  have hsorted : h.Sorted (added (numbered 0 ops)) :=
    Sorted.steps hadv
      ⟨fun t ht => (by cases ht), fun t ht => (by cases ht), fun t ht => (by cases ht)⟩ hops
      fun t ht => ht
  -- Nothing is anywhere at first, so that all there is has been added, and in the order of the
  -- numbers.
  have hstart : (start discipline timeout).all = [] := rfl
  have hstart' : (start discipline timeout).line = [] := by cases discipline <;> rfl
  rw [hstart, origins_nil, zero_add] at horigins
  rw [hstart', List.nil_append] at hline
  have hperm : (h.all.map Transmission.origin).Perm
      ((added (numbered 0 ops)).map Transmission.origin) := Quotient.exact horigins
  have hordered : (h.line.map number).Pairwise (· < ·) := by
    rw [map_number_eq]
    refine List.Pairwise.sublist (hline.map _) ?_
    rw [← map_number_eq, hnumbers]
    exact List.pairwise_lt_range
  -- What has the origin of something that was added has its number.
  have hgiven {t g : Transmission R} (hg : g ∈ added (numbered 0 ops)) (htg : t.origin = g.origin) :
      ∃ u, (added ops)[t.number]? = some u ∧ g = u.renumber fun _ => t.number := by
    have hnumber : t.number = g.number := congrArg (fun o => o.1.header.id) htg
    rw [hnumber]
    exact Operation.mem_added_numbered hg
  refine ⟨?_, fun t ht => ?_, ?_, fun t ht => ?_, hsorted.done, hsorted.lost, fun hd => ?_⟩
  · rw [map_number_eq, ← hnumbers, map_number_eq]
    exact hperm.map _
  · obtain ⟨g, hg, hgt⟩ := List.mem_map.mp (hperm.subset (List.mem_map_of_mem ht))
    obtain ⟨u, hu, rfl⟩ := hgiven hg hgt.symm
    exact ⟨u, hu, hgt.symm⟩
  · exact hordered.sublist (h.inFlight_sublist_line.map number)
  · obtain ⟨g, hg, htg, hfinish⟩ := hsorted.waiting t ht
    obtain ⟨u, hu, rfl⟩ := hgiven hg htg
    exact ⟨u, hu, hfinish⟩
  · unfold line at hordered
    rw [hd] at hordered
    exact hordered.sublist ((List.sublist_append_left _ _).map number)

/-- In a history of numbered packets an advance adds to what has completed if
something that was in flight has completed. -/
theorem completes_iff (hadv : advancing.Regular) {given : List (Transmission R)} {h : History R}
    (ha : h.Accounted given) {time : R} {q : Queue R} (hq : advancing h.queue time q) :
    h.queue.completed.length < q.completed.length ↔
      ∃ t ∈ q.completed, t.number ∈ h.queue.inFlight.map number := by
  obtain ⟨done, lost, hdone, -, horigins⟩ := (hadv.served hq).splits
  -- The lists of a queue only grow, so that to count is enough.
  have hlength : h.queue.completed.length < q.completed.length ↔ done ≠ [] := by
    rw [hdone, List.length_append, ← List.length_pos_iff]
    exact Nat.lt_add_right_iff_pos
  rw [hlength, hdone]
  constructor
  · intro hne
    obtain ⟨t, ht⟩ := List.exists_mem_of_ne_nil _ hne
    refine ⟨t, List.mem_append_right _ ht, ?_⟩
    have hmem : t.origin ∈ origins h.queue.inFlight := by
      rw [← horigins]
      exact Multiset.mem_add.mpr (Or.inl (Multiset.mem_add.mpr (Or.inr (List.mem_map_of_mem ht))))
    rw [map_number_eq]
    exact List.mem_map_of_mem (Multiset.mem_coe.mp hmem)
  · rintro ⟨t, ht, hnumber⟩ rfl
    -- What had completed before was not in flight any more.
    rw [List.append_nil] at ht
    have hnodup : (h.all.map number).Nodup := ha.placed.nodup_iff.mpr List.nodup_range
    unfold all at hnodup
    rw [List.append_assoc, List.map_append] at hnodup
    refine (List.nodup_append'.mp hnodup).2.2 hnumber (List.mem_map_of_mem ?_)
    exact List.mem_append_left _ (List.mem_append_right _ ht)

/-- What a history tells of the operations that led to it, by the same operations on packets that
carry the numbers in which they are added. -/
structure Traced (advancing : Advancing R) (discipline : Discipline) (timeout : Option R)
    (ops : List (Operation R)) (h₀ h : History R) : Prop where
  steps : Steps advancing (start discipline timeout) (numbered 0 ops) h
  /-- Nothing else is changed by the numbers. -/
  same : h₀ = h.renumber fun i => (((added ops).map number)[i]?).getD 0
  accounted : h.Accounted (added ops)
  pending : (∀ t ∈ added ops, t.finish = none) → ∀ t ∈ h.queue.inFlight, t.finish = none
  /-- One more advance adds to what has completed if it completes something. -/
  completes : ∀ time q₀, advancing h₀.queue time q₀ → ∃ q, advancing h.queue time q ∧
    q₀ = q.renumber (fun i => (((added ops).map number)[i]?).getD 0) ∧
    (h₀.queue.completed.length < q₀.completed.length ↔
      ∃ t ∈ q.completed, t.number ∈ h.queue.inFlight.map number)

theorem Steps.traced (hadv : advancing.Regular) {discipline : Discipline} {timeout : Option R}
    {ops : List (Operation R)} {h₀ : History R}
    (hops : Steps advancing (start discipline timeout) ops h₀) :
    ∃ h, Traced advancing discipline timeout ops h₀ h := by
  have hlabel : (numbered 0 ops).map
      (.renumber fun i => (((added ops).map number)[i]?).getD 0) = ops := by
    refine Operation.map_renumber_numbered fun i t ht => ?_
    rw [Nat.zero_add, List.getElem?_map, ht]
    rfl
  have hops' : Steps advancing
      ((start discipline timeout).renumber fun i => (((added ops).map number)[i]?).getD 0)
      ((numbered 0 ops).map (.renumber fun i => (((added ops).map number)[i]?).getD 0)) h₀ := by
    rw [hlabel]
    exact hops
  obtain ⟨h, hsteps, rfl⟩ := Steps.of_renumber hadv _ hops'
  have haccounted : h.Accounted (added ops) := hsteps.accounted hadv
  refine ⟨h, hsteps, rfl, haccounted, fun hnew t ht => ?_, fun time q₀ hq₀ => ?_⟩
  · obtain ⟨g, hg, hfinish⟩ := haccounted.pending t ht
    rw [hfinish]
    exact hnew g (List.mem_of_getElem? hg)
  · obtain ⟨q, hq, rfl⟩ := hadv.renumber _ hq₀
    refine ⟨q, hq, rfl, ?_⟩
    show (h.queue.renumber _).completed.length < _ ↔ _
    rw [length_completed_renumber, length_completed_renumber]
    exact completes_iff hadv haccounted hq

end History

open History (Steps start)

/-- Let any operations be done with a new queue, and let the packets carry the numbers in which they
are added. Nothing else is changed by that. Each number is then in flight, or it has completed or
failed, whether taken or not, and it is there once, with the transmission that was added under it.
What is in flight is in the order in which it was added and has not been given a time of its end;
what has completed has nothing left and a time, and so has what has failed a time; where one is
served after the other they complete in the order in which they were added. An advance tells whether
something has completed that was in flight. All this holds of the rounds that are granted, and just
as well if each advance is a loop without a bound that has come to its end. -/
theorem transmissions_accounted {R : Type} [Quantity R] (discipline : Discipline)
    (timeout : Option R) (ops : List (Operation R)) :
    let h := (start discipline timeout).run (numbered 0 ops)
    ((start discipline timeout).run ops =
        h.renumber (fun i => (((added ops).map number)[i]?).getD 0) ∧
      h.Accounted (added ops) ∧
      ((∀ t ∈ added ops, t.finish = none) → ∀ t ∈ h.queue.inFlight, t.finish = none) ∧
      ∀ time, (((start discipline timeout).run ops).queue.advance? time).1 = true ↔
        ∃ t ∈ (h.queue.advance time).completed, t.number ∈ h.queue.inFlight.map number) ∧
    ∀ h₀, Steps .unbounded (start discipline timeout) ops h₀ →
      ∃ h, History.Traced .unbounded discipline timeout ops h₀ h := by
  intro h
  refine ⟨?_, fun h₀ hops => hops.traced Advancing.regular_unbounded⟩
  obtain ⟨h', htraced⟩ := (History.steps_run (start discipline timeout) ops).traced
    Advancing.regular_granted
  -- With the rounds that are granted, operations lead to one history only.
  obtain rfl : h' = h := htraced.steps.eq_run
  refine ⟨htraced.same, htraced.accounted, htraced.pending, fun time => ?_⟩
  obtain ⟨q, rfl, -, hcompletes⟩ := htraced.completes time _ rfl
  exact decide_eq_true_iff.trans hcompletes

/-- A loop without a bound completes the first one of two packets and fails the other one. -/
theorem pair_transmissions_accounted :
    let t (timeout : Option Exact) : Transmission Exact :=
      { Transmission.ofPacket ⟨⟨4, 1, 2, 7⟩, [], 30, none, 1⟩ 0 with timeout }
    let ops : List (Operation Exact) :=
      [.setBandwidth 10, .add (t none) 0, .add (t (some 5)) 0, .advance 20]
    ∃ h₀ h, Steps .unbounded (start .timeShared none) ops h₀ ∧
      History.Traced .unbounded .timeShared none ops h₀ h ∧
      h₀.queue.completed.length = 1 ∧ h₀.queue.failed.length = 1 := by
  intro t ops
  let h := (start .timeShared none).run (ops.take 3)
  have hsteps {q : Queue Exact} (hq : Advancing.unbounded h.queue 20 q) :
      Steps .unbounded (start .timeShared none) ops { h with queue := q } :=
    .cons (.other fun _ => nofun) (.cons (.other fun _ => nofun) (.cons (.other fun _ => nofun)
      (.cons (.advance hq) .nil)))
  let second := pass (some 1) 20 (h.queue, h.queue.lastUpdate)
  let third := pass (some 1) 20 second
  let last := third.1.expire third.2
  have hloop : Loop (some 1) 20 (h.queue, h.queue.lastUpdate)
      [(h.queue, h.queue.lastUpdate), second, third] last :=
    .pass (by decide +kernel) (.pass (by decide +kernel) (.stop (by decide +kernel)))
  have hcompleted : last.completed.length = 1 := by decide +kernel
  have hfailed : last.failed.length = 1 := by decide +kernel
  clear_value last third second
  have hrun := hsteps ⟨_, last, hloop, rfl⟩
  obtain ⟨traced, htraced⟩ := (transmissions_accounted .timeShared none ops).2 _ hrun
  exact ⟨_, traced, hrun, htraced, hcompleted, hfailed⟩

end Queue

end FlowFabric
