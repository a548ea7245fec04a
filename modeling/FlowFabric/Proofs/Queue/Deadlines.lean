import FlowFabric.Proofs.Channel.Supply
import FlowFabric.Proofs.Queue.Rounds

/-! A channel may advance its queue late. The times of ends do not show that: an advance replays the
ends in between, each at its own time. -/

namespace FlowFabric

open Exact (fin posInf)

open Quantity (isFinite)

variable {a b c d now s T : ℚ}

namespace Transmission

variable {t : Transmission Exact}

/-- A transmission has completed after its start and up to the time, and not after its deadline. -/
def CompletedBy (T : ℚ) (t : Transmission Exact) : Prop :=
  ∃ f, t.finish = some f ∧ t.start ≤ f ∧ f ≤ fin T ∧ f ≤ t.deadline + tolerance

/-- A transmission has failed up to the time, at its deadline or at its start if that is later. -/
def FailedBy (T : ℚ) (t : Transmission Exact) : Prop :=
  ∃ f, t.finish = some f ∧ Quantity.abs (f - Quantity.max t.start t.deadline) ≤ tolerance ∧
    f ≤ fin T

/-- A transmission has started, and if it is due,
its deadline is not over, or it has only just come. -/
def Prompt (now : ℚ) (t : Transmission Exact) : Prop :=
  ∃ s : ℚ, t.start = fin s ∧ s ≤ now ∧ (Queue.isDue (fin now) t = true →
    ∃ m : ℚ, Quantity.max t.start t.deadline = fin m ∧ now ≤ m + 1 / 10 ^ 9)

theorem isDue_iff (hd : t.deadline = fin d) :
    Queue.isDue (fin a) t = true ↔ d ≤ a + 1 / 10 ^ 9 := by
  unfold Queue.isDue
  rw [Bool.not_eq_true', decide_eq_false_iff_not, hd, Exact.tolerance_eq, Exact.fin_add_fin,
    Exact.fin_lt_fin, not_lt]

/-- The later of start and deadline of a transmission that is due. -/
theorem exists_latest (hs : t.start = fin s) (hsa : s ≤ a) (hdue : Queue.isDue (fin a) t = true) :
    ∃ m : ℚ, Quantity.max t.start t.deadline = fin m ∧ s ≤ m ∧ m ≤ a + 1 / 10 ^ 9 := by
  have hstart : s ≤ a + 1 / 10 ^ 9 := hsa.trans (le_add_of_nonneg_right (by norm_num))
  rw [hs]
  cases hd : t.deadline with
  | fin d => exact ⟨s ⊔ d, Exact.max_fin, le_sup_left, sup_le hstart ((isDue_iff hd).mp hdue)⟩
  | posInf =>
    unfold Queue.isDue at hdue
    rw [hd, Exact.tolerance_eq] at hdue
    cases hdue
  -- A deadline before all times, or none at all, leaves the start.
  | negInf => exact ⟨s, rfl, le_rfl, hstart⟩
  | undef => exact ⟨s, rfl, le_rfl, hstart⟩

/-- What has only just come is prompt. -/
theorem prompt_new (hs : t.start = fin a) : t.Prompt a := by
  refine ⟨a, hs, le_rfl, fun hdue => ?_⟩
  obtain ⟨m, hm, hsm, _⟩ := exists_latest hs le_rfl hdue
  exact ⟨m, hm, hsm.trans (le_add_of_nonneg_right (by norm_num))⟩

/-- What fails when it is due fails on time. -/
theorem Prompt.failedBy (h : t.Prompt a) (haT : a ≤ T) (hdue : Queue.isDue (fin a) t = true) :
    FailedBy T { t with finish := some (fin a) } := by
  obtain ⟨s, hs, hsa, hlatest⟩ := h
  obtain ⟨m, hm, hnow⟩ := hlatest hdue
  obtain ⟨m', hm', _, hmost⟩ := exists_latest hs hsa hdue
  obtain rfl := Exact.fin.inj (hm.symm.trans hm')
  refine ⟨fin a, rfl, ?_, Exact.fin_le_fin.mpr haT⟩
  show Quantity.abs (fin a - Quantity.max t.start t.deadline) ≤ tolerance
  rw [hm, Exact.fin_sub_fin, Exact.abs_fin, Exact.tolerance_eq, Exact.fin_le_fin, abs_le]
  constructor <;> linarith

end Transmission

namespace Queue

open Transmission (CompletedBy FailedBy Prompt)

section Advance

variable {q : Queue Exact} {limit : Option Nat} {t : Transmission Exact} (ht : t ∈ q.inFlight)
  (hdue : isDue (fin a) t = false) (hc : (q.round limit (fin a) (fin b)).2 = fin c) (hac : a ≤ c)

include ht hdue hc hac

/-- A round ends before the deadline of anything that was not due, or about then. -/
theorem prompt_round (h : t.Prompt a) : t.Prompt c := by
  obtain ⟨s, hs, hsa, _⟩ := h
  refine ⟨s, hs, hsa.trans hac, fun hdue' => ?_⟩
  rcases Exact.of_fin_lt (fin_lt_deadline hdue) with hnever | ⟨d, hd, had⟩
  · unfold isDue at hdue'
    rw [hnever, Exact.tolerance_eq] at hdue'
    cases hdue'
  · refine ⟨s ⊔ d, ?_, ?_⟩
    · rw [hs, hd, Exact.max_fin]
    · have hle := round_le_deadline ht hd had.le hc
      have hlatest : d ≤ s ⊔ d := le_sup_right
      linarith

/-- So what completes at its end does so in time. -/
theorem completedBy_round (h : t.Prompt a) (hcT : c ≤ T) :
    CompletedBy T { t with remaining := 0, finish := some (fin c) } := by
  obtain ⟨s, hs, hsa, _⟩ := h
  refine ⟨fin c, rfl, ?_, Exact.fin_le_fin.mpr hcT, ?_⟩
  · show t.start ≤ fin c
    rw [hs, Exact.fin_le_fin]
    exact hsa.trans hac
  · show fin c ≤ t.deadline + tolerance
    rw [Exact.tolerance_eq]
    rcases Exact.of_fin_lt (fin_lt_deadline hdue) with hnever | ⟨d, hd, had⟩
    · rw [hnever]
      rfl
    · rw [hd, Exact.fin_add_fin, Exact.fin_le_fin]
      exact round_le_deadline ht hd had.le hc

end Advance

variable {q q' : Queue Exact} {limit : Option Nat}

/-- Since the beginning of an advance everything has ended on time,
and nothing that is left is late. -/
structure OnTime (q : Queue Exact) (b : ℚ) (q' : Queue Exact) (a : ℚ) : Prop where
  time : a ≤ b
  ends : Ends (CompletedBy b) (FailedBy b) q q'
  waiting : ∀ t ∈ q'.inFlight, t.Prompt a

namespace OnTime

theorem expire (h : OnTime q b q' a) : OnTime q b (q'.expire (fin a)) a where
  time := h.time
  ends := h.ends.trans (ends_expire fun t ht hdue => (h.waiting t ht).failedBy h.time hdue)
  waiting t ht := h.waiting t (List.mem_filter.mp ht).1

theorem round (h : OnTime q b q' a) (hdue : ∀ t ∈ q'.inFlight, isDue (fin a) t = false)
    (hac : a ≤ c) (hcb : c ≤ b) (hc : (q'.round limit (fin a) (fin b)).2 = fin c) :
    OnTime q b (q'.round limit (fin a) (fin b)).1 c where
  time := hcb
  ends := by
    refine h.ends.trans (ends_round fun t ht => ?_)
    rw [hc]
    exact completedBy_round ht (hdue t ht) hc hac (h.waiting t ht) hcb
  waiting t ht := by
    obtain ⟨u, hu, r, rfl⟩ := mem_inFlight_round ht
    have hprompt : u.Prompt c := prompt_round hu (hdue u hu) hc hac (h.waiting u hu)
    exact hprompt

end OnTime

/-- However late an advance is, what ends in it ends on time, and nothing that is left is late. -/
theorem advance_prompt (hw : isFinite q.bandwidth = true) (hlast : q.lastUpdate = fin a)
    (hab : a ≤ b) (h : ∀ t ∈ q.inFlight, t.Prompt a) :
    Ends (CompletedBy b) (FailedBy b) q (q.advance (fin b)) ∧
      ∀ t ∈ (q.advance (fin b)).inFlight, t.Prompt b := by
  have hstart : OnTime q b q a := ⟨hab, .of_eq rfl rfl, h⟩
  have hround (q' : Queue Exact) (a c : ℚ) (h : OnTime q b q' a) (_ : a < b)
      (hac : a ≤ c) (hcb : c ≤ b) (_ : (q'.expire (fin a)).inFlight ≠ [])
      (hc : ((q'.expire (fin a)).round q.discipline.limit (fin a) (fin b)).2 = fin c) :
      OnTime q b ((q'.expire (fin a)).round q.discipline.limit (fin a) (fin b)).1 c :=
    h.expire.round (not_isDue_expire q' (fin a)) hac hcb hc
  obtain ⟨q', c, hlate, hend, hadvance⟩ := advance_reaches hw hlast hab hstart hround
  obtain ⟨-, hends, hkept⟩ := hlate.expire
  rw [hadvance]
  refine ⟨⟨hends.completed, hends.failed⟩, fun t ht => ?_⟩
  -- The last round has gone to the end of the interval, or there is nothing left.
  rcases hend with rfl | hnone
  · exact hkept t ht
  · have hmem : t ∈ (q'.expire (fin c)).inFlight := ht
    rw [hnone] at hmem
    cases hmem

/-- The clock of a queue that carries something is not ahead
of the time, and nothing was late by then. -/
structure Prompt (q : Queue Exact) (now : ℚ) : Prop where
  bandwidth : isFinite q.bandwidth = true
  inFlight : q.inFlight ≠ [] → ∃ a : ℚ, q.lastUpdate = fin a ∧ a ≤ now ∧
    ∀ t ∈ q.inFlight, t.Prompt a

namespace Prompt

theorem empty (discipline : Discipline) (timeout : Option Exact) (now : ℚ) :
    (Queue.empty discipline timeout).Prompt now := ⟨rfl, fun h => absurd rfl h⟩

theorem later (h : q.Prompt now) (hle : now ≤ T) : q.Prompt T where
  bandwidth := h.bandwidth
  inFlight hne := by
    obtain ⟨a, ha, hnow, hwait⟩ := h.inFlight hne
    exact ⟨a, ha, hnow.trans hle, hwait⟩

/-- An advance to the time. -/
theorem advance (h : q.Prompt T) : Ends (CompletedBy T) (FailedBy T) q (q.advance (fin T)) ∧
    (q.advance (fin T)).Prompt T ∧
    ((q.advance (fin T)).inFlight ≠ [] → (q.advance (fin T)).lastUpdate = fin T) := by
  by_cases hidle : q.inFlight = []
  · rw [advance_of_idle hidle]
    exact ⟨.of_eq rfl rfl, ⟨h.bandwidth, fun hne => absurd hidle hne⟩, fun hne => absurd hidle hne⟩
  · obtain ⟨a, ha, haT, hwait⟩ := h.inFlight hidle
    obtain ⟨hends, hkept⟩ := advance_prompt h.bandwidth ha haT hwait
    have hclock : (q.advance (fin T)).lastUpdate = fin T := by
      rw [lastUpdate_advance, ha, Exact.max_fin, sup_eq_right.mpr haT]
    refine ⟨hends, ⟨?_, fun _ => ⟨T, hclock, le_rfl, hkept⟩⟩, fun _ => hclock⟩
    rw [bandwidth_advance]
    exact h.bandwidth

end Prompt

/-- What a channel does with its queue at some time. -/
inductive Use where
  | flush
  /-- The transmission starts at that time. -/
  | send (t : Transmission Exact)
  | setBandwidth (bandwidth : ℚ)
  | takeCompleted
  | takeFailed

/-- The queue is advanced to the time first. -/
def use (q : Queue Exact) (time : ℚ) : Use → Queue Exact
  | .flush => q.advance (fin time)
  | .send t => (q.advance (fin time)).add { t with start := fin time } (fin time)
  | .setBandwidth bandwidth => (q.advance (fin time)).setBandwidth (fin bandwidth)
  | .takeCompleted => q.takeCompleted.2
  | .takeFailed => q.takeFailed.2

/-- Uses one after the other, each with its time. -/
def used (q : Queue Exact) (uses : List (ℚ × Use)) : Queue Exact :=
  uses.foldl (fun q u => q.use u.1 u.2) q

theorem Prompt.use (h : q.Prompt T) (u : Use) : (q.use T u).Prompt T := by
  obtain ⟨-, hnow, hclock⟩ := h.advance
  cases u with
  | flush => exact hnow
  | send t =>
    refine ⟨hnow.bandwidth, fun _ => ⟨T, ?_, le_rfl, fun u hu => ?_⟩⟩
    · -- The clock of an idle queue is set, that of any other is there already.
      show (if (q.advance (fin T)).inFlight.isEmpty then fin T
        else (q.advance (fin T)).lastUpdate) = _
      split
      · rfl
      · rename_i hne
        exact hclock fun hnil => hne (List.isEmpty_iff.mpr hnil)
    · rcases List.mem_append.mp hu with hu | hu
      · obtain ⟨a, ha, -, hwait⟩ := hnow.inFlight (List.ne_nil_of_mem hu)
        have hT := hclock (List.ne_nil_of_mem hu)
        obtain rfl := Exact.fin.inj (ha.symm.trans hT)
        exact hwait u hu
      · rw [List.mem_singleton.mp hu]
        exact Transmission.prompt_new rfl
  | setBandwidth bandwidth => exact ⟨rfl, hnow.inFlight⟩
  | takeCompleted => exact ⟨h.bandwidth, h.inFlight⟩
  | takeFailed => exact ⟨h.bandwidth, h.inFlight⟩

/-- The same for all uses, one after the other. -/
theorem Prompt.used {uses : List (ℚ × Use)} (h : q.Prompt now)
    (htimes : (now :: uses.map Prod.fst ++ [T]).Pairwise (· ≤ ·)) : (q.used uses).Prompt T := by
  induction uses generalizing q now with
  | nil => exact h.later ((List.pairwise_cons.mp htimes).1 T List.mem_cons_self)
  | cons u rest ih =>
    obtain ⟨hfirst, hrest⟩ := List.pairwise_cons.mp htimes
    exact ih ((h.later (hfirst u.1 List.mem_cons_self)).use u.2) hrest

theorem prompt_used (discipline : Discipline) (timeout : Option Exact) {uses : List (ℚ × Use)}
    (htimes : (uses.map Prod.fst ++ [T]).Pairwise (· ≤ ·)) :
    ((Queue.empty discipline timeout).used uses).Prompt T := by
  cases uses with
  | nil => exact .empty discipline timeout T
  | cons u rest => exact ((Prompt.empty discipline timeout u.1).use u.2).used htimes

/-- A channel does nothing else with its queue, if its packets enter the fabric when they are sent
and if it is given a number as bandwidth. -/
theorem use_step (c : Channel Exact) (o : Channel.Occasion)
    (hsend : ∀ p s, o.operation = .send p s → s = fin o.time)
    (halloc : isFinite (c.step o).allocated = true) :
    (c.step o).queue = c.queue ∨ ∃ u, (c.step o).queue = c.queue.use o.time u := by
  have hadjust (net : Network Exact) (time : ℚ) (bandwidth : Exact)
      (h : isFinite (c.setAllocated net bandwidth (fin time)).2.1.allocated = true) :
      (c.setAllocated net bandwidth (fin time)).2.1.queue = c.queue ∨
        ∃ u, (c.setAllocated net bandwidth (fin time)).2.1.queue = c.queue.use time u := by
    unfold Channel.setAllocated at h ⊢
    split
    · exact Or.inl rfl
    · rename_i hchange
      rw [if_neg hchange] at h
      obtain ⟨w, rfl⟩ := Exact.eq_fin_of_isFinite h
      exact Or.inr ⟨.setBandwidth w, rfl⟩
  obtain ⟨time, net, op⟩ := o
  cases op with
  | register | unregister | setRequested => exact Or.inl rfl
  | adjustDedicated | adjustShared => exact hadjust net time _ halloc
  | reroute | advance => exact Or.inr ⟨.flush, rfl⟩
  | send p s =>
    have hs : s = fin time := hsend p s rfl
    rw [hs]
    exact Or.inr ⟨.send (.ofPacket p (fin time)), rfl⟩

/-- So the queue of a channel, whatever the channel does,
is one that has been used at some of the times. -/
theorem used_run (c : Channel Exact) (os : List Channel.Occasion)
    (hsend : ∀ o ∈ os, ∀ p s, o.operation = .send p s → s = fin o.time)
    (halloc : ∀ n, isFinite (c.run (os.take n)).allocated = true) :
    ∃ uses, (c.run os).queue = c.queue.used uses ∧
      (uses.map Prod.fst).Sublist (os.map Channel.Occasion.time) := by
  induction os generalizing c with
  | nil => exact ⟨[], rfl, List.Sublist.refl _⟩
  | cons o rest ih =>
    obtain ⟨uses, hused, htimes⟩ :=
      ih (c.step o) (fun o' ho' => hsend o' (List.mem_cons_of_mem _ ho')) fun n => halloc (n + 1)
    have hrun : (c.run (o :: rest)).queue = (c.step o).queue.used uses := hused
    rcases use_step c o (hsend o List.mem_cons_self) (halloc 1) with hsame | ⟨u, hu⟩
    · rw [hsame] at hrun
      exact ⟨uses, hrun, htimes.cons _⟩
    · rw [hu] at hrun
      exact ⟨(o.time, u) :: uses, hrun, htimes.cons_cons _⟩

/-- Nothing is late in the queue of a channel at any time. -/
theorem prompt_channel (key : FlowKey) (path : Path) (requested : Exact) (discipline : Discipline)
    (timeout : Option Exact) (os : List Channel.Occasion)
    (htimes : (os.map Channel.Occasion.time ++ [T]).Pairwise (· ≤ ·))
    (hsend : ∀ o ∈ os, ∀ p s, o.operation = .send p s → s = fin o.time)
    (halloc : ∀ n, isFinite
      ((Channel.create key path requested discipline timeout).run (os.take n)).allocated = true) :
    ((Channel.create key path requested discipline timeout).run os).queue.Prompt T := by
  obtain ⟨uses, hused, hsome⟩ := used_run _ os hsend halloc
  rw [hused]
  exact prompt_used discipline timeout (htimes.sublist (hsome.append_right [T]))

/-- In an advance to the time, what completes has a finish time between its start and that time, and
no later than its deadline; what fails has the later one of its start and its deadline as its finish
time, which is not after that time either, the tolerance apart. All deadlines of what is left are
later. -/
structure Punctual (q : Queue Exact) (T : ℚ) : Prop where
  completed : ∃ done, (q.advance (fin T)).completed = q.completed ++ done ∧
    ∀ t ∈ done, t.CompletedBy T
  failed : ∃ lost, (q.advance (fin T)).failed = q.failed ++ lost ∧ ∀ t ∈ lost, t.FailedBy T
  waiting : ∀ t ∈ (q.advance (fin T)).inFlight, fin T < t.deadline

theorem Prompt.punctual (h : q.Prompt T) : q.Punctual T := by
  obtain ⟨hends, -, -⟩ := h.advance
  exact ⟨hends.completed, hends.failed, fun t ht =>
    fin_lt_deadline (not_isDue_advance q (fin T) t ht)⟩

/-- Let a queue be used as channels use theirs, or let it be that of a channel whose packets enter
the fabric when they are sent and whose bandwidth is always a number. At any time that is not
earlier, all that has to end by then ends on time. -/
theorem ends_on_time (discipline : Discipline) (timeout : Option Exact) (T : ℚ) :
    (∀ uses : List (ℚ × Use), (uses.map Prod.fst ++ [T]).Pairwise (· ≤ ·) →
      ((Queue.empty discipline timeout).used uses).Punctual T) ∧
    ∀ (key : FlowKey) (path : Path) (requested : Exact) (os : List Channel.Occasion),
      let c := Channel.create key path requested discipline timeout
      (os.map Channel.Occasion.time ++ [T]).Pairwise (· ≤ ·) →
        (∀ o ∈ os, ∀ p s, o.operation = .send p s → s = fin o.time) →
        (∀ n, isFinite (c.run (os.take n)).allocated = true) → (c.run os).queue.Punctual T := by
  refine ⟨fun uses htimes => (prompt_used discipline timeout htimes).punctual, ?_⟩
  intro key path requested os c htimes hsend halloc
  exact (prompt_channel key path requested discipline timeout os htimes hsend halloc).punctual

/-- The second of two transmissions has been waiting for four seconds when it fails; the first one
has completed after ten. The queue hears of both after thirty. A channel over a link of that
bandwidth does the same with it. -/
theorem pair_ends_on_time :
    let t : Transmission Exact := .ofPacket ⟨⟨0, 1, 2, 7⟩, [], 100, none, 1⟩ 0
    let uses : List (ℚ × Use) :=
      [(0, .setBandwidth 10), (0, .send t), (1, .send { t with timeout := some 4 })]
    let q := (Queue.empty .timeShared none).used uses
    let net : Network Exact := { Network.empty .tree with topology := Topology.rack }
    let across : Path := ⟨0, [⟨⟨2, .up⟩, 2⟩, ⟨⟨3, .down⟩, 1⟩]⟩
    let os : List Channel.Occasion :=
      [⟨0, net, .register⟩, ⟨0, net, .adjustDedicated⟩,
        ⟨0, net, .send ⟨⟨0, 1, 2, 7⟩, [], 100, none, 1⟩ 0⟩,
        ⟨1, net, .send ⟨⟨1, 1, 2, 7⟩, [], 100, some 4, 1⟩ 1⟩]
    let c := Channel.create ⟨1, 2, 7⟩ across (10 : Exact) .timeShared none
    (uses.map Prod.fst ++ [30]).Pairwise (· ≤ ·) ∧
      (q.advance 30).completed.map Transmission.finish = [some 10] ∧
      (q.advance 30).failed.map Transmission.finish = [some 5] ∧ q.Punctual 30 ∧
      (os.map Channel.Occasion.time ++ [30]).Pairwise (· ≤ ·) ∧
      ((c.run os).queue.advance 30).completed.map Transmission.finish = [some 10] ∧
      ((c.run os).queue.advance 30).failed.map Transmission.finish = [some 5] ∧
      (c.run os).queue.Punctual 30 := by
  intro t uses q net across os c
  have htimes : (uses.map Prod.fst ++ [30]).Pairwise (· ≤ ·) := by decide +kernel
  have hcompleted : (q.advance 30).completed.map Transmission.finish = [some 10] := by
    decide +kernel
  have hfailed : (q.advance 30).failed.map Transmission.finish = [some 5] := by decide +kernel
  have htimes' : (os.map Channel.Occasion.time ++ [30]).Pairwise (· ≤ ·) := by decide +kernel
  have hcompleted' : ((c.run os).queue.advance 30).completed.map Transmission.finish =
      [some 10] := by
    decide +kernel
  have hfailed' : ((c.run os).queue.advance 30).failed.map Transmission.finish = [some 5] := by
    decide +kernel
  have hsend : ∀ o ∈ os, ∀ p s, o.operation = .send p s → s = fin o.time := by
    rw [List.forall_mem_cons, List.forall_mem_cons, List.forall_mem_cons, List.forall_mem_singleton]
    refine ⟨fun _ _ => nofun, fun _ _ => nofun, ?_, ?_⟩
    · rintro _ _ ⟨⟩
      rfl
    · rintro _ _ ⟨⟩
      rfl
  have hgiven : ∀ n < 5, isFinite (c.run (os.take n)).allocated = true := by decide +kernel
  have halloc : ∀ n, isFinite (c.run (os.take n)).allocated = true :=
    Channel.forall_take (P := fun os => isFinite (c.run os).allocated = true) hgiven
  obtain ⟨huses, hchannels⟩ := ends_on_time .timeShared none 30
  exact ⟨htimes, hcompleted, hfailed, huses uses htimes, htimes', hcompleted', hfailed',
    hchannels ⟨1, 2, 7⟩ across 10 os htimes' hsend halloc⟩

end Queue

end FlowFabric
