import FlowFabric.Proofs.Controller.Operations
import FlowFabric.Proofs.DataPlane.Fixpoint

/-! What keeps time from standing still is the least interval between two looks at the channels, or
else that something remains of every transmission in flight. -/

namespace FlowFabric

variable {ε : Type}

open Quantity (isFinite min max)

namespace Exact

/-- The value lies after a time, or it is none at all. -/
def After (a : ℚ) (x : Exact) : Prop := ∀ q, x = fin q → a < q

variable {a : ℚ}

theorem after_posInf : After a posInf := by
  intro q hq
  cases hq

theorem after_of_lt {x : Exact} (h : fin a + tolerance < x) : After a x := by
  rintro q rfl
  rw [tolerance_eq, fin_add_fin, fin_lt_fin] at h
  have hpos : (0 : ℚ) < 1 / 10 ^ 9 := by positivity
  linarith

/-- What is sent at a rate that is no infinity is finished later if anything remains. -/
theorem after_add_div {x b : Exact} (hx : 0 < x) (hb : ¬ b ≤ 0) (hfinite : b ≠ posInf) :
    After a (fin a + x / b) := by
  have hx' : lt (fin 0) x = true := hx
  cases b with
  | fin q =>
    have hq : 0 < q := not_le.mp fun hle => hb (fin_le_fin.mpr hle)
    cases x with
    | fin p =>
      have hp : 0 < p := fin_lt_fin.mp hx
      rw [fin_div_fin hq.ne', fin_add_fin]
      intro r hr
      cases hr
      have hpos : 0 < p / q := div_pos hp hq
      linarith
    | posInf =>
      have hdiv : (posInf / fin q : Exact) = posInf := if_neg hq.not_gt
      rw [hdiv]
      exact after_posInf
    | negInf => cases hx'
    | undef => cases hx'
  | posInf => exact absurd rfl hfinite
  | negInf => exact absurd rfl hb
  | undef =>
    intro r hr
    cases x <;> cases hr

theorem mul_ofNat_pos {x : Exact} (hx : 0 < x) {n : Nat} (hn : n ≠ 0) :
    0 < x * Quantity.ofNat n := by
  have hx' : lt (fin 0) x = true := hx
  have hn' : (0 : ℚ) < n := Nat.cast_pos.mpr (Nat.pos_of_ne_zero hn)
  cases x with
  | fin p =>
    rw [ofNat_fin, fin_mul_fin]
    exact fin_lt_fin.mpr (mul_pos (fin_lt_fin.mp hx) hn')
  | posInf =>
    have hmul : (posInf * Quantity.ofNat n : Exact) = posInf := if_pos hn'
    rw [hmul]
    rfl
  | negInf => cases hx'
  | undef => cases hx'

theorem min_fin_ne_posInf (x : Exact) (q : ℚ) : min x (fin q) ≠ posInf := by
  cases x with
  | fin p =>
    rw [min_fin]
    nofun
  | posInf =>
    rw [min_posInf_left]
    nofun
  | negInf => exact (nofun : negInf ≠ posInf)
  | undef =>
    have hundef : min undef (fin q) = fin q := if_pos (fin_le_fin.mpr le_rfl)
    rw [hundef]
    nofun

/-- A delay is at least the least interval, and it is longer than nothing if the time to wait is. -/
theorem delay_bounds (d : ℚ) (m : Exact) :
    (0 < m → fin a + m ≤ fin a + max (max (fin d) m) 0) ∧
      (0 < d → fin a < fin a + max (max (fin d) m) 0) := by
  have hzero : (0 : Exact) = fin 0 := rfl
  -- An interval that is negative or undefined does not count.
  have hnone (hm : max (fin d) m = fin d) (hd : 0 < d) :
      fin a < fin a + max (max (fin d) m) 0 := by
    rw [hm, hzero, max_fin, fin_add_fin, fin_lt_fin]
    have hle : d ≤ d ⊔ 0 := le_sup_left
    linarith
  cases m with
  | fin q =>
    have hsum : fin a + max (max (fin d) (fin q)) 0 = fin (a + d ⊔ q ⊔ 0) := by
      rw [hzero, max_fin, max_fin, fin_add_fin]
    have hd : d ≤ d ⊔ q ⊔ 0 := le_sup_left.trans le_sup_left
    have hq : q ≤ d ⊔ q ⊔ 0 := le_sup_right.trans le_sup_left
    rw [hsum, fin_add_fin, fin_le_fin, fin_lt_fin]
    exact ⟨fun _ => by linarith, fun hpos => by linarith⟩
  | posInf => exact ⟨fun _ => rfl, fun _ => rfl⟩
  | negInf => exact ⟨fun hm => absurd (show lt (fin 0) negInf = true from hm) nofun, hnone rfl⟩
  | undef => exact ⟨fun hm => absurd (show lt (fin 0) undef = true from hm) nofun, hnone rfl⟩

end Exact

namespace Queue

open Exact (After fin posInf)

/-- More than nothing is left of a transmission that is not done. -/
theorem remaining_pos {t : Transmission Exact} (h : isDone t = false) : 0 < t.remaining := by
  unfold isDone at h
  rw [Bool.not_eq_false', decide_eq_true_eq] at h
  obtain ⟨q, hq, hpos⟩ | hinf : (∃ q, max t.size 1 = fin q ∧ 0 < q) ∨ max t.size 1 = posInf := by
    cases t.size with
    | fin p => exact Or.inl ⟨p ⊔ (1 : ℕ), Exact.max_fin, lt_sup_of_lt_right one_pos⟩
    | posInf => exact Or.inr rfl
    | negInf => exact Or.inl ⟨1, rfl, one_pos⟩
    | undef => exact Or.inl ⟨1, rfl, one_pos⟩
  · rw [hq, Exact.tolerance_eq, Exact.fin_mul_fin] at h
    have hlimit : (0 : ℚ) < 1 / 10 ^ 9 * q := by positivity
    exact Exact.lt_of_le_of_lt (Exact.fin_le_fin.mpr hlimit.le) h
  · have hmul : (tolerance * posInf : Exact) = posInf := by
      rw [Exact.tolerance_eq]
      exact if_pos (by positivity)
    rw [hinf, hmul] at h
    exact absurd rfl (Exact.below_of_lt h).1

/-- A time before a deadline is finite. -/
theorem finite_of_not_isDue {time : Exact} (h : 0 ≤ time) {t : Transmission Exact}
    (ht : isDue time t = false) : ∃ a, time = fin a := by
  have hpast : Exact.le (fin 0) time = true := h
  unfold isDue at ht
  rw [Bool.not_eq_false', decide_eq_true_eq] at ht
  have hbelow := Exact.below_of_lt ht
  cases time with
  | fin a => exact ⟨a, rfl⟩
  | posInf => exact absurd rfl hbelow.1
  | negInf => cases hpast
  | undef => cases hpast

theorem after_nextFinish {q : Queue Exact} {a : ℚ}
    (hq : ∀ t ∈ q.inFlight, q.lastUpdate = fin a ∧ 0 < t.remaining) (hb : q.bandwidth ≠ posInf) :
    After a q.nextFinish := by
  unfold nextFinish
  cases q.discipline with
  | timeShared =>
    dsimp only
    split
    · rename_i head rest heq
      obtain ⟨hlast, hpos⟩ := hq head (heq ▸ List.mem_cons_self)
      split
      · rename_i hrate
        rw [hlast]
        exact Exact.after_add_div hpos (fun hle => OrderLaws.not_lt_of_le hle hrate) hb
      · exact Exact.after_posInf
    · exact Exact.after_posInf
  | spaceShared =>
    dsimp only
    split
    · exact Exact.after_posInf
    · rename_i hbusy
      rw [Bool.or_eq_true, not_or, List.isEmpty_iff, decide_eq_true_eq] at hbusy
      obtain ⟨t, ht⟩ := List.exists_mem_of_ne_nil _ hbusy.1
      -- All have something left, so that the first to finish has as well.
      have hleast : 0 < Quantity.minimum (q.inFlight.map Transmission.remaining) := by
        refine Quantity.foldl_min_induction ?_ rfl
        intro x hx
        obtain ⟨u, hu, rfl⟩ := List.mem_map.mp hx
        exact (hq u hu).2
      have hcount : q.inFlight.length ≠ 0 := fun hnil => hbusy.1 (List.length_eq_zero_iff.mp hnil)
      rw [(hq t ht).1]
      exact Exact.after_add_div (Exact.mul_ofNat_pos hleast hcount) hbusy.2 hb

theorem after_nextTimeout {q : Queue Exact} {a : ℚ}
    (hq : ∀ t ∈ q.inFlight, isDue (fin a) t = false) : After a q.nextTimeout := by
  refine Quantity.foldl_min_induction ?_ Exact.after_posInf
  intro x hx
  obtain ⟨t, ht, rfl⟩ := List.mem_map.mp hx
  have hdue := hq t ht
  unfold isDue at hdue
  rw [Bool.not_eq_false', decide_eq_true_eq] at hdue
  exact Exact.after_of_lt hdue

end Queue

namespace Channel

open Exact (fin posInf)

/-- A path that has hops has a slowest lane. -/
theorem slowest?_isSome {R : Type} [Quantity R] [BandwidthLaws R] {net : Network R}
    (hcap : ∀ lane, isFinite (net.capacity lane) = true) {lanes : List Lane} (hne : lanes ≠ []) :
    (slowest? net lanes).isSome := by
  have hkeep (lanes : List Lane) (best : R × Option Lane) (h : best.2.isSome) :
      (lanes.foldl (fun best lane =>
        if net.capacity lane < best.1 then (net.capacity lane, some lane) else best)
          best).2.isSome := by
    induction lanes generalizing best with
    | nil => exact h
    | cons lane rest ih =>
      apply ih
      dsimp only
      split
      · rfl
      · exact h
  cases lanes with
  | nil => exact absurd rfl hne
  | cons lane rest =>
    refine hkeep rest _ ?_
    dsimp only
    rw [if_pos (BandwidthLaws.lt_infinity (hcap lane))]
    rfl

theorem target_ne_posInf {net : Network Exact} (hcap : ∀ lane, isFinite (net.capacity lane) = true)
    {c : Channel Exact} (hpath : c.path.hops ≠ []) : c.target net ≠ posInf := by
  have hfinite {b : Exact} (h : isFinite b = true) : b ≠ posInf := by
    rintro rfl
    cases h
  unfold target
  split
  · have hne : c.path.lanes ≠ [] := fun hnil => hpath (List.map_eq_nil_iff.mp hnil)
    obtain ⟨lane, hlane⟩ := Option.isSome_iff_exists.mp (slowest?_isSome hcap hne)
    have hcount : Nat.max (net.shares lane).dedicatedCount 1 ≠ 0 :=
      Nat.ne_of_gt (Nat.le_max_right (net.shares lane).dedicatedCount 1)
    obtain ⟨q, hq⟩ := Exact.eq_fin_of_isFinite (BandwidthLaws.finite_div_ofNat (hcap lane) hcount)
    -- Whatever is asked for, the equal share of the slowest lane bounds it.
    unfold dedicatedTarget equalShare
    rw [hlane]
    dsimp only
    rw [hq]
    exact Exact.min_fin_ne_posInf _ q
  · exact hfinite (finite_sharedTarget c net)

end Channel

namespace DataPlane

open Exact (fin posInf)

/-- What keeps transmissions moving: lanes have a bandwidth, paths have hops, no channel is
infinitely fast, and something remains of what is in flight unless it was empty from the start. -/
def moving : Standard Exact where
  capacity bandwidth := isFinite bandwidth = true
  path p := p.hops ≠ []
  requested _ := True
  allocated bandwidth := bandwidth ≠ posInf
  remaining size remaining := 0 < remaining ∨ size = 0

theorem sustained_moving : Sustained moving where
  zero := by
    intro h
    cases h
  target h hc := Channel.target_ne_posInf h.capacity (h.channel _ _ hc).path
  unfinished h := Or.inl (Queue.remaining_pos h)

end DataPlane

namespace Controller

open DataPlane (Operation moving)
open Exact (After fin)

/-- An update is due after the time to wait or after the least interval, whichever is longer. -/
theorem time_of_scheduleUpdate {R ε : Type} [Quantity R] [Simulation R] [SimulationLaws R]
    {c : Controller R ε}
    (ha : c.agenda.Sound) (hnone : c.pendingUpdate = none) {e : Event R (Notice R ε)}
    (he : e ∈ Simulation.pending c.scheduleUpdate.agenda)
    (hid : c.scheduleUpdate.pendingUpdate = some e.id) :
    ∃ next, c.nextUpdate? = some next ∧
      e.time = c.now + max (max (next - c.now) c.settings.minInterval) 0 := by
  have hcancel : c.cancelUpdate = c := by
    unfold cancelUpdate
    rw [hnone]
  unfold scheduleUpdate at he hid
  rw [hcancel] at he hid
  dsimp only at he hid
  split at hid
  · rw [hnone] at hid
    cases hid
  · rename_i next hnext
    rw [hnext] at he
    refine ⟨next, hnext, ?_⟩
    rcases Simulation.mem_emit.mp he with hold | rfl
    -- No event that was pending before has the new number.
    · have hgiven := ha.given e hold
      rw [← Option.some.inj hid] at hgiven
      exact absurd hgiven (SimulationLaws.fresh _ _ _)
    · rfl

theorem brings_of_issues {P : FlowId → Flow Exact → Prop} {op : Operation Exact}
    (h : Issues P op) : op.Brings moving := by
  cases op with
  | add => exact ⟨h.1, trivial⟩
  | reroute => exact h
  | setRequested => trivial
  | send key t =>
    obtain ⟨p, time, hsize, rfl⟩ := h
    unfold checkSize at hsize
    split at hsize
    · cases hsize
    · rename_i hadmitted
      rw [Bool.or_eq_true, not_or, Bool.not_eq_true', Bool.not_eq_false, decide_eq_true_eq]
        at hadmitted
      obtain ⟨q, hq⟩ := Exact.eq_fin_of_isFinite hadmitted.1
      have hnonneg : 0 ≤ q := not_lt.mp fun hlt =>
        hadmitted.2 (hq ▸ (Exact.fin_lt_fin.mpr hlt : fin q < 0))
      show 0 < p.size ∨ p.size = 0
      rw [hq]
      rcases hnonneg.eq_or_lt with rfl | hpos
      · exact Or.inr rfl
      · exact Or.inl (Exact.fin_lt_fin.mpr hpos)
  | _ => trivial

variable [Simulation Exact] {c : Controller Exact ε} {a : ℚ}

/-- Once all queues have been advanced to the present,
whatever comes next in a moving plane comes later. -/
theorem after_nextUpdate {next : Exact} (hmoving : DataPlane.Meets moving c.plane)
    (hquiet : c.plane.Quiet (fin a))
    (hsize : ∀ k d, c.plane.channel? k = some d → ∀ t ∈ d.queue.inFlight, t.size ≠ 0)
    (hnext : c.nextUpdate? = some next) : After a next := by
  -- Nothing is due at present, and what remains of a transmission takes time to be sent.
  have hafter : After a (min (Quantity.minimum
      (c.plane.channels.values.map fun d => d.queue.nextFinish)) c.plane.nextTimeout) := by
    apply Quantity.min_induction
    · refine Quantity.foldl_min_induction (fun x hx => ?_) Exact.after_posInf
      obtain ⟨d, hd, rfl⟩ := List.mem_map.mp hx
      obtain ⟨k, hk⟩ := Table.exists_of_mem_values hd
      have hmeets := hmoving.channel k d hk
      refine Queue.after_nextFinish (fun t ht => ⟨((hquiet k d hk).2.current t ht).1, ?_⟩) ?_
      · exact (hmeets.remaining t ht).resolve_right (hsize k d hk t ht)
      · rw [hmoving.registered.bandwidth k d hk]
        exact hmeets.allocated
    · refine Quantity.foldl_min_induction (fun x hx => ?_) Exact.after_posInf
      obtain ⟨d, hd, rfl⟩ := List.mem_map.mp hx
      obtain ⟨k, hk⟩ := Table.exists_of_mem_values hd
      exact Queue.after_nextTimeout fun t ht => ((hquiet k d hk).2.current t ht).2
  rw [nextUpdate?_eq] at hnext
  split at hnext
  · cases hnext
  · dsimp only at hnext
    split at hnext
    · exact Option.some.inj hnext ▸ hafter
    · cases hnext

/-- What waits for a time is finite, and something is in flight. -/
theorem nextUpdate?_finite {next : Exact} (hnext : c.nextUpdate? = some next) :
    (∃ q, next = fin q) ∧ ∃ k d, c.plane.channel? k = some d := by
  rw [nextUpdate?_eq] at hnext
  split at hnext
  · cases hnext
  · rename_i hne
    dsimp only at hnext
    split at hnext
    · rename_i hfinite
      cases hnext
      refine ⟨Exact.eq_fin_of_isFinite hfinite, ?_⟩
      cases hentries : c.plane.channels.entries with
      | nil => exact absurd (List.isEmpty_iff.mpr hentries) hne
      | cons e rest =>
        have hmem : e ∈ c.plane.channels.entries := hentries ▸ List.mem_cons_self
        exact ⟨e.1, e.2, Table.get?_eq_some_iff.mpr hmem⟩
    · cases hnext

end Controller

namespace Journal

open Controller (Action)
open Exact (fin)

/-- After the delivery of an update the channels have been brought to the present, and if there is a
next update, it is due when the channels say. -/
theorem Sound.deliver_update {R : Type} [Quantity R] [OrderLaws R] [Simulation R]
    [SimulationLaws R] {j : Journal R ε} (h : j.Sound) {time : R} (ht : j.controller.now ≤ time)
    {id : EventId} (hid : j.controller.pendingUpdate = some id) {e : Event R (Notice R ε)}
    (he : e ∈ Simulation.pending (j.act time (.deliver id)).controller.agenda)
    (hnext : (j.act time (.deliver id)).controller.pendingUpdate = some e.id) :
    ∃ c : Controller R ε, c.plane = (j.act time (.deliver id)).controller.plane ∧
      c.plane.Quiet time ∧ c.plane.Full ∧ ∃ next, c.nextUpdate? = some next ∧
        e.time = time + max (max (next - time) j.controller.settings.minInterval) 0 := by
  have hc := Controller.Sound.setClock h ht
  have hself : time ≤ time := OrderLaws.le_self_of_le ht
  unfold Journal.act at he hnext ⊢
  dsimp only at he hnext ⊢
  cases hfind :
      (Simulation.pending (j.controller.setClock time).agenda).find? fun e => e.id == id with
  | none =>
    -- No event has the number, so that it cannot be that of the next update.
    rw [hfind] at he hnext
    have hsame : e.id = id := Option.some.inj (hnext.symm.trans hid)
    have hno := List.find?_eq_none.mp hfind e he
    exact absurd (beq_iff_eq.mpr hsame) hno
  | some f =>
    rw [hfind] at he hnext
    have hmem := List.mem_of_find?_eq_some hfind
    have hf : f.id = id :=
      eq_of_beq (List.find?_some (p := fun f : Event R (Notice R ε) => f.id == id) hfind)
    have hwhat : f.what = .update := (hc.ledger.update id hid).2 f hmem hf
    dsimp only at he hnext ⊢
    rw [hwhat] at he hnext ⊢
    let taken : Controller R ε :=
      { j.controller.setClock time with
        agenda := Simulation.cancel (j.controller.setClock time).agenda f.id }
    let woken : Controller R ε :=
      { taken with
        pendingUpdate := none
        stats := { taken.stats with updates := taken.stats.updates + 1 } }
    have htaken : Controller.Sound (Multiset.ofList j.accepted) (j.delivered ++ [f.what]) taken :=
      hc.deliver hmem
    have hwoken : Controller.Sound (Multiset.ofList j.accepted) (j.delivered ++ [f.what]) woken :=
      ⟨htaken.ledger.congr rfl rfl rfl (Or.inr rfl), htaken.loaded⟩
    have hclock : woken.now = time :=
      ((j.controller.setClock time).now_cancel f.id).trans (j.controller.now_setClock time)
    obtain ⟨hcurrent, hsameClock⟩ := hwoken.process (hclock.symm ▸ hself)
    rw [hclock] at hsameClock
    have hsame := Controller.sameButReports_process woken
    obtain ⟨next, hnext', htime⟩ :=
      Controller.time_of_scheduleUpdate hcurrent.ledger.agenda hsame.pending he hnext
    rw [hsame.settings, hsameClock] at htime
    have hquiet := hcurrent.quiet
    rw [hsameClock] at hquiet
    exact ⟨woken.process, (Controller.plane_scheduleUpdate _).symm, hquiet, hcurrent.full, next,
      hnext', htime⟩

section Run

variable [Simulation Exact]

/-- In a run over a network that was built, transmissions keep moving. -/
theorem meets_moving {net : Network Exact} (ht : net.topology.Constructed)
    (hfresh : net.load = Table.empty) (settings : Settings Exact)
    (actions : List (Exact × Action Exact ε)) :
    DataPlane.Meets DataPlane.moving ((start settings net).run actions).controller.plane := by
  obtain ⟨built, hbuilt, htopology, hload, _⟩ := plane_start (ε := ε) settings net
  have hcap (lane : Lane) : DataPlane.moving.capacity (built.capacity lane) := by
    unfold Network.capacity
    rw [htopology]
    exact ht.wellFormed.capacity_induction (P := DataPlane.moving.capacity) rfl
      (fun _ hb => hb.2) lane
  have hreach := reaches_run Controller.admits_anything settings net
    fun a (_ : a ∈ actions) => a.2.brings_anything
  rw [hbuilt] at hreach
  exact hreach.keeps (P := DataPlane.Meets DataPlane.moving)
    (fun dp time op hop h =>
      DataPlane.sustained_moving.perform h time (Controller.brings_of_issues hop))
    (.create hcap (hload.trans hfresh) settings.discipline settings.timeout)

/-- In a run over a network that was built, each look at the channels puts the next one at a later
time: at least the least interval later, and later in any case if no packet in flight is empty. -/
theorem update_moves_on [SimulationLaws Exact] {net : Network Exact} (ht : net.topology.Constructed)
    (hfresh : net.load = Table.empty) (settings : Settings Exact)
    {actions : List (Exact × Action Exact ε)} {time : Exact} {id : EventId}
    (htimes : (0 :: (actions.map Prod.fst ++ [time])).IsChain (· ≤ ·))
    (hid : ((start settings net).run actions).controller.pendingUpdate = some id) :
    let c := (((start settings net).run actions).act time (.deliver id)).controller
    ∀ e ∈ Simulation.pending c.agenda, c.pendingUpdate = some e.id →
      (0 < settings.minInterval → time + settings.minInterval ≤ e.time) ∧
      ((∀ k d, c.plane.channel? k = some d → ∀ t ∈ d.queue.inFlight, t.size ≠ 0) →
        time < e.time) := by
  intro c e he hnext
  obtain ⟨hsound, hchain⟩ := (Sound.start settings net).run_append actions [time]
    ((now_start settings net).symm ▸ htimes)
  have htime := (List.isChain_cons_cons.mp hchain).1
  have hstart : 0 ≤ time := by
    have : IsTrans Exact (· ≤ ·) := ⟨fun _ _ _ => OrderLaws.le_trans⟩
    have hall := (List.pairwise_cons.mp (List.isChain_iff_pairwise.mp htimes)).1
    exact hall time (List.mem_append_right _ (List.mem_singleton_self _))
  obtain ⟨c', hplane, hquiet, hfull, next, hnext', he'⟩ := hsound.deliver_update htime hid he hnext
  obtain ⟨⟨q, rfl⟩, k, d, hd⟩ := Controller.nextUpdate?_finite hnext'
  -- The time is finite, since it lies before the deadline of what is in flight.
  obtain ⟨t, ht'⟩ := List.exists_mem_of_ne_nil _ (hfull k d hd)
  obtain ⟨a, rfl⟩ := Queue.finite_of_not_isDue hstart ((hquiet k d hd).2.current t ht').2
  have hsettings : ((start settings net).run actions).controller.settings = settings :=
    (runs_run (start settings net) Controller.admits_anything
      fun a (_ : a ∈ actions) => a.2.brings_anything).settings
  rw [hsettings, Exact.fin_sub_fin] at he'
  obtain ⟨hleast, hlater⟩ := Exact.delay_bounds (a := a) (q - a) settings.minInterval
  refine ⟨fun hm => he' ▸ hleast hm, fun hsize => ?_⟩
  have hmoving : DataPlane.Meets DataPlane.moving c'.plane := by
    have hall := meets_moving ht hfresh settings (actions ++ [(fin a, .deliver id)])
    rw [hplane]
    unfold run at hall ⊢
    rw [List.foldl_append] at hall
    exact hall
  have hafter := Controller.after_nextUpdate hmoving hquiet (hplane ▸ hsize) hnext'
  rw [he']
  exact hlater (sub_pos.mpr (hafter q rfl))

end Run

/-- Two packets are on their way when the first update is delivered, and another update follows. -/
theorem errand_update_moves_on :
    let settings : Settings Exact := Settings.default
    let j := rack.run (errand.take 4)
    let c := (j.act 1 (.deliver 1)).controller
    Topology.rack.Constructed ∧
      (0 :: ((errand.take 4).map Prod.fst ++ [1])).IsChain (· ≤ ·) ∧
      j.controller.pendingUpdate = some 1 ∧
      ((Simulation.pending c.agenda).any fun e => c.pendingUpdate == some e.id) = true ∧
      ∀ e ∈ Simulation.pending c.agenda, c.pendingUpdate = some e.id →
        (0 < settings.minInterval → 1 + settings.minInterval ≤ e.time) ∧
        ((∀ k d, c.plane.channel? k = some d → ∀ t ∈ d.queue.inFlight, t.size ≠ 0) →
          1 < e.time) := by
  have horder : (0 :: ((errand.take 4).map Prod.fst ++ [1])).IsChain (· ≤ ·) := by
    unfold errand
    simp only [List.take_succ_cons, List.take_zero, List.map_cons, List.map_nil, List.cons_append,
      List.nil_append, List.isChain_cons_cons, List.IsChain.singleton, and_true]
    decide
  have hpending : (rack.run (errand.take 4)).controller.pendingUpdate = some 1 := by decide +kernel
  exact ⟨Topology.rack_constructed, horder, hpending, by decide +kernel,
    update_moves_on Topology.rack_constructed rfl Settings.default horder hpending⟩

/-- Without a least interval an empty packet stops the clock: the update at time zero reports
nothing and puts the next one at time zero. -/
theorem empty_packet_stalls :
    let settings : Settings Exact := { Settings.default with minInterval := 0 }
    let actions : List (Exact × Action Exact Unit) :=
      [(0, .addVm ⟨1, "sender", none⟩ 0), (0, .addVm ⟨2, "receiver", none⟩ 1),
        (0, .send ⟨⟨1, 1, 2, 7⟩, [], 0, none, 1⟩)]
    let j := (start settings { Network.empty .tree with topology := Topology.rack }).run actions
    let c := (j.act 0 (.deliver 0)).controller
    ¬ (settings.minInterval < 0 ∨ settings.monitoringInterval < 0) ∧ j.accepted.length = 1 ∧
      (Simulation.pending j.controller.agenda).map (fun e => (e.id, e.time)) = [(0, 0)] ∧
      j.controller.pendingUpdate = some 0 ∧ c.stats.updates = 1 ∧
      (Simulation.pending c.agenda).map (fun e => (e.id, e.time)) = [(1, 0)] ∧
        c.pendingUpdate = some 1 ∧
      c.stats.completed = 0 ∧ c.stats.failed = 0 := by
  refine ⟨?_, ?_, ?_, ?_, ?_, ?_, ?_, ?_, ?_⟩ <;> decide +kernel

end Journal

end FlowFabric
