import FlowFabric.Proofs.Controller.Operations
import FlowFabric.Proofs.DataPlane.Predictions

/-! Calls that fail after the channels were looked at do not plan the update anew: either the one
planned before is still ahead, or nothing was predicted, and the look has not changed that. -/

namespace FlowFabric

variable {R ε : Type}

open Quantity (isFinite)
open Simulation (pending)

/-- The update of the channels. -/
def Notice.isUpdate : Notice R ε → Bool
  | .update => true
  | _ => false

/-- The sampling of the traffic. -/
def Notice.isTick : Notice R ε → Bool
  | .tick => true
  | _ => false

namespace Simulation.Agenda

variable {α : Type} [Simulation R] {a : Simulation.Agenda R α} {kind : α → Bool}

/-- The numbers of the pending events of a kind. -/
def held (a : Simulation.Agenda R α) (kind : α → Bool) : List EventId :=
  ((pending a).filter fun e => kind e.what).map Event.id

theorem mem_held {id : EventId} :
    id ∈ a.held kind ↔ ∃ e ∈ pending a, kind e.what = true ∧ e.id = id := by
  unfold held
  rw [List.mem_map]
  constructor
  · rintro ⟨e, he, rfl⟩
    obtain ⟨hmem, hkind⟩ := List.mem_filter.mp he
    exact ⟨e, hmem, hkind, rfl⟩
  · rintro ⟨e, hmem, hkind, rfl⟩
    exact ⟨e, List.mem_filter.mpr ⟨hmem, hkind⟩, rfl⟩

variable [Quantity R] [SimulationLaws R]

theorem held_empty (kind : α → Bool) :
    (Simulation.empty : Simulation.Agenda R α).held kind = [] := by
  unfold held
  rw [SimulationLaws.pending_empty]
  rfl

theorem held_setClock (a : Simulation.Agenda R α) (time : R) (kind : α → Bool) :
    (Simulation.setClock a time).held kind = a.held kind := by
  unfold held
  rw [SimulationLaws.pending_setClock]

theorem held_emit (a : Simulation.Agenda R α) (delay : R) (what : α) (kind : α → Bool) :
    (Simulation.emit a delay what).2.held kind =
      a.held kind ++ if kind what then [(Simulation.emit a delay what).1] else [] := by
  unfold held
  rw [SimulationLaws.pending_emit, List.filter_append, List.map_append]
  congr 1
  cases hkind : kind what <;> simp [hkind]

theorem held_cancel (a : Simulation.Agenda R α) (id : EventId) (kind : α → Bool) :
    (Simulation.cancel a id).held kind = (a.held kind).filter (· != id) := by
  unfold held
  rw [SimulationLaws.pending_cancel, List.filter_map, List.filter_filter, List.filter_filter]
  congr 1
  refine List.filter_congr fun e _ => ?_
  exact Bool.and_comm _ _

/-- An event that leaves the agenda is the known one of its kind,
and those of other kinds are still ahead. -/
theorem Sound.held_cancel (h : a.Sound) {e : Event R α} (he : e ∈ pending a)
    {known : Option EventId} (hknown : a.held kind = known.toList) :
    (Simulation.cancel a e.id).held kind = (if kind e.what then none else known).toList := by
  rw [Agenda.held_cancel, hknown]
  split
  · rename_i hkind
    have hmem : e.id ∈ a.held kind := mem_held.mpr ⟨e, he, hkind, rfl⟩
    rw [hknown, Option.mem_toList] at hmem
    rw [hmem]
    exact List.filter_eq_nil_iff.mpr fun id hid => by simpa using hid
  · rename_i hkind
    refine List.filter_eq_self.mpr fun id hid => ?_
    rw [bne_iff_ne]
    rintro rfl
    -- A number belongs to one event, which is not of this kind.
    rw [← hknown] at hid
    obtain ⟨f, hf, hfkind, hid⟩ := mem_held.mp hid
    obtain rfl : f = e := List.inj_on_of_nodup_map h.nodup hf he hid
    exact hkind hfkind

end Simulation.Agenda

namespace Controller

variable [Simulation R]

open Simulation (Agenda)

/-- The update and the sampling that are ahead are those that the controller knows of. -/
structure Tidy (c : Controller R ε) : Prop where
  agenda : c.agenda.Sound
  updates : c.agenda.held Notice.isUpdate = c.pendingUpdate.toList
  ticks : c.agenda.held Notice.isTick = c.pendingTick.toList

namespace Tidy

variable {c : Controller R ε}

theorem congr (h : Tidy c) {c' : Controller R ε} (ha : c'.agenda = c.agenda)
    (hu : c'.pendingUpdate = c.pendingUpdate) (ht : c'.pendingTick = c.pendingTick) : Tidy c' where
  agenda := ha ▸ h.agenda
  updates := by
    rw [ha, hu]
    exact h.updates
  ticks := by
    rw [ha, ht]
    exact h.ticks

variable [Quantity R] [SimulationLaws R]

theorem setClock (h : Tidy c) (time : R) : Tidy (c.setClock time) where
  agenda := h.agenda.setClock time
  updates := (Agenda.held_setClock c.agenda time _).trans h.updates
  ticks := (Agenda.held_setClock c.agenda time _).trans h.ticks

theorem cancel (h : Tidy c) {e : Event R (Notice R ε)} (he : e ∈ pending c.agenda) :
    Tidy { c with
      agenda := Simulation.cancel c.agenda e.id
      pendingUpdate := if e.what.isUpdate then none else c.pendingUpdate
      pendingTick := if e.what.isTick then none else c.pendingTick } where
  agenda := h.agenda.cancel e.id
  updates := h.agenda.held_cancel he h.updates
  ticks := h.agenda.held_cancel he h.ticks

theorem cancelUpdate (h : Tidy c) : Tidy c.cancelUpdate ∧ c.cancelUpdate.pendingUpdate = none := by
  unfold Controller.cancelUpdate
  split
  · rename_i hnone
    exact ⟨h, hnone⟩
  · rename_i id hid
    have hmem : id ∈ c.agenda.held Notice.isUpdate := by
      rw [h.updates, hid]
      exact List.mem_singleton_self id
    obtain ⟨e, he, hkind, rfl⟩ := Agenda.mem_held.mp hmem
    have hother : e.what.isTick = false := by
      cases hwhat : e.what with
      | update => rfl
      | _ =>
        rw [hwhat] at hkind
        cases hkind
    have hcancelled := h.cancel he
    rw [if_pos hkind, hother] at hcancelled
    exact ⟨hcancelled, rfl⟩

theorem emit (h : Tidy c) {c' : Controller R ε} {delay : R} {what : Notice R ε}
    (ha : c'.agenda = (Simulation.emit c.agenda delay what).2)
    (hu : c'.pendingUpdate = c.pendingUpdate) (ht : c'.pendingTick = c.pendingTick)
    (hwhat : what.isUpdate = false ∧ what.isTick = false) : Tidy c' where
  agenda := ha ▸ h.agenda.emit delay what
  updates := by
    rw [ha, hu, Agenda.held_emit, hwhat.1, h.updates]
    exact List.append_nil _
  ticks := by
    rw [ha, ht, Agenda.held_emit, hwhat.2, h.ticks]
    exact List.append_nil _

omit [Quantity R] [SimulationLaws R] in
theorem reports {report : Controller R ε → Departure R → Controller R ε}
    (hreport : ∀ c d, Tidy c → Tidy (report c d)) (ds : List (Departure R)) (h : Tidy c) :
    Tidy (ds.foldl report c) := by
  induction ds generalizing c with
  | nil => exact h
  | cons d rest ih => exact ih (hreport c d h)

/-- What is reported is neither an update nor a sampling. -/
theorem process (h : Tidy c) : Tidy c.process := by
  have hcompleted (c : Controller R ε) (d : Departure R) (hc : Tidy c) :
      Tidy (c.reportCompleted d) := hc.emit rfl rfl rfl ⟨rfl, rfl⟩
  have hfailed (c : Controller R ε) (d : Departure R) (hc : Tidy c) : Tidy (c.reportFailed d) :=
    hc.emit rfl rfl rfl ⟨rfl, rfl⟩
  unfold Controller.process
  split
  · exact h
  · exact reports hfailed _ (reports hcompleted _ (h.congr rfl rfl rfl))

theorem scheduleUpdate (h : Tidy c) : Tidy c.scheduleUpdate := by
  obtain ⟨hc, hnone⟩ := h.cancelUpdate
  unfold Controller.scheduleUpdate
  dsimp only
  split
  · exact hc
  · refine ⟨hc.agenda.emit _ _, ?_, ?_⟩
    · dsimp only
      rw [Agenda.held_emit, hc.updates, hnone]
      rfl
    · dsimp only
      rw [Agenda.held_emit, hc.ticks]
      exact List.append_nil _

theorem scheduleTick (h : Tidy c) : Tidy c.scheduleTick := by
  unfold Controller.scheduleTick
  split
  · exact h
  · rename_i hwanted
    rw [not_or, Option.not_isSome_iff_eq_none] at hwanted
    refine ⟨h.agenda.emit _ _, ?_, ?_⟩
    · dsimp only
      rw [Agenda.held_emit, h.updates]
      exact List.append_nil _
    · dsimp only
      rw [Agenda.held_emit, h.ticks, hwanted.2]
      rfl

end Tidy

section Calls

variable [Quantity R] {c c' : Controller R ε}

/-- Nothing has happened to channels and events. The forwarding entries may be other ones, and so
may what is known of machines and flows. -/
structure Refiles (c c' : Controller R ε) : Prop where
  agenda : c'.agenda = c.agenda
  update : c'.pendingUpdate = c.pendingUpdate
  tick : c'.pendingTick = c.pendingTick
  plane : ∃ entries, c'.plane = { c.plane with network := c.network.withForwarding entries }

namespace Refiles

omit [Quantity R] in
theorem same (ha : c'.agenda = c.agenda) (hu : c'.pendingUpdate = c.pendingUpdate)
    (ht : c'.pendingTick = c.pendingTick) (hp : c'.plane = c.plane) : Refiles c c' :=
  ⟨ha, hu, ht, c.network.forwarding, hp⟩

theorem withNetwork {key : FlowKey} {net : Network R} (h : Network.Touches key c.network net) :
    Refiles c (c.withNetwork net) :=
  ⟨rfl, rfl, rfl, net.forwarding, plane_withNetwork h c.now⟩

end Refiles

omit [Quantity R] in
theorem refiles_addVm (c : Controller R ε) (vm : Vm) (host : NodeId) :
    Refiles c (c.addVm vm host).2 := by
  unfold addVm
  split <;> exact .same rfl rfl rfl rfl

omit [Quantity R] in
theorem refiles_addChain (c : Controller R ε) (chain : ServiceChain R) :
    Refiles c (c.addChain chain).2 := by
  unfold addChain
  split <;> exact .same rfl rfl rfl rfl

theorem refiles_resolve (c : Controller R ε) (key : FlowKey) (src dst : NodeId) (dynamic : Bool) :
    Refiles c (c.resolve key src dst dynamic).2 :=
  .withNetwork (Network.touches_resolve c.select c.network key src dst dynamic)

theorem refiles_deploy (c : Controller R ε) (key : FlowKey) : Refiles c (c.deploy key).2 := by
  rcases c.deploy_cases key with ⟨_, heq⟩ | ⟨src, dst, _, heq⟩
  all_goals rw [heq]
  · exact .same rfl rfl rfl rfl
  · exact refiles_resolve c key src dst false

theorem refiles_addFlow (c : Controller R ε) (f : Flow R) : Refiles c (c.addFlow f).2 := by
  have hdeploy := refiles_deploy c f.key
  rcases c.addFlow_cases f with ⟨e, heq⟩ | ⟨e, c', _, hdeployed, heq⟩ | ⟨c', _, hdeployed, heq⟩
  · rw [heq]
    exact .same rfl rfl rfl rfl
  · rw [hdeployed] at hdeploy
    rw [heq]
    exact hdeploy
  · rw [hdeployed] at hdeploy
    rw [heq]
    exact ⟨hdeploy.agenda, hdeploy.update, hdeploy.tick, hdeploy.plane⟩

theorem refiles_latency (c : Controller R ε) (key : FlowKey) : Refiles c (c.latency key).2 := by
  rcases c.latency_cases key with ⟨channel, _, heq⟩ | ⟨e, _, heq⟩ | ⟨src, dst, _, heq⟩
  all_goals rw [heq]
  · exact .same rfl rfl rfl rfl
  · exact .same rfl rfl rfl rfl
  · exact refiles_resolve c key src dst false

theorem pendingUpdate_scheduleTick (c : Controller R ε) :
    c.scheduleTick.pendingUpdate = c.pendingUpdate := by
  unfold scheduleTick
  split <;> rfl

/-- An update is planned unless there is nothing to wait for. -/
theorem nextUpdate?_of_scheduleUpdate (h : c.scheduleUpdate.pendingUpdate = none) :
    c.nextUpdate? = none := by
  have hsame : c.cancelUpdate.nextUpdate? = c.nextUpdate? := by
    unfold nextUpdate?
    rw [plane_cancelUpdate]
  rw [← hsame]
  unfold scheduleUpdate at h
  dsimp only at h
  split at h
  · assumption
  · cases h

end Calls

open Exact (fin posInf)
open DataPlane (Timely Still)

/-- The flows of a registry ask for finite bandwidths. -/
def measurable (_ : FlowId) (f : Flow Exact) : Prop := isFinite f.bandwidth = true

theorem admits_measurable : Admits measurable where
  added _ h := isFinite_of_checkRequest h
  changed _ _ _ _ h := isFinite_of_checkRequest h

theorem Lays.timely {dp dp' : DataPlane Exact} {a : ℚ} (h : Lays measurable (fin a) dp dp')
    (ht : Timely dp) : Timely dp' := by
  cases h with
  | forward entries => exact ht.withForwarding entries
  | reroute key h => exact ht.reroute key _ a
  | add key h ha => exact ht.add key _ (ha.isFinite fun _ _ hf => hf) a

/-- A packet that is accepted is larger than the tolerance, and its timeout is a time or none. -/
structure Sendable (p : Packet Exact) : Prop where
  size : checkSize p.size = .ok () → tolerance < p.size
  timeout : ∀ x, p.timeout = some x → x.Definite

theorem Sendable.timely {p : Packet Exact} (h : Sendable p) (hsize : checkSize p.size = .ok ())
    {now : Exact} (hnow : isFinite now = true) : (Transmission.ofPacket p now).Timely := by
  have hfinite : isFinite p.size = true := by
    unfold checkSize at hsize
    split at hsize
    · cases hsize
    · rename_i hadmitted
      rw [Bool.or_eq_true, not_or, Bool.not_eq_true', Bool.not_eq_false] at hadmitted
      exact hadmitted.1
  refine ⟨⟨hfinite, hnow, h.timeout⟩, ?_⟩
  obtain ⟨s, hs⟩ := Exact.eq_fin_of_isFinite hfinite
  have hlarge := h.size hsize
  unfold Queue.isDone
  rw [Bool.not_eq_false', decide_eq_true_eq]
  show tolerance * Quantity.max p.size 1 < p.size
  rw [hs, Exact.tolerance_eq] at hlarge ⊢
  rw [Exact.fin_lt_fin] at hlarge
  rw [Exact.ofNat_eq_fin, Exact.max_fin, Exact.fin_mul_fin, Exact.fin_lt_fin, Nat.cast_one]
  -- Up to size one the tolerance is what it is, and above it is a small part of the size.
  rcases le_total s 1 with hle | hle
  · rw [sup_eq_right.mpr hle]
    linarith
  · rw [sup_eq_left.mpr hle]
    linarith

variable [Simulation Exact]

/-- Without anything to wait for nothing is predicted for any channel. -/
theorem still_of_nextUpdate? {c : Controller Exact ε} (ht : Timely c.plane)
    (h : c.nextUpdate? = none) : Still c.plane := by
  rw [nextUpdate?_eq] at h
  split at h
  · rename_i hempty
    intro k d hd
    have hmem := Table.get?_eq_some_iff.mp hd
    rw [List.isEmpty_iff.mp hempty] at hmem
    cases hmem
  · dsimp only at h
    split at h
    · cases h
    · rename_i hinfinite
      exact ht.still (Bool.eq_false_iff.mpr hinfinite)

/-- The predictions for the channels are times or never, at a time that is a number. -/
structure Predictable (c : Controller Exact ε) : Prop where
  tidy : Tidy c
  clock : isFinite c.now = true
  registers : Registers measurable c.registry
  timely : Timely c.plane

/-- Besides, an update is ahead unless nothing is predicted. -/
structure Poised (c : Controller Exact ε) : Prop extends Predictable c where
  due : c.pendingUpdate = none → Still c.plane

variable {c c' : Controller Exact ε}

namespace Predictable

theorem works (h : Predictable c) (hw : Works measurable c c') : Predictable c' where
  tidy := h.tidy.congr hw.agenda hw.update hw.tick
  clock := by
    rw [hw.now]
    exact h.clock
  registers := hw.registry ▸ h.registers
  timely := by
    obtain ⟨a, ha⟩ := Exact.eq_fin_of_isFinite h.clock
    have hplane := hw.plane h.registers
    rw [ha] at hplane
    generalize c'.plane = plane at hplane
    induction hplane with
    | refl => exact h.timely
    | tail _ hlast ih => exact hlast.timely ih

/-- A change of the plane alone. -/
theorem withPlane (h : Predictable c) {plane : DataPlane Exact} (hp : Timely plane) :
    Predictable { c with plane } :=
  ⟨h.tidy.congr rfl rfl rfl, h.clock, h.registers, hp⟩

/-- The same but for counts, the placement and what was sampled. -/
theorem congr (h : Predictable c) (ha : c'.agenda = c.agenda)
    (hu : c'.pendingUpdate = c.pendingUpdate) (ht : c'.pendingTick = c.pendingTick)
    (hr : c'.registry = c.registry) (hp : c'.plane = c.plane) : Predictable c' where
  tidy := h.tidy.congr ha hu ht
  clock := by
    show isFinite (Simulation.clock c'.agenda) = true
    rw [ha]
    exact h.clock
  registers := hr ▸ h.registers
  timely := hp ▸ h.timely

variable [SimulationLaws Exact]

theorem process (h : Predictable c) : Predictable c.process where
  tidy := h.tidy.process
  clock := by
    rw [now_process]
    exact h.clock
  registers := by
    rw [(sameButReports_process c).registry]
    exact h.registers
  timely := by
    obtain ⟨a, ha⟩ := Exact.eq_fin_of_isFinite h.clock
    rw [plane_process, ha]
    split
    · exact h.timely
    · exact h.timely.advance a

theorem scheduleTick (h : Predictable c) : Predictable c.scheduleTick where
  tidy := h.tidy.scheduleTick
  clock := by
    rw [now_scheduleTick]
    exact h.clock
  registers := (acts_scheduleTick c).registers h.registers
  timely := by
    rw [plane_scheduleTick]
    exact h.timely

/-- Planning the update anew leaves it ahead whenever something is predicted. -/
theorem scheduleUpdate (h : Predictable c) : Poised c.scheduleUpdate where
  tidy := h.tidy.scheduleUpdate
  clock := by
    rw [now_scheduleUpdate]
    exact h.clock
  registers := (acts_scheduleUpdate c).registers h.registers
  timely := by
    rw [plane_scheduleUpdate]
    exact h.timely
  due hnone := by
    rw [plane_scheduleUpdate]
    exact still_of_nextUpdate? h.timely (nextUpdate?_of_scheduleUpdate hnone)

end Predictable

namespace Poised

theorem refiles (h : Poised c) (hc : Refiles c c') (hr : Registers measurable c'.registry) :
    Poised c' where
  tidy := h.tidy.congr hc.agenda hc.update hc.tick
  clock := by
    show isFinite (Simulation.clock c'.agenda) = true
    rw [hc.agenda]
    exact h.clock
  registers := hr
  timely := by
    obtain ⟨entries, hp⟩ := hc.plane
    rw [hp]
    exact h.timely.withForwarding entries
  due hnone := by
    obtain ⟨entries, hp⟩ := hc.plane
    rw [hp]
    exact h.due (hc.update.symm.trans hnone)

variable [SimulationLaws Exact]

/-- If no update is ahead, then nothing is predicted, and looking at the channels leaves it so. -/
theorem process (h : Poised c) (hl : c.plane.Loaded c.now) : Poised c.process where
  toPredictable := h.toPredictable.process
  due hnone := by
    rw [(sameButReports_process c).pending] at hnone
    obtain ⟨a, ha⟩ := Exact.eq_fin_of_isFinite h.clock
    rw [ha] at hl
    rw [plane_process, ha]
    split
    · exact h.due hnone
    · exact (h.due hnone).advance h.timely hl

theorem scheduleTick (h : Poised c) : Poised c.scheduleTick where
  toPredictable := h.toPredictable.scheduleTick
  due hnone := by
    rw [pendingUpdate_scheduleTick] at hnone
    rw [plane_scheduleTick]
    exact h.due hnone

end Poised

namespace Poised

variable [SimulationLaws Exact]

theorem send (h : Poised c) (hl : c.plane.Loaded c.now) {p : Packet Exact} (hp : Sendable p) :
    Poised (c.send p).2 := by
  have hprocessed := h.process hl
  rcases c.send_cases p with ⟨e, heq⟩ | ⟨e, c', hopened, heq⟩ | ⟨c', hsize, hopened, heq⟩
  all_goals rw [heq]
  · exact h
  · obtain ⟨net, htouches, hnet⟩ := openChannel_error c.process (congrArg Prod.fst hopened)
    obtain rfl : c.process.withNetwork net = c' := hnet.symm.trans (congrArg Prod.snd hopened)
    exact hprocessed.refiles (.withNetwork htouches) hprocessed.registers
  · have hworks := works_openChannel (P := measurable) c.process (c.effective p).key
    rw [hopened] at hworks
    have hopen := hprocessed.toPredictable.works hworks
    obtain ⟨a, ha⟩ := Exact.eq_fin_of_isFinite hopen.clock
    have heffective : (c.effective p).size = p.size ∧ (c.effective p).timeout = p.timeout := by
      unfold effective
      split <;> exact ⟨rfl, rfl⟩
    have hsendable : Sendable (c.effective p) :=
      ⟨heffective.1 ▸ hp.size, heffective.2 ▸ hp.timeout⟩
    have hsent := hsendable.timely (heffective.1 ▸ hsize) hopen.clock
    rw [ha] at hsent ⊢
    exact (hopen.withPlane (hopen.timely.send _ hsent a)).scheduleUpdate.scheduleTick

theorem setBandwidth (h : Poised c) (hl : c.plane.Loaded c.now) (key : FlowKey)
    (bandwidth : Exact) : Poised (c.setBandwidth key bandwidth).2 := by
  generalize hc : (c.registerBandwidth key bandwidth).process = c'
  have hprocessed (hrequest : checkRequest bandwidth = .ok ()) : Poised c' := by
    have hregistered : Poised (c.registerBandwidth key bandwidth) :=
      h.refiles (.same rfl rfl rfl rfl)
        ((acts_registerBandwidth c admits_measurable hrequest key).registers h.registers)
    exact hc ▸ hregistered.process hl
  rcases c.setBandwidth_cases key bandwidth hc with ⟨e, heq⟩ | ⟨hrequest, _, heq⟩ |
    ⟨channel, e, c'', hrequest, _, _, hadapted, heq⟩ | ⟨channel, c'', hrequest, _, hadapted, heq⟩
  all_goals rw [heq]
  · exact h
  · exact hprocessed hrequest
  · -- Only the search for another path has failed, which leaves the channel where it is.
    have hpoised := hprocessed hrequest
    obtain ⟨net, htouches, hnet⟩ := adaptPath_error c' (congrArg Prod.fst hadapted)
    obtain rfl : c'.withNetwork net = c'' := hnet.symm.trans (congrArg Prod.snd hadapted)
    exact hpoised.refiles (.withNetwork htouches) hpoised.registers
  · have hpredictable : Predictable c'' := by
      rcases hadapted with rfl | hadapted
      · exact (hprocessed hrequest).toPredictable
      · have hworks := works_adaptPath (P := measurable) c' channel
        rw [hadapted] at hworks
        exact (hprocessed hrequest).toPredictable.works hworks
    obtain ⟨a, ha⟩ := Exact.eq_fin_of_isFinite hpredictable.clock
    have hfinite := isFinite_of_checkRequest hrequest
    rw [ha]
    exact (hpredictable.withPlane
      (hpredictable.timely.setRequested key hfinite a)).scheduleUpdate

theorem migrate (h : Poised c) (hl : c.plane.Loaded c.now) (vm : VmId) (old new : NodeId) :
    Poised (c.migrate vm old new).2 := by
  rcases c.migrate_cases vm old new with ⟨e, _, heq⟩ | ⟨_, heq⟩
  all_goals rw [heq]
  · exact h
  · let placed := c.relocate vm new
    have hplaced : Predictable placed :=
      (h.process hl).toPredictable.congr rfl rfl rfl rfl rfl
    have hmoved := hplaced.works (works_moveFlows vm old (placed.flowsToMove vm) placed)
    let moved := (moveFlows vm old (placed.flowsToMove vm) placed).2
    let counted : Controller Exact ε :=
      { moved with stats := { moved.stats with migrations := moved.stats.migrations + 1 } }
    have hcounted : Predictable counted := hmoved.congr rfl rfl rfl rfl rfl
    exact hcounted.scheduleUpdate

end Poised

/-- A delivered update or sampling is no longer ahead;
the controller looks at the channels and plans the next update. -/
theorem Poised.deliver [SimulationLaws Exact] (h : Poised c) {e : Event Exact (Notice Exact ε)}
    (he : e ∈ pending c.agenda) :
    Poised (({ c with agenda := Simulation.cancel c.agenda e.id } :
      Controller Exact ε).handle e.what) := by
  have htidy := h.tidy.cancel he
  have hclock : isFinite (Simulation.clock (Simulation.cancel c.agenda e.id)) = true := by
    rw [SimulationLaws.clock_cancel]
    exact h.clock
  -- Reports and what others have planned do not count among the pending events.
  have hquiet (hu : e.what.isUpdate = false) (ht : e.what.isTick = false) :
      Poised { c with agenda := Simulation.cancel c.agenda e.id } := by
    rw [hu, ht] at htidy
    exact ⟨⟨htidy, hclock, h.registers, h.timely⟩, h.due⟩
  cases hwhat : e.what with
  | update =>
    rw [hwhat] at htidy
    let woken : Controller Exact ε :=
      { c with
        agenda := Simulation.cancel c.agenda e.id
        pendingUpdate := none
        stats := { c.stats with updates := c.stats.updates + 1 } }
    have hwoken : Predictable woken :=
      ⟨htidy.congr rfl rfl rfl, hclock, h.registers, h.timely⟩
    exact hwoken.process.scheduleUpdate
  | tick =>
    rw [hwhat] at htidy
    let woken : Controller Exact ε :=
      { c with agenda := Simulation.cancel c.agenda e.id, pendingTick := none }
    have hwoken : Predictable woken := ⟨htidy, hclock, h.registers, h.timely⟩
    let sampled : Controller Exact ε :=
      { woken.process with
        telemetry := woken.process.telemetry.record woken.process.plane woken.process.now }
    have hsampled : Predictable sampled := hwoken.process.congr rfl rfl rfl rfl rfl
    show Poised ((if sampled.plane.channels.isEmpty then sampled
      else sampled.scheduleTick).scheduleUpdate)
    split
    · exact hsampled.scheduleUpdate
    · exact hsampled.scheduleTick.scheduleUpdate
  | completed => exact hquiet (by rw [hwhat]; rfl) (by rw [hwhat]; rfl)
  | failed => exact hquiet (by rw [hwhat]; rfl) (by rw [hwhat]; rfl)
  | external => exact hquiet (by rw [hwhat]; rfl) (by rw [hwhat]; rfl)

/-- The events of the controller that are ahead are those that it knows of, at most one of each
kind, and an update is ahead whenever a completion or a deadline is predicted for a channel. -/
structure Scheduled (c : Controller Exact ε) : Prop where
  updates : c.agenda.held Notice.isUpdate = c.pendingUpdate.toList
  ticks : c.agenda.held Notice.isTick = c.pendingTick.toList
  due : ∀ k d, c.plane.channel? k = some d →
    isFinite d.queue.nextFinish = true ∨ isFinite d.queue.nextTimeout = true →
    c.pendingUpdate.isSome = true

theorem Poised.scheduled (h : Poised c) : c.Scheduled where
  updates := h.tidy.updates
  ticks := h.tidy.ticks
  due k d hd hpredicted := by
    rw [Option.isSome_iff_ne_none]
    intro hnone
    obtain ⟨hfinish, htimeout⟩ := h.due hnone k d hd
    rw [hfinish, htimeout] at hpredicted
    exact Bool.false_ne_true (hpredicted.elim id id)

/-- What an action brings along is measured in numbers:
packets that can be sent, and flows that ask for finite bandwidths. -/
def Action.Measured : Action Exact ε → Prop
  | .send packet => Sendable packet
  | .revise registry _ => Registers measurable registry
  | _ => True

end Controller

namespace Journal

open Controller (Action Poised Sendable measurable)

section Run

variable [Simulation Exact] [SimulationLaws Exact]

theorem poised_act {j : Journal Exact ε} (hj : j.Sound) (h : Poised j.controller) {time : Exact}
    (hpast : j.controller.now ≤ time) (ht : isFinite time = true) {a : Action Exact ε}
    (ha : a.Measured) : Poised (j.act time a).controller := by
  have hc : Poised (j.controller.setClock time) :=
    ⟨⟨h.tidy.setClock time, (Controller.now_setClock _ time).symm ▸ ht, h.registers, h.timely⟩,
      h.due⟩
  -- What is registered or placed leaves events and channels as they are.
  have hloaded := (Controller.Sound.setClock hj hpast).loaded
  cases a with
  | addVm vm host =>
    exact hc.refiles (Controller.refiles_addVm _ vm host)
      ((Controller.runs_addVm _ vm host).registers hc.registers)
  | addFlow flow =>
    exact hc.refiles (Controller.refiles_addFlow _ flow)
      ((Controller.acts_addFlow _ Controller.admits_measurable flow).registers hc.registers)
  | addChain chain =>
    exact hc.refiles (Controller.refiles_addChain _ chain)
      ((Controller.acts_addChain _ chain).registers hc.registers)
  | send packet => exact hc.send hloaded ha
  | setBandwidth key bandwidth => exact hc.setBandwidth hloaded key bandwidth
  | setFlowBandwidth flow bandwidth =>
    show Poised ((j.controller.setClock time).setFlowBandwidth flow bandwidth).2
    unfold Controller.setFlowBandwidth
    split
    · exact hc
    · exact hc.setBandwidth hloaded _ bandwidth
  | migrate vm old new => exact hc.migrate hloaded vm old new
  | latency key =>
    exact hc.refiles (Controller.refiles_latency _ key)
      ((Controller.acts_latency _ key).registers hc.registers)
  | deliver id =>
    unfold Journal.act
    dsimp only
    split
    · exact hc
    · rename_i e heq
      exact hc.deliver (List.mem_of_find?_eq_some heq)
  | plan delay what =>
    have hclock : isFinite ((j.controller.setClock time).plan delay what).now = true := by
      rw [Controller.plan, Controller.now_emit]
      exact hc.clock
    exact ⟨⟨hc.tidy.emit rfl rfl rfl ⟨rfl, rfl⟩, hclock, hc.registers, hc.timely⟩, hc.due⟩
  | revise registry placement => exact hc.refiles (.same rfl rfl rfl rfl) ha

theorem poised_start {net : Network Exact} (ht : net.topology.Constructed)
    (hfresh : net.load = Table.empty) {settings : Settings Exact}
    (htimeout : ∀ x, settings.timeout = some x → x.Definite) :
    Poised (start settings net : Journal Exact ε).controller where
  tidy := ⟨.empty, Simulation.Agenda.held_empty _, Simulation.Agenda.held_empty _⟩
  clock := by
    rw [now_start]
    rfl
  registers _ _ hf := by cases hf
  timely := by
    obtain ⟨built, hbuilt, htopology, hload, -⟩ := plane_start (ε := ε) settings net
    rw [hbuilt]
    have hconstructed : built.topology.Constructed := htopology ▸ ht
    exact .create (DataPlane.finite_capacity hconstructed) (hload.trans hfresh) settings.discipline
      htimeout
  due _ k d hd := by cases hd

theorem poised_run {j : Journal Exact ε} (hj : j.Sound) (h : Poised j.controller)
    {actions : List (Exact × Action Exact ε)}
    (horder : (j.controller.now :: actions.map Prod.fst).IsChain (· ≤ ·))
    (hactions : ∀ a ∈ actions, isFinite a.1 = true ∧ a.2.Measured) :
    Poised (j.run actions).controller := by
  induction actions generalizing j with
  | nil => exact h
  | cons a rest ih =>
    rw [List.map_cons, List.isChain_cons_cons] at horder
    obtain ⟨hfinite, hmeasured⟩ := hactions a List.mem_cons_self
    obtain ⟨hacted, hclock⟩ := hj.act horder.1 a.2
    have hrest : ∀ b ∈ rest, isFinite b.1 = true ∧ b.2.Measured :=
      fun b hb => hactions b (List.mem_cons_of_mem _ hb)
    refine ih hacted (poised_act hj h horder.1 hfinite hmeasured) ?_ hrest
    rw [hclock]
    exact horder.2

/-- However the calls of a run end and whichever events are delivered: no second update and no
second sampling is ever ahead, and an update is ahead as long as anything is predicted. -/
theorem events_neither_stacked_nor_lost {net : Network Exact} (ht : net.topology.Constructed)
    (hfresh : net.load = Table.empty) {settings : Settings Exact}
    (htimeout : ∀ x, settings.timeout = some x → x.Definite)
    {actions : List (Exact × Action Exact ε)} (horder : (0 :: actions.map Prod.fst).IsChain (· ≤ ·))
    (hactions : ∀ a ∈ actions, isFinite a.1 = true ∧ a.2.Measured) :
    ((start settings net).run actions).controller.Scheduled :=
  (poised_run (Sound.start settings net) (poised_start ht hfresh htimeout)
    ((now_start settings net).symm ▸ horder) hactions).scheduled

end Run

/-- The errand with samplings, and a third packet that is refused after the channels were looked at:
the update planned before is still ahead, and so is the next sampling. -/
theorem errand_events_neither_stacked_nor_lost :
    let settings : Settings Exact := { Settings.default with monitoringInterval := 10 }
    let net : Network Exact := { Network.empty .tree with topology := Topology.rack }
    let actions : List (Exact × Action Exact Unit) :=
      errand ++ [(1.25, .send ⟨⟨3, 1, 9, 7⟩, [], 10, none, 1⟩)]
    let j := (start settings net).run actions
    net.topology.Constructed ∧ net.load = Table.empty ∧
      (∀ x, settings.timeout = some x → x.Definite) ∧
      (0 :: actions.map Prod.fst).IsChain (· ≤ ·) ∧
      (∀ a ∈ actions, isFinite a.1 = true ∧ a.2.Measured) ∧ j.controller.Scheduled ∧
      j.accepted.length = 2 ∧ j.controller.stats.completed = 1 ∧
      (j.controller.pendingUpdate.isSome && j.controller.pendingTick.isSome) = true := by
  intro settings net actions j
  have horder : (0 :: actions.map Prod.fst).IsChain (· ≤ ·) := by
    unfold actions errand
    simp only [List.cons_append, List.nil_append, List.map_cons, List.map_nil,
      List.isChain_cons_cons, List.IsChain.singleton, and_true]
    decide +kernel
  have hsend (id dst : Nat) {size : Exact} (hsize : tolerance < size) :
      Sendable ⟨⟨id, 1, dst, 7⟩, [], size, none, 1⟩ :=
    ⟨fun _ => hsize, nofun⟩
  have hactions : ∀ a ∈ actions, isFinite a.1 = true ∧ a.2.Measured := by
    unfold actions errand
    simp only [List.cons_append, List.nil_append, List.forall_mem_cons]
    exact ⟨⟨rfl, trivial⟩, ⟨rfl, trivial⟩, ⟨rfl, hsend 1 2 (by decide +kernel)⟩,
      ⟨rfl, hsend 2 2 (by decide +kernel)⟩, ⟨rfl, trivial⟩, ⟨rfl, hsend 3 9 (by decide +kernel)⟩,
      fun a ha => by cases ha⟩
  have htimeout : ∀ x, settings.timeout = some x → x.Definite := fun x hx => by cases hx
  exact ⟨Topology.rack_constructed, rfl, htimeout, horder, hactions,
    events_neither_stacked_nor_lost Topology.rack_constructed rfl htimeout horder hactions,
    by decide +kernel, by decide +kernel, by decide +kernel⟩

end Journal

end FlowFabric
