import FlowFabric.Proofs.Controller.Delivery
import FlowFabric.Proofs.Topology.Construction

namespace FlowFabric

variable {R ε : Type} [Quantity R] [Simulation R]

/-- What is asked of a controller, and what happens to it. -/
inductive Controller.Action (R ε : Type) where
  | addVm (vm : Vm) (host : NodeId)
  | addFlow (flow : Flow R)
  | addChain (chain : ServiceChain R)
  | send (packet : Packet R)
  | setBandwidth (key : FlowKey) (bandwidth : R)
  | setFlowBandwidth (flow : FlowId) (bandwidth : R)
  | migrate (vm : VmId) (old new : NodeId)
  | latency (key : FlowKey)
  /-- A pending event is delivered. -/
  | deliver (id : EventId)
  /-- An event that is not the controller's own is entered. -/
  | plan (delay : R) (what : ε)
  /-- Others change what is known of machines and flows, or where the machines run. -/
  | revise (registry : Registry R) (placement : Placement)

/-- A controller with the history of a run: the packets that it has accepted, each with the time,
and the notices that have been delivered. -/
structure Journal (R ε : Type) [Simulation R] where
  controller : Controller R ε
  accepted : List (Packet R × R)
  delivered : List (Notice R ε)

namespace Journal

open Controller (Action acceptedBy)

/-- A controller that nothing has been asked of yet. -/
def start (settings : Settings R) (net : Network R) : Journal R ε :=
  ⟨Controller.create settings net, [], []⟩

/-- One step at a time. A number that no pending event has is delivered to nobody. -/
def act (j : Journal R ε) (time : R) (a : Action R ε) : Journal R ε :=
  let c := j.controller.setClock time
  match a with
  | .addVm vm host => { j with controller := (c.addVm vm host).2 }
  | .addFlow flow => { j with controller := (c.addFlow flow).2 }
  | .addChain chain => { j with controller := (c.addChain chain).2 }
  | .send packet =>
    let (outcome, c) := c.send packet
    { j with controller := c, accepted := j.accepted ++ acceptedBy outcome time }
  | .setBandwidth key bandwidth => { j with controller := (c.setBandwidth key bandwidth).2 }
  | .setFlowBandwidth flow bandwidth =>
    { j with controller := (c.setFlowBandwidth flow bandwidth).2 }
  | .migrate vm old new => { j with controller := (c.migrate vm old new).2 }
  | .latency key => { j with controller := (c.latency key).2 }
  | .deliver id =>
    match (Simulation.pending c.agenda).find? fun e => e.id == id with
    | none => { j with controller := c }
    | some e =>
      let taken := { c with agenda := Simulation.cancel c.agenda e.id }
      { j with controller := taken.handle e.what, delivered := j.delivered ++ [e.what] }
  | .plan delay what => { j with controller := c.plan delay what }
  | .revise registry placement => { j with controller := { c with registry, placement } }

/-- Steps at given times. -/
def run (j : Journal R ε) (actions : List (R × Action R ε)) : Journal R ε :=
  actions.foldl (fun j a => j.act a.1 a.2) j

/-- All notices that have been entered and were not taken back, delivered or not. -/
def emitted (j : Journal R ε) : List (Notice R ε) := j.delivered ++ j.controller.notices

/-- The books of a journal are right. -/
def Sound (j : Journal R ε) : Prop :=
  Controller.Sound (Multiset.ofList j.accepted) j.delivered j.controller

variable {j : Journal R ε} {time : R}

variable [SimulationLaws R]

theorem notices_start (settings : Settings R) (net : Network R) :
    (start settings net : Journal R ε).controller.notices = [] :=
  congrArg (List.map Event.what) SimulationLaws.pending_empty

theorem now_start (settings : Settings R) (net : Network R) :
    (start settings net : Journal R ε).controller.now = 0 :=
  SimulationLaws.clock_empty

theorem Sound.start (settings : Settings R) (net : Network R) :
    (Journal.start settings net : Journal R ε).Sound where
  ledger := by
    have hnone : (Journal.start settings net : Journal R ε).delivered ++
        (Journal.start settings net).controller.notices = [] := notices_start settings net
    refine ⟨?_, ?_, ?_, .empty, fun _ => nofun, ?_⟩
    all_goals rw [hnone]
    · rfl
    · rfl
    · rfl
    · exact fun _ => nofun
  loaded := by
    have hnone (k : FlowKey) :
        (Controller.create settings net : Controller R ε).plane.channel? k = none := rfl
    refine ⟨?_, ?_, ?_, ?_, ?_⟩ <;>
      · intro k c hc
        cases (hnone k).symm.trans hc

variable [OrderLaws R]

/-- Each step that does not go back in time keeps the books right, and the clock shows its time. -/
theorem Sound.act (h : j.Sound) (ht : j.controller.now ≤ time) (a : Action R ε) :
    (j.act time a).Sound ∧ (j.act time a).controller.now = time := by
  have hc : Controller.Sound (Multiset.ofList j.accepted) j.delivered
      (j.controller.setClock time) :=
    Controller.Sound.setClock h ht
  have hclock : (j.controller.setClock time).now = time := j.controller.now_setClock time
  have hnow : (j.controller.setClock time).now ≤ (j.controller.setClock time).now := by
    rw [hclock]
    exact OrderLaws.le_self_of_le ht
  -- The clock shows the time from the beginning of the step on.
  suffices h : (j.act time a).Sound ∧
      (j.act time a).controller.now = (j.controller.setClock time).now from
    ⟨h.1, h.2.trans hclock⟩
  cases a with
  | addVm vm host => exact hc.addVm vm host
  | addFlow flow => exact hc.addFlow flow
  | addChain chain => exact hc.addChain chain
  | send packet =>
    obtain ⟨hsent, hsame⟩ := hc.send hnow packet
    rw [Multiset.coe_add, hclock] at hsent
    exact ⟨hsent, hsame⟩
  | setBandwidth key bandwidth => exact hc.setBandwidth hnow key bandwidth
  | setFlowBandwidth flow bandwidth => exact hc.setFlowBandwidth hnow flow bandwidth
  | migrate vm old new => exact hc.migrate hnow vm old new
  | latency key => exact hc.latency key
  | deliver id =>
    unfold Journal.act
    dsimp only
    cases hfind : (Simulation.pending (j.controller.setClock time).agenda).find? fun e =>
      e.id == id with
    | none => exact ⟨hc, rfl⟩
    | some e =>
      have htaken := (j.controller.setClock time).now_cancel e.id
      obtain ⟨hsound, hsame⟩ := (hc.deliver (List.mem_of_find?_eq_some hfind)).handle
        (htaken.symm ▸ hnow) e.what
      exact ⟨hsound, hsame.trans htaken⟩
  | plan delay what =>
    have hplanned : ((j.controller.setClock time).plan delay what).now =
        (j.controller.setClock time).now := Controller.now_emit _ _ _
    refine ⟨⟨hc.ledger.emit_quiet delay (.external what) rfl rfl, ?_⟩, hplanned⟩
    show DataPlane.Loaded _ ((j.controller.setClock time).plan delay what).now
    rw [hplanned]
    exact hc.loaded
  | revise registry placement =>
    exact ⟨⟨hc.ledger.congr rfl rfl rfl (Or.inl rfl), hc.loaded⟩, rfl⟩

/-- The books stay right, and the clock does not overtake the times to come. -/
theorem Sound.run_append (actions : List (R × Action R ε)) (times : List R) (h : j.Sound)
    (ht : (j.controller.now :: (actions.map Prod.fst ++ times)).IsChain (· ≤ ·)) :
    (j.run actions).Sound ∧ ((j.run actions).controller.now :: times).IsChain (· ≤ ·) := by
  induction actions generalizing j with
  | nil => exact ⟨h, ht⟩
  | cons a rest ih =>
    rw [List.map_cons, List.cons_append, List.isChain_cons_cons] at ht
    obtain ⟨hacted, hclock⟩ := h.act ht.1 a.2
    refine ih hacted ?_
    rw [hclock]
    exact ht.2

theorem Sound.run (actions : List (R × Action R ε)) (h : j.Sound)
    (ht : (j.controller.now :: actions.map Prod.fst).IsChain (· ≤ ·)) : (j.run actions).Sound := by
  rw [← List.append_nil (actions.map Prod.fst)] at ht
  exact (h.run_append actions [] ht).1

omit [OrderLaws R] in
/-- Handling the next event at its time is one of the steps. -/
theorem Sound.act_next (h : j.Sound) {e : Event R (Notice R ε)}
    (he : Simulation.next? j.controller.agenda = some e) :
    (j.act e.time (.deliver e.id)).controller = j.controller.step.2 := by
  have hmem : e ∈ Simulation.pending j.controller.agenda := SimulationLaws.next?_mem he
  have hfind : ((Simulation.pending j.controller.agenda).find? fun f => f.id == e.id) = some e := by
    cases hf : (Simulation.pending j.controller.agenda).find? fun f => f.id == e.id with
    | none =>
      have hno := List.find?_eq_none.mp hf e hmem
      exact absurd (beq_self_eq_true e.id) hno
    | some f =>
      have hid : f.id = e.id :=
        eq_of_beq (List.find?_some (p := fun f : Event R (Notice R ε) => f.id == e.id) hf)
      have hsame :=
        List.inj_on_of_nodup_map h.ledger.agenda.nodup (List.mem_of_find?_eq_some hf) hmem hid
      rw [hsame]
  have hact : (j.act e.time (.deliver e.id)).controller
      = ({ j.controller with
          agenda := Simulation.setClock (Simulation.cancel j.controller.agenda e.id) e.time } :
          Controller R ε).handle e.what := by
    unfold Journal.act Controller.setClock
    dsimp only
    rw [SimulationLaws.pending_setClock, hfind]
    dsimp only
    rw [SimulationLaws.cancel_setClock]
  rw [hact]
  unfold Controller.step Simulation.take
  rw [he]

/-- Each packet that was accepted has been reported once, as arrived or as lost, or it is in flight
in a channel, with all counts as they should be; and no channel is idle or has anything left to
report. Each report goes to whom the packet says. -/
structure Reported (j : Journal R ε) : Prop where
  balance : Multiset.ofList j.accepted = arrivals j.emitted + losses j.emitted
    + (j.controller.plane.channels.values.map fun c => origins c.queue.inFlight).sum
  completed : j.controller.stats.completed = (arrivals j.emitted).card
  failed : j.controller.stats.failed = (losses j.emitted).card
  total : j.controller.stats.completed + j.controller.stats.failed
    + (j.controller.plane.channels.values.map fun c => c.queue.inFlight.length).sum
      = j.accepted.length
  loaded : ∀ key channel, j.controller.plane.channel? key = some channel →
    channel.queue.inFlight ≠ [] ∧ channel.queue.completed = [] ∧ channel.queue.failed = []
  addressed : ∀ what ∈ j.emitted, what.Addressed

omit [SimulationLaws R] [OrderLaws R] in
theorem Sound.reported (h : j.Sound) : j.Reported where
  balance := h.ledger.balance
  completed := h.ledger.completed
  failed := h.ledger.failed
  total := by
    have hcard := congrArg Multiset.card h.ledger.balance
    rw [Multiset.coe_card, Multiset.card_add, Multiset.card_add, ← h.ledger.completed,
      ← h.ledger.failed] at hcard
    rw [hcard, DataPlane.card_carried]
  loaded key channel hc :=
    ⟨h.loaded.full key channel hc, h.loaded.completed key channel hc,
      h.loaded.failed key channel hc⟩
  addressed := h.ledger.addressed

/-- Whatever a controller is asked to do, at times that do not go back, and whichever events are
delivered. To handle the next event is to have it delivered at its time. -/
theorem packets_reported_once (settings : Settings R) (net : Network R)
    {actions : List (R × Action R ε)} (h : (0 :: actions.map Prod.fst).IsChain (· ≤ ·)) :
    let j := (Journal.start settings net).run actions
    j.Reported ∧ ∀ e, Simulation.next? j.controller.agenda = some e →
      (j.act e.time (.deliver e.id)).controller = j.controller.step.2 := by
  intro j
  have hsound : j.Sound :=
    (Sound.start settings net).run actions ((now_start settings net).symm ▸ h)
  exact ⟨hsound.reported, fun e he => hsound.act_next he⟩

end Journal

namespace Journal

open Controller (Action)

/-- A controller of a rack. -/
def rack : Journal Exact Unit :=
  start Settings.default { Network.empty .tree with topology := Topology.rack }

/-- Two packets are sent from one host of a rack to the other, and the first update is delivered. -/
def errand : List (Exact × Action Exact Unit) :=
  let packet (id : Nat) (size : Exact) : Packet Exact := ⟨⟨id, 1, 2, 7⟩, [], size, none, 1⟩
  [(0, .addVm ⟨1, "sender", none⟩ 0), (0, .addVm ⟨2, "receiver", none⟩ 1),
    (0, .send (packet 1 500)),
    (0, .send (packet 2 1000)), (1, .deliver 1)]

/-- One packet of the errand has arrived and the other one is still in flight. -/
theorem errand_packets_reported_once :
    (0 :: errand.map Prod.fst).IsChain (· ≤ ·) ∧ (rack.run errand).Reported ∧
      (rack.run errand).accepted.length = 2 ∧ (rack.run errand).controller.stats.completed = 1 := by
  have horder : (0 :: errand.map Prod.fst).IsChain (· ≤ ·) := by
    unfold errand
    simp only [List.map_cons, List.map_nil, List.isChain_cons_cons,
      List.IsChain.singleton, and_true]
    decide
  exact ⟨horder, (packets_reported_once Settings.default _ horder).1,
    by decide +kernel, by decide +kernel⟩

end Journal

end FlowFabric
