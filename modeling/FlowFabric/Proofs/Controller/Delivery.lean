import FlowFabric.Proofs.Controller.Calls
import FlowFabric.Proofs.Controller.Ledger

namespace FlowFabric

variable {R ε : Type} [Quantity R] [Simulation R]

namespace Controller

section Fields

variable (c : Controller R ε)

omit [Quantity R] in
@[simp] theorem plane_cancelUpdate : c.cancelUpdate.plane = c.plane := by
  unfold cancelUpdate
  split <;> rfl

@[simp] theorem plane_scheduleUpdate : c.scheduleUpdate.plane = c.plane := by
  unfold scheduleUpdate
  dsimp only
  split <;> exact plane_cancelUpdate c

@[simp] theorem plane_scheduleTick : c.scheduleTick.plane = c.plane := by
  unfold scheduleTick
  split <;> rfl

omit [Quantity R] in
/-- What no report changes is the same after all of them. -/
theorem foldl_report {α : Type} (f : Controller R ε → α)
    (report : Controller R ε → Departure R → Controller R ε)
    (hreport : ∀ c d, f (report c d) = f c) (ds : List (Departure R)) (c : Controller R ε) :
    f (ds.foldl report c) = f c := by
  induction ds generalizing c with
  | nil => rfl
  | cons d rest ih => exact (ih (report c d)).trans (hreport c d)

variable [SimulationLaws R]

@[simp] theorem now_emit (delay : R) (what : Notice R ε) : (c.emit delay what).now = c.now :=
  SimulationLaws.clock_emit c.agenda delay what

@[simp] theorem now_setClock (time : R) : (c.setClock time).now = time :=
  SimulationLaws.clock_setClock c.agenda time

theorem now_cancel (id : EventId) :
    ({ c with agenda := Simulation.cancel c.agenda id } : Controller R ε).now = c.now :=
  SimulationLaws.clock_cancel c.agenda id

@[simp] theorem now_cancelUpdate : c.cancelUpdate.now = c.now := by
  unfold cancelUpdate
  split
  · rfl
  · exact c.now_cancel _

@[simp] theorem now_scheduleUpdate : c.scheduleUpdate.now = c.now := by
  unfold scheduleUpdate
  dsimp only
  split
  · exact now_cancelUpdate c
  · exact (now_emit c.cancelUpdate _ _).trans (now_cancelUpdate c)

@[simp] theorem now_scheduleTick : c.scheduleTick.now = c.now := by
  unfold scheduleTick
  split
  · rfl
  · exact now_emit c _ _

theorem now_reportCompleted (d : Departure R) : (c.reportCompleted d).now = c.now :=
  now_emit _ _ _

theorem now_reportFailed (d : Departure R) : (c.reportFailed d).now = c.now :=
  now_emit _ _ _

@[simp] theorem now_process : c.process.now = c.now := by
  unfold process
  split
  · rfl
  · exact (foldl_report now reportFailed (fun c d => c.now_reportFailed d) _ _).trans
      (foldl_report now reportCompleted (fun c d => c.now_reportCompleted d) _ _)

end Fields

/-- What holds between two steps: the books are right,
every channel carries something, and nothing waits to be reported. -/
structure Sound (accepted : Multiset (Packet R × R)) (delivered : List (Notice R ε))
    (c : Controller R ε) : Prop where
  ledger : Ledger accepted delivered c.plane.carried c
  loaded : c.plane.Loaded c.now

/-- What holds within a step, once the channels have been advanced to the present. -/
structure Current (accepted : Multiset (Packet R × R)) (delivered : List (Notice R ε))
    (c : Controller R ε) : Prop where
  ledger : Ledger accepted delivered c.plane.carried c
  quiet : c.plane.Quiet c.now
  full : c.plane.Full

variable {accepted : Multiset (Packet R × R)} {delivered : List (Notice R ε)} {c : Controller R ε}

theorem Current.sound (h : Current accepted delivered c) (ht : c.now ≤ c.now) :
    Sound accepted delivered c :=
  ⟨h.ledger, h.quiet.loaded ht h.full⟩

variable [OrderLaws R]

namespace Current

omit [OrderLaws R] in
/-- A change of the plane at the present that moves no transmission. -/
theorem withPlane (h : Current accepted delivered c) {plane : DataPlane R} (hq : plane.Quiet c.now)
    (htraffic : plane.traffic = c.plane.traffic) : Current accepted delivered { c with plane } where
  ledger := by
    show Ledger _ _ plane.carried _
    rw [DataPlane.carried_congr htraffic]
    exact h.ledger.congr rfl rfl rfl (Or.inl rfl)
  quiet := hq
  full := DataPlane.full_congr htraffic h.full

omit [OrderLaws R] in
theorem withNetwork (h : Current accepted delivered c) (net : Network R) :
    Current accepted delivered (c.withNetwork net) :=
  h.withPlane h.quiet rfl

theorem reroute (h : Current accepted delivered c) (ht : c.now ≤ c.now) (key : FlowKey)
    (path : Path) :
    Current accepted delivered { c with plane := (c.plane.reroute key path c.now).2 } := by
  obtain ⟨hq, htraffic⟩ := h.quiet.reroute ht key path
  exact h.withPlane hq htraffic

theorem setRequested (h : Current accepted delivered c) (ht : c.now ≤ c.now) (key : FlowKey)
    (requested : R) :
    Current accepted delivered
    { c with plane := (c.plane.setRequested key requested c.now).2 } := by
  obtain ⟨hq, htraffic⟩ := h.quiet.setRequested ht key requested
  exact h.withPlane hq htraffic

theorem adopt (h : Current accepted delivered c) (ht : c.now ≤ c.now) (net : Network R)
    (key : FlowKey) (path : Path) : Current accepted delivered (c.adopt net key path) :=
  (h.withNetwork net).reroute ht key path

theorem adaptPath (h : Current accepted delivered c) (ht : c.now ≤ c.now) (channel : Channel R) :
    Current accepted delivered (c.adaptPath channel).2 ∧ (c.adaptPath channel).2.now = c.now := by
  rcases c.adaptPath_cases channel with ⟨e, net, _, heq⟩ | ⟨net, _, heq⟩ |
    ⟨net, _, ⟨e, _, heq⟩ | ⟨path, _, heq⟩⟩
  all_goals rw [heq]
  · exact ⟨h.withNetwork net, rfl⟩
  · exact ⟨h.withNetwork net, rfl⟩
  · exact ⟨h.withNetwork net, rfl⟩
  · exact ⟨h.adopt ht net _ path, rfl⟩

theorem moveFlow (h : Current accepted delivered c) (ht : c.now ≤ c.now) (vm : VmId) (old : NodeId)
    (key : FlowKey) :
    Current accepted delivered (c.moveFlow vm old key).2 ∧
    (c.moveFlow vm old key).2.now = c.now := by
  rcases c.moveFlow_cases key vm old with ⟨_, heq⟩ |
    ⟨src, dst, _, ⟨e, net, _, heq⟩ | ⟨p, net, _, heq⟩⟩
  all_goals rw [heq]
  · exact ⟨h.withNetwork _, rfl⟩
  · exact ⟨h.withNetwork net, rfl⟩
  · exact ⟨h.adopt ht net key p, rfl⟩

theorem moveFlows (vm : VmId) (old : NodeId) (keys : List FlowKey)
    (h : Current accepted delivered c) (ht : c.now ≤ c.now) :
    Current accepted delivered (Controller.moveFlows vm old keys c).2 ∧
    (Controller.moveFlows vm old keys c).2.now = c.now := by
  let kept (c' : Controller R ε) : Prop := Current accepted delivered c' ∧ c'.now = c.now
  refine moveFlows_keeps (P := kept) vm old keys ?_ ⟨h, rfl⟩
  rintro c' key ⟨h', hnow⟩
  obtain ⟨hmoved, hsame⟩ := h'.moveFlow (hnow ▸ ht) vm old key
  exact ⟨hmoved, hsame.trans hnow⟩

end Current

/-- What holds when a packet is about to be put into the channel of its flow,
which may have been opened for it. -/
structure Open (accepted : Multiset (Packet R × R)) (delivered : List (Notice R ε)) (key : FlowKey)
    (c : Controller R ε) : Prop where
  ledger : Ledger accepted delivered c.plane.carried c
  quiet : c.plane.Quiet c.now
  live : ∃ channel, c.plane.channel? key = some channel
  others : ∀ k d, k ≠ key → c.plane.channel? k = some d → d.queue.inFlight ≠ []

/-- A channel that has just been opened carries nothing yet, and the others are as they were. -/
theorem Current.add (h : Current accepted delivered c) (ht : c.now ≤ c.now) (channel : Channel R)
    (hnone : c.plane.channel? channel.key = none) (hq : channel.queue.Quiet c.now)
    (hempty : channel.queue.inFlight = []) (stats : Stats R)
    (hc : stats.completed = c.stats.completed) (hf : stats.failed = c.stats.failed) :
    Open accepted delivered channel.key { c with plane := c.plane.add channel c.now, stats } := by
  obtain ⟨hquiet, htraffic⟩ := h.quiet.add ht hnone hq
  rw [hempty] at htraffic
  refine ⟨?_, hquiet, ?_, ?_⟩
  · have hcarried : (c.plane.add channel c.now).carried = c.plane.carried := by
      rw [DataPlane.carried_eq, DataPlane.carried_eq, htraffic]
      unfold DataPlane.carriedBy
      rw [List.map_append, List.sum_append]
      exact add_zero _
    show Ledger _ _ (c.plane.add channel c.now).carried _
    rw [hcarried]
    exact h.ledger.congr rfl hc hf (Or.inl rfl)
  -- Settling has moved no transmission, so that the traffic tells which channels there are.
  · have hmem : (channel.key, []) ∈ (c.plane.add channel c.now).traffic := by
      rw [htraffic]
      exact List.mem_append_right _ List.mem_cons_self
    obtain ⟨d, hd, _⟩ := DataPlane.mem_traffic.mp hmem
    exact ⟨d, hd⟩
  · intro k d hk hd
    have hmem : (k, d.queue.inFlight) ∈ (c.plane.add channel c.now).traffic :=
      DataPlane.mem_traffic.mpr ⟨d, hd, rfl⟩
    rw [htraffic] at hmem
    rcases List.mem_append.mp hmem with hmem | hmem
    · exact DataPlane.full_iff.mp h.full _ hmem
    · exact absurd (congrArg Prod.fst (List.mem_singleton.mp hmem)) hk

/-- Opening a channel succeeds with one that is ready to be sent over,
or changes nothing that is carried. -/
theorem Current.openChannel (h : Current accepted delivered c) (ht : c.now ≤ c.now)
    (key : FlowKey) :
    (c.openChannel key).2.now = c.now ∧
      match (c.openChannel key).1 with
      | .ok _ => Open accepted delivered key (c.openChannel key).2
      | .error _ => Current accepted delivered (c.openChannel key).2 := by
  let net (src dst : NodeId) :=
    (c.network.resolve c.select key src dst c.settings.dynamicRouting).2
  rcases c.openChannel_cases key with ⟨channel, hlive, heq⟩ | ⟨e, _, heq⟩ |
    ⟨src, dst, e, c', hnone, _, hfound, heq⟩ | ⟨src, dst, path, c', hnone, _, hfound, heq⟩
  all_goals rw [heq]
  · exact ⟨rfl, h.ledger, h.quiet, ⟨channel, hlive⟩, fun k d _ hd => h.full k d hd⟩
  · exact ⟨rfl, h⟩
  · obtain rfl : c.withNetwork (net src dst) = c' := congrArg Prod.snd hfound
    exact ⟨rfl, h.withNetwork _⟩
  · obtain rfl : c.withNetwork (net src dst) = c' := congrArg Prod.snd hfound
    let channel :=
      Channel.create key path (c.requested key.flow) c.plane.discipline c.plane.defaultTimeout
    have hadd := (h.withNetwork (net src dst)).add ht channel hnone (Queue.quiet_empty _ _ _) rfl
      { c.stats with channelsCreated := c.stats.channelsCreated + 1 } rfl rfl
    exact ⟨rfl, hadd⟩

variable [SimulationLaws R]

omit [OrderLaws R] in
theorem Sound.scheduleUpdate (h : Sound accepted delivered c) :
    Sound accepted delivered c.scheduleUpdate where
  ledger := by
    rw [plane_scheduleUpdate]
    exact h.ledger.scheduleUpdate
  loaded := by
    rw [plane_scheduleUpdate, now_scheduleUpdate]
    exact h.loaded

omit [OrderLaws R] in
theorem Sound.scheduleTick (h : Sound accepted delivered c) :
    Sound accepted delivered c.scheduleTick where
  ledger := by
    rw [plane_scheduleTick]
    exact h.ledger.scheduleTick
  loaded := by
    rw [plane_scheduleTick, now_scheduleTick]
    exact h.loaded

/-- The channels are brought to the present, and what has left them is reported. -/
theorem Sound.process (h : Sound accepted delivered c) (ht : c.now ≤ c.now) :
    Current accepted delivered c.process ∧ c.process.now = c.now := by
  unfold Controller.process
  split
  · rename_i hempty
    -- Without channels nothing is in flight, and what holds of all of them holds.
    have hnone (k : FlowKey) : c.plane.channel? k = none := by
      apply Table.get?_eq_none_iff.mpr
      have hnil : c.plane.channels.entries = [] := List.isEmpty_iff.mp hempty
      unfold Table.keys
      rw [hnil]
      exact List.not_mem_nil
    refine ⟨⟨h.ledger, ?_, ?_⟩, rfl⟩
    · intro k d hd
      rw [hnone k] at hd
      cases hd
    · intro k d hd
      rw [hnone k] at hd
      cases hd
  · obtain ⟨hquiet, hfull, hcarried⟩ := h.loaded.advance ht
    let report := (c.plane.advance c.now).1
    let advanced : Controller R ε := { c with plane := (c.plane.advance c.now).2 }
    let arrived : Controller R ε := report.completed.foldl reportCompleted advanced
    let reported : Controller R ε := report.failed.foldl reportFailed arrived
    have hsplit : c.plane.carried = DataPlane.departed report.completed
        + (DataPlane.departed report.failed + advanced.plane.carried) := by
      rw [hcarried]
      abel
    have hstart : Ledger accepted delivered (DataPlane.departed report.completed
        + (DataPlane.departed report.failed + advanced.plane.carried)) advanced := by
      rw [← hsplit]
      exact h.ledger.congr rfl rfl rfl (Or.inl rfl)
    -- What has left the channels moves into the agenda, first the arrivals and then the losses.
    have harrived := Ledger.reportAll (fun _ _ _ => Ledger.reportCompleted) report.completed hstart
    have hreported := Ledger.reportAll (fun _ _ _ => Ledger.reportFailed) report.failed harrived
    have hplanes : reported.plane = advanced.plane :=
      (foldl_report plane reportFailed (fun _ _ => rfl) report.failed arrived).trans
        (foldl_report plane reportCompleted (fun _ _ => rfl) report.completed advanced)
    have hclocks : reported.now = c.now :=
      (foldl_report now reportFailed (fun c d => c.now_reportFailed d) report.failed arrived).trans
        (foldl_report now reportCompleted (fun c d => c.now_reportCompleted d) report.completed
          advanced)
    refine ⟨⟨?_, ?_, ?_⟩, hclocks⟩
    · show Ledger accepted delivered reported.plane.carried reported
      rw [hplanes]
      exact hreported
    · show reported.plane.Quiet reported.now
      rw [hplanes, hclocks]
      exact hquiet
    · show reported.plane.Full
      rw [hplanes]
      exact hfull

/-- The packet that a call has accepted, if it has, with the time. -/
def acceptedBy (outcome : Except (Fault R) (Packet R)) (time : R) : List (Packet R × R) :=
  match outcome with
  | .ok p => [(p, time)]
  | .error _ => []

namespace Sound

/-- A packet that is accepted is in flight, and one that is refused changes nothing in the books. -/
theorem send (h : Sound accepted delivered c) (ht : c.now ≤ c.now) (p : Packet R) :
    Sound (accepted + Multiset.ofList (acceptedBy (c.send p).1 c.now)) delivered (c.send p).2 ∧
    (c.send p).2.now = c.now := by
  have hrefused {c' : Controller R ε} (h' : Sound accepted delivered c') :
      Sound (accepted + Multiset.ofList []) delivered c' := by
    rw [Multiset.coe_nil, add_zero]
    exact h'
  -- The channels are advanced before a channel is opened for the packet. If none can be, what has
  -- been reported stays reported.
  obtain ⟨hcurrent, hnow⟩ := h.process ht
  have hopening := hcurrent.openChannel (hnow ▸ ht) (c.effective p).key
  rcases c.send_cases p with ⟨e, heq⟩ | ⟨e, c', hopened, heq⟩ | ⟨c', _, hopened, heq⟩
  · rw [heq]
    exact ⟨hrefused h, rfl⟩
  · rw [hopened] at hopening
    obtain ⟨hsame, hkept⟩ := hopening
    have hclock : c'.now = c.now := hsame.trans hnow
    have hsound : Current accepted delivered c' := hkept
    rw [heq]
    exact ⟨hrefused (hsound.sound (hclock ▸ ht)), hclock⟩
  · rw [hopened] at hopening
    obtain ⟨hsame, hopen⟩ := hopening
    have hclock : c'.now = c.now := hsame.trans hnow
    have hready : Open accepted delivered (c.effective p).key c' := hopen
    obtain ⟨channel, hchannel⟩ := hready.live
    let t := Transmission.ofPacket (c.effective p) c'.now
    -- The packet fills the channel, which is empty if it was just opened.
    have hloaded := hready.quiet.loaded_send (hclock ▸ ht) hchannel hready.others t
    have hcarried := hready.quiet.carried_send (hclock ▸ ht) hchannel t
    let sent : Controller R ε :=
      { c' with plane := (c'.plane.send (c.effective p).key t c'.now).2 }
    have hsent :
        Sound (accepted + Multiset.ofList (acceptedBy (.ok (c.effective p)) c.now))
        delivered sent := by
      refine ⟨?_, hloaded⟩
      have hone : accepted + Multiset.ofList (acceptedBy (.ok (c.effective p)) c.now) =
          t.origin ::ₘ accepted := by
        rw [← Multiset.singleton_add, add_comm, ← hclock]
        rfl
      rw [hone, show sent.plane.carried = t.origin ::ₘ c'.plane.carried from hcarried]
      exact (hready.ledger.accept t.origin).congr rfl rfl rfl (Or.inl rfl)
    rw [heq]
    refine ⟨hsent.scheduleUpdate.scheduleTick, ?_⟩
    show sent.scheduleUpdate.scheduleTick.now = c.now
    rw [now_scheduleTick, now_scheduleUpdate]
    exact hclock

theorem setBandwidth (h : Sound accepted delivered c) (ht : c.now ≤ c.now) (key : FlowKey)
    (bandwidth : R) :
    Sound accepted delivered (c.setBandwidth key bandwidth).2 ∧
    (c.setBandwidth key bandwidth).2.now = c.now := by
  have hregistered : Sound accepted delivered (c.registerBandwidth key bandwidth) :=
    ⟨h.ledger.congr rfl rfl rfl (Or.inl rfl), h.loaded⟩
  obtain ⟨hcurrent, hclock⟩ := hregistered.process ht
  generalize hc : (c.registerBandwidth key bandwidth).process = c' at hcurrent hclock
  have hnow : c'.now = c.now := hclock
  rcases c.setBandwidth_cases key bandwidth hc with ⟨e, heq⟩ | ⟨_, _, heq⟩ |
    ⟨channel, e, c'', _, _, _, hadapted, heq⟩ | ⟨channel, c'', _, _, hadapted, heq⟩
  · rw [heq]
    exact ⟨h, rfl⟩
  · rw [heq]
    exact ⟨hcurrent.sound (hnow ▸ ht), hnow⟩
  · obtain ⟨hkept, hsame⟩ := hcurrent.adaptPath (hnow ▸ ht) channel
    rw [hadapted] at hkept hsame
    have hnow'' : c''.now = c.now := hsame.trans hnow
    rw [heq]
    exact ⟨hkept.sound (hnow'' ▸ ht), hnow''⟩
  · -- Whether the path was adapted or left alone, the books are right and no time has passed.
    have hkept : Current accepted delivered c'' ∧ c''.now = c.now := by
      rcases hadapted with rfl | hadapted
      · exact ⟨hcurrent, hnow⟩
      · obtain ⟨hkept, hsame⟩ := hcurrent.adaptPath (hnow ▸ ht) channel
        rw [hadapted] at hkept hsame
        exact ⟨hkept, hsame.trans hnow⟩
    obtain ⟨hkept, hnow''⟩ := hkept
    have hset := (hkept.setRequested (hnow'' ▸ ht) key bandwidth).sound (hnow'' ▸ ht)
    rw [heq]
    exact ⟨hset.scheduleUpdate, (now_scheduleUpdate _).trans hnow''⟩

theorem setFlowBandwidth (h : Sound accepted delivered c) (ht : c.now ≤ c.now) (flow : FlowId)
    (bandwidth : R) : Sound accepted delivered (c.setFlowBandwidth flow bandwidth).2 ∧
    (c.setFlowBandwidth flow bandwidth).2.now = c.now := by
  unfold Controller.setFlowBandwidth
  split
  · exact ⟨h, rfl⟩
  · exact h.setBandwidth ht _ bandwidth

theorem migrate (h : Sound accepted delivered c) (ht : c.now ≤ c.now) (vm : VmId)
    (old new : NodeId) :
    Sound accepted delivered (c.migrate vm old new).2 ∧ (c.migrate vm old new).2.now = c.now := by
  rcases c.migrate_cases vm old new with ⟨e, _, heq⟩ | ⟨_, heq⟩
  · rw [heq]
    exact ⟨h, rfl⟩
  · obtain ⟨hcurrent, hclock⟩ := h.process ht
    -- The machine is placed anew between the advance of the channels and the moves of the flows.
    let placed := c.relocate vm new
    have hplaced : Current accepted delivered placed :=
      ⟨hcurrent.ledger.congr rfl rfl rfl (Or.inl rfl), hcurrent.quiet, hcurrent.full⟩
    obtain ⟨hmoved, hsame⟩ := hplaced.moveFlows vm old (placed.flowsToMove vm) (hclock ▸ ht)
    have hnow : (moveFlows vm old (placed.flowsToMove vm) placed).2.now = c.now :=
      hsame.trans hclock
    let moved := (moveFlows vm old (placed.flowsToMove vm) placed).2
    have hcounted :
        Sound accepted delivered
        { moved with stats := { moved.stats with migrations := moved.stats.migrations + 1 } } :=
      ⟨hmoved.ledger.congr rfl rfl rfl (Or.inl rfl), (hmoved.sound (hnow ▸ ht)).loaded⟩
    rw [heq]
    exact ⟨hcounted.scheduleUpdate, (now_scheduleUpdate _).trans hnow⟩

omit [OrderLaws R] [SimulationLaws R] in
theorem withNetwork (h : Sound accepted delivered c) (net : Network R) :
    Sound accepted delivered (c.withNetwork net) where
  ledger := h.ledger.congr rfl rfl rfl (Or.inl rfl)
  loaded := ⟨h.loaded.key, h.loaded.full, h.loaded.completed, h.loaded.failed, h.loaded.past⟩

omit [OrderLaws R] [SimulationLaws R] in
theorem latency (h : Sound accepted delivered c) (key : FlowKey) :
    Sound accepted delivered (c.latency key).2 ∧ (c.latency key).2.now = c.now := by
  rcases c.latency_cases key with ⟨channel, _, heq⟩ | ⟨e, _, heq⟩ | ⟨src, dst, _, heq⟩
  all_goals rw [heq]
  · exact ⟨h, rfl⟩
  · exact ⟨h, rfl⟩
  · exact ⟨h.withNetwork _, rfl⟩

omit [OrderLaws R] [SimulationLaws R] in
theorem deploy (h : Sound accepted delivered c) (key : FlowKey) :
    Sound accepted delivered (c.deploy key).2 ∧ (c.deploy key).2.now = c.now := by
  rcases c.deploy_cases key with ⟨_, heq⟩ | ⟨src, dst, _, heq⟩
  all_goals rw [heq]
  · exact ⟨h, rfl⟩
  · exact ⟨h.withNetwork _, rfl⟩

omit [OrderLaws R] [SimulationLaws R] in
theorem addFlow (h : Sound accepted delivered c) (f : Flow R) :
    Sound accepted delivered (c.addFlow f).2 ∧ (c.addFlow f).2.now = c.now := by
  obtain ⟨hd, hnow⟩ := h.deploy f.key
  rcases c.addFlow_cases f with ⟨e, heq⟩ | ⟨e, c', _, hdeployed, heq⟩ | ⟨c', _, hdeployed, heq⟩
  · rw [heq]
    exact ⟨h, rfl⟩
  · rw [hdeployed] at hd hnow
    rw [heq]
    exact ⟨hd, hnow⟩
  · rw [hdeployed] at hd hnow
    rw [heq]
    exact ⟨⟨hd.ledger.congr rfl rfl rfl (Or.inl rfl), hd.loaded⟩, hnow⟩

omit [OrderLaws R] [SimulationLaws R] in
theorem addVm (h : Sound accepted delivered c) (vm : Vm) (host : NodeId) :
    Sound accepted delivered (c.addVm vm host).2 ∧ (c.addVm vm host).2.now = c.now := by
  unfold Controller.addVm
  split
  · exact ⟨h, rfl⟩
  · exact ⟨⟨h.ledger.congr rfl rfl rfl (Or.inl rfl), h.loaded⟩, rfl⟩

omit [OrderLaws R] [SimulationLaws R] in
theorem addChain (h : Sound accepted delivered c) (chain : ServiceChain R) :
    Sound accepted delivered (c.addChain chain).2 ∧ (c.addChain chain).2.now = c.now := by
  unfold Controller.addChain
  split
  · exact ⟨h, rfl⟩
  · exact ⟨⟨h.ledger.congr rfl rfl rfl (Or.inl rfl), h.loaded⟩, rfl⟩

theorem onUpdate (h : Sound accepted delivered c) (ht : c.now ≤ c.now) :
    Sound accepted delivered c.onUpdate ∧ c.onUpdate.now = c.now := by
  unfold Controller.onUpdate
  dsimp only
  let woken : Controller R ε :=
    { c with pendingUpdate := none, stats := { c.stats with updates := c.stats.updates + 1 } }
  have hwoken : Sound accepted delivered woken :=
    ⟨h.ledger.congr rfl rfl rfl (Or.inr rfl), h.loaded⟩
  obtain ⟨hcurrent, hnow⟩ := hwoken.process ht
  have hclock : woken.process.now = c.now := hnow
  exact ⟨(hcurrent.sound (hclock ▸ ht)).scheduleUpdate, (now_scheduleUpdate _).trans hclock⟩

theorem onTick (h : Sound accepted delivered c) (ht : c.now ≤ c.now) :
    Sound accepted delivered c.onTick ∧ c.onTick.now = c.now := by
  unfold Controller.onTick
  dsimp only
  let woken : Controller R ε := { c with pendingTick := none }
  have hwoken : Sound accepted delivered woken :=
    ⟨h.ledger.congr rfl rfl rfl (Or.inl rfl), h.loaded⟩
  obtain ⟨hcurrent, hnow⟩ := hwoken.process ht
  have hclock : woken.process.now = c.now := hnow
  let sampled : Controller R ε :=
    { woken.process with
      telemetry := woken.process.telemetry.record woken.process.plane woken.process.now }
  have hsampled : Sound accepted delivered sampled :=
    ⟨hcurrent.ledger.congr rfl rfl rfl (Or.inl rfl), (hcurrent.sound (hclock ▸ ht)).loaded⟩
  split
  · exact ⟨hsampled.scheduleUpdate, (now_scheduleUpdate _).trans hclock⟩
  · refine ⟨hsampled.scheduleTick.scheduleUpdate, ?_⟩
    rw [now_scheduleUpdate, now_scheduleTick]
    exact hclock

theorem handle (h : Sound accepted delivered c) (ht : c.now ≤ c.now) (what : Notice R ε) :
    Sound accepted delivered (c.handle what) ∧ (c.handle what).now = c.now := by
  cases what with
  | update => exact h.onUpdate ht
  | tick => exact h.onTick ht
  | completed => exact ⟨h, rfl⟩
  | failed => exact ⟨h, rfl⟩
  | external => exact ⟨h, rfl⟩

omit [OrderLaws R] in
theorem deliver (h : Sound accepted delivered c) {e : Event R (Notice R ε)}
    (he : e ∈ Simulation.pending c.agenda) :
    Sound accepted (delivered ++ [e.what])
      { c with agenda := Simulation.cancel c.agenda e.id } where
  ledger := h.ledger.deliver he
  loaded := by
    rw [now_cancel]
    exact h.loaded

theorem setClock (h : Sound accepted delivered c) {time : R} (ht : c.now ≤ time) :
    Sound accepted delivered (c.setClock time) where
  ledger := h.ledger.setClock time
  loaded := by
    have hl := h.loaded
    rw [now_setClock]
    exact ⟨hl.key, hl.full, hl.completed, hl.failed, fun k d hd =>
      OrderLaws.le_trans (hl.past k d hd) ht⟩

end Sound

end Controller

end FlowFabric
