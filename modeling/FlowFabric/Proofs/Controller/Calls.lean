import FlowFabric.Controller.Migration
import FlowFabric.Controller.Traffic

namespace FlowFabric

namespace Controller

variable {R ε : Type} [Quantity R] [Simulation R] (c : Controller R ε) (key : FlowKey)

/-- The controller with other entries of a flow, the channel of which is moved to a path. -/
def adopt (c : Controller R ε) (net : Network R) (key : FlowKey) (p : Path) : Controller R ε :=
  { c.withNetwork net with plane := ((c.withNetwork net).plane.reroute key p c.now).2 }

/-- The controller with the channels brought to the present and a machine at another host. -/
def relocate (c : Controller R ε) (vm : VmId) (new : NodeId) : Controller R ε :=
  { c.process with placement := c.process.placement.place vm (some new) }

section Deployment

/-- A path is looked up for a flow if both of its machines have hosts. -/
theorem deploy_cases :
    (c.hosts? key = none ∧ c.deploy key = (.ok (), c)) ∨
    ∃ src dst, c.hosts? key = some (src, dst) ∧
      c.deploy key =
        ((c.resolve key src dst false).1.map fun _ => (), (c.resolve key src dst false).2) := by
  unfold deploy
  cases hhosts : c.hosts? key with
  | none => exact Or.inl ⟨rfl, rfl⟩
  | some ends => exact Or.inr ⟨ends.1, ends.2, rfl, rfl⟩

/-- A flow is refused, or it is deployed and then registered. -/
theorem addFlow_cases (f : Flow R) :
    (∃ e, c.addFlow f = (.error e, c)) ∨
    (∃ e c', checkRequest f.bandwidth = .ok () ∧ c.deploy f.key = (.error e, c') ∧
      c.addFlow f = (.error e, c')) ∨
    ∃ c', checkRequest f.bandwidth = .ok () ∧ c.deploy f.key = (.ok (), c') ∧
      c.addFlow f = (.ok (), { c' with registry := c'.registry.addFlow f }) := by
  unfold addFlow
  split
  · exact Or.inl ⟨_, rfl⟩
  · exact Or.inl ⟨_, rfl⟩
  · rename_i hrequest
    split
    · rename_i heq
      exact Or.inr (Or.inl ⟨_, _, hrequest, heq, rfl⟩)
    · rename_i heq
      exact Or.inr (Or.inr ⟨_, hrequest, heq, rfl⟩)

/-- A flow has the latency of its channel, or that of a path that is looked up for it. -/
theorem latency_cases :
    (∃ channel, c.plane.find? key = some channel ∧ c.latency key = (.ok channel.latency, c)) ∨
    (∃ e, c.findHosts key = .error e ∧ c.latency key = (.error e, c)) ∨
    ∃ src dst, c.findHosts key = .ok (src, dst) ∧
      c.latency key =
        ((c.resolve key src dst false).1.map fun path =>
            Quantity.sum (path.links.map (c.resolve key src dst false).2.network.topology.latency),
          (c.resolve key src dst false).2) := by
  unfold latency
  cases hlive : c.plane.find? key with
  | some channel => exact Or.inl ⟨channel, rfl, rfl⟩
  | none =>
    cases hhosts : c.findHosts key with
    | error e => exact Or.inr (Or.inl ⟨e, rfl, rfl⟩)
    | ok ends => exact Or.inr (Or.inr ⟨ends.1, ends.2, rfl, rfl⟩)

end Deployment

section Traffic

/-- Unless a flow has a channel,
one is added for it over the path that is found between its hosts. -/
theorem openChannel_cases :
    (∃ channel, c.plane.channel? key = some channel ∧ c.openChannel key = (.ok (), c)) ∨
    (∃ e, c.findHosts key = .error e ∧ c.openChannel key = (.error e, c)) ∨
    (∃ src dst e c', c.plane.channel? key = none ∧ c.findHosts key = .ok (src, dst) ∧
      c.resolve key src dst c.settings.dynamicRouting = (.error e, c') ∧
      c.openChannel key = (.error e, c')) ∨
    ∃ src dst path c', c.plane.channel? key = none ∧ c.findHosts key = .ok (src, dst) ∧
      c.resolve key src dst c.settings.dynamicRouting = (.ok path, c') ∧
      c.openChannel key = (.ok (), { c' with
        plane := c'.plane.add (Channel.create key path (c.requested key.flow) c'.plane.discipline
          c'.plane.defaultTimeout) c'.now
        stats := { c'.stats with channelsCreated := c'.stats.channelsCreated + 1 } }) := by
  unfold openChannel
  cases hlive : c.plane.channel? key with
  | some channel => exact Or.inl ⟨channel, rfl, rfl⟩
  | none =>
    cases hhosts : c.findHosts key with
    | error e => exact Or.inr (Or.inl ⟨e, rfl, rfl⟩)
    | ok ends =>
      let found := c.resolve key ends.1 ends.2 c.settings.dynamicRouting
      have hopened : c.plane.openChannel c.select key ends.1 ends.2 (c.requested key.flow)
          c.settings.dynamicRouting = (found.1.map fun path =>
            Channel.create key path (c.requested key.flow) c.plane.discipline
              c.plane.defaultTimeout, found.2.plane) := rfl
      dsimp only
      rw [hopened]
      cases hpath : found.1 with
      | error e =>
        exact Or.inr (Or.inr (Or.inl ⟨_, _, e, found.2, rfl, rfl, Prod.ext hpath rfl, rfl⟩))
      | ok path =>
        exact Or.inr (Or.inr (Or.inr ⟨_, _, path, found.2, rfl, rfl, Prod.ext hpath rfl, rfl⟩))

/-- A packet is refused at once, or for want of a channel,
or it is sent over the channel of its flow. -/
theorem send_cases (p : Packet R) :
    (∃ e, c.send p = (.error e, c)) ∨
    (∃ e c', c.process.openChannel (c.effective p).key = (.error e, c') ∧
      c.send p = (.error e, c')) ∨
    ∃ c', checkSize p.size = .ok () ∧
      c.process.openChannel (c.effective p).key = (.ok (), c') ∧
      c.send p = (.ok (c.effective p), (scheduleUpdate { c' with
        plane := (c'.plane.send (c.effective p).key (Transmission.ofPacket (c.effective p) c'.now)
          c'.now).2 }).scheduleTick) := by
  unfold send
  cases hsize : checkSize p.size with
  | error e => exact Or.inl ⟨e, rfl⟩
  | ok _ =>
    dsimp only
    cases hopened : c.process.openChannel (c.effective p).key with
    | mk outcome c' =>
      cases outcome with
      | error e => exact Or.inr (Or.inl ⟨e, c', rfl, rfl⟩)
      | ok _ => exact Or.inr (Or.inr ⟨c', rfl, rfl, rfl⟩)

/-- The search for another path fails, or it changes nothing,
or a channel is moved to the path that the entries give then. -/
theorem adaptPath_cases (channel : Channel R) :
    (∃ e net, c.network.update c.select channel.key channel.source channel.destination =
        (.error e, net) ∧
      c.adaptPath channel = (.error e, c.withNetwork net)) ∨
    (∃ net, c.network.update c.select channel.key channel.source channel.destination =
        (.ok false, net) ∧
      c.adaptPath channel = (.ok (), c.withNetwork net)) ∨
    ∃ net, c.network.update c.select channel.key channel.source channel.destination =
        (.ok true, net) ∧
      ((∃ e, net.walk channel.key channel.source channel.destination = .error e ∧
          c.adaptPath channel = (.error e, c.withNetwork net)) ∨
        ∃ path, net.walk channel.key channel.source channel.destination = .ok path ∧
          c.adaptPath channel = (.ok (), c.adopt net channel.key path)) := by
  unfold adaptPath
  dsimp only
  cases hupdate : c.network.update c.select channel.key channel.source channel.destination with
  | mk outcome net =>
    cases outcome with
    | error e => exact Or.inl ⟨e, net, rfl, rfl⟩
    | ok changed =>
      cases changed with
      | false => exact Or.inr (Or.inl ⟨net, rfl, rfl⟩)
      | true =>
        refine Or.inr (Or.inr ⟨net, rfl, ?_⟩)
        dsimp only
        cases hwalk : net.walk channel.key channel.source channel.destination with
        | error e => exact Or.inl ⟨e, rfl, rfl⟩
        | ok path => exact Or.inr ⟨path, rfl, rfl⟩

/-- A change of bandwidth is refused, or it is registered. The channel of the flow, if there is one,
is then adapted where paths are adapted, and it asks for the bandwidth unless this has failed. -/
theorem setBandwidth_cases (bandwidth : R) {c' : Controller R ε}
    (hc : (c.registerBandwidth key bandwidth).process = c') :
    (∃ e, c.setBandwidth key bandwidth = (.error e, c)) ∨
    (checkRequest bandwidth = .ok () ∧ c'.plane.channel? key = none ∧
      c.setBandwidth key bandwidth = (.ok false, c')) ∨
    (∃ channel e c'', checkRequest bandwidth = .ok () ∧ c'.plane.channel? key = some channel ∧
      c'.settings.dynamicRouting = true ∧ c'.adaptPath channel = (.error e, c'') ∧
      c.setBandwidth key bandwidth = (.error e, c'')) ∨
    ∃ channel c'', checkRequest bandwidth = .ok () ∧ c'.plane.channel? key = some channel ∧
      (c'' = c' ∨ c'.adaptPath channel = (.ok (), c'')) ∧
      c.setBandwidth key bandwidth = (.ok (c''.plane.setRequested key bandwidth c''.now).1,
        scheduleUpdate { c'' with plane := (c''.plane.setRequested key bandwidth c''.now).2 }) := by
  unfold setBandwidth
  cases hrequest : checkRequest bandwidth with
  | error e => exact Or.inl ⟨e, rfl⟩
  | ok _ =>
    dsimp only
    rw [hc]
    cases hlive : c'.plane.channel? key with
    | none => exact Or.inr (Or.inl ⟨rfl, rfl, rfl⟩)
    | some channel =>
      dsimp only
      cases hdynamic : c'.settings.dynamicRouting with
      | false => exact Or.inr (Or.inr (Or.inr ⟨channel, c', rfl, rfl, Or.inl rfl, rfl⟩))
      | true =>
        rw [if_pos rfl]
        cases hadapted : c'.adaptPath channel with
        | mk outcome c'' =>
          cases outcome with
          | error e =>
            exact Or.inr (Or.inr (Or.inl ⟨channel, e, c'', rfl, rfl, rfl, hadapted, rfl⟩))
          | ok _ => exact Or.inr (Or.inr (Or.inr ⟨channel, c'', rfl, rfl, Or.inr hadapted, rfl⟩))

end Traffic

section Migration

variable (vm : VmId) (old new : NodeId)

/-- A flow loses its entries for want of a host, or it is left with what a failed search leaves, or
it is moved to the path that its search has found. -/
theorem moveFlow_cases :
    (c.hosts? key = none ∧
      c.moveFlow vm old key = (.ok (), c.withNetwork (c.network.clear key).2)) ∨
    ∃ src dst, c.hosts? key = some (src, dst) ∧
      ((∃ e net, c.network.rebuild c.select key (if key.src = vm then old else src) src dst =
            (.error e, net) ∧
          c.moveFlow vm old key = (.error e, c.withNetwork net)) ∨
        ∃ p net, c.network.rebuild c.select key (if key.src = vm then old else src) src dst =
            (.ok p, net) ∧
          c.moveFlow vm old key = (.ok (), c.adopt net key p)) := by
  unfold moveFlow
  cases hhosts : c.hosts? key with
  | none => exact Or.inl ⟨rfl, rfl⟩
  | some ends =>
    obtain ⟨src, dst⟩ := ends
    refine Or.inr ⟨src, dst, rfl, ?_⟩
    dsimp only
    cases hsearch : c.network.rebuild c.select key (if key.src = vm then old else src) src dst with
    | mk outcome net =>
      cases outcome with
      | error e => exact Or.inl ⟨e, net, rfl, rfl⟩
      | ok p => exact Or.inr ⟨p, net, rfl, rfl⟩

/-- What the move of any one flow keeps is kept when several are moved, whichever of them fail. -/
theorem moveFlows_keeps {P : Controller R ε → Prop} (keys : List FlowKey)
    (hone : ∀ c key, P c → P (c.moveFlow vm old key).2) {c : Controller R ε} (h : P c) :
    P (moveFlows vm old keys c).2 := by
  induction keys generalizing c with
  | nil => exact h
  | cons key rest ih =>
    have hmoved := hone c key h
    have hrest := ih hmoved
    unfold moveFlows
    generalize c.moveFlow vm old key = moved at hmoved hrest
    obtain ⟨outcome, c'⟩ := moved
    cases outcome with
    | ok _ => exact hrest
    | error e =>
      -- Only a breach keeps the rest from being moved.
      dsimp only at hmoved hrest ⊢
      split
      · exact hmoved
      · generalize moveFlows vm old rest c' = later at hrest ⊢
        obtain ⟨outcome, c''⟩ := later
        cases outcome <;> exact hrest

/-- A migration is refused, or the flows of the machine are moved,
which is at its new host by then. -/
theorem migrate_cases :
    (∃ e, c.checkMove vm old new = .error e ∧ c.migrate vm old new = (.error e, c)) ∨
    c.checkMove vm old new = .ok () ∧ c.migrate vm old new =
      let moved := moveFlows vm old ((c.relocate vm new).flowsToMove vm) (c.relocate vm new)
      (moved.1, scheduleUpdate { moved.2 with
        stats := { moved.2.stats with migrations := moved.2.stats.migrations + 1 } }) := by
  unfold migrate
  cases hcheck : c.checkMove vm old new with
  | error e => exact Or.inl ⟨e, rfl, rfl⟩
  | ok _ => exact Or.inr ⟨rfl, rfl⟩

end Migration

end Controller

end FlowFabric
