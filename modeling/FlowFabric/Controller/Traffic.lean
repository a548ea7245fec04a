import FlowFabric.Controller.Deployment

namespace FlowFabric

namespace Controller

variable {R ε : Type} [Quantity R] [Simulation R]

/-- Succeeds for a finite size that is not negative. -/
def checkSize (size : R) : Except (Fault R) Unit :=
  if !Quantity.isFinite size || decide (size < 0) then .error (.invalidPacketSize size) else .ok ()

/-- The packet as it will be sent: one of an unknown flow belongs to the default flow. -/
def effective (c : Controller R ε) (p : Packet R) : Packet R :=
  if (c.registry.flow? p.header.flow).isSome then p
  else { p with header := { p.header with flow := defaultFlow } }

/-- Sees to it that a flow has a channel. -/
def openChannel (c : Controller R ε) (key : FlowKey) : Except (Fault R) Unit × Controller R ε :=
  match c.plane.channel? key with
  | some _ => (.ok (), c)
  | none =>
    match c.findHosts key with
    | .error e => (.error e, c)
    | .ok (src, dst) =>
      match c.plane.openChannel c.select key src dst (c.requested key.flow)
        c.settings.dynamicRouting with
      | (.error e, plane) => (.error e, { c with plane })
      | (.ok channel, plane) =>
        (.ok (), { c with
          plane := plane.add channel c.now
          stats := { c.stats with channelsCreated := c.stats.channelsCreated + 1 } })

/-- Sends a packet and tells how it is addressed. -/
def send (c : Controller R ε) (p : Packet R) : Except (Fault R) (Packet R) × Controller R ε :=
  match checkSize p.size with
  | .error e => (.error e, c)
  | .ok _ =>
    let p := c.effective p
    -- Channels that have become empty go first; the packet then opens its channel anew.
    match c.process.openChannel p.key with
    | (.error e, c) => (.error e, c)
    | (.ok _, c) =>
      let plane := (c.plane.send p.key (Transmission.ofPacket p c.now) c.now).2
      (.ok p, ({ c with plane }).scheduleUpdate.scheduleTick)

/-- Registers the bandwidth of a flow, if it is the one between these machines. -/
def registerBandwidth (c : Controller R ε) (key : FlowKey) (bandwidth : R) : Controller R ε :=
  let change (f : Flow R) : Flow R :=
    if f.src = key.src ∧ f.dst = key.dst then { f with bandwidth } else f
  { c with registry := c.registry.modifyFlow key.flow change }

/-- Moves a channel to the path that would be chosen for it now. -/
def adaptPath (c : Controller R ε) (channel : Channel R) : Except (Fault R) Unit × Controller R ε :=
  let (src, dst) := (channel.source, channel.destination)
  match c.network.update c.select channel.key src dst with
  | (.error e, net) => (.error e, c.withNetwork net)
  | (.ok false, net) => (.ok (), c.withNetwork net)
  | (.ok true, net) =>
    let c := c.withNetwork net
    match net.walk channel.key src dst with
    | .error e => (.error e, c)
    | .ok path => (.ok (), { c with plane := (c.plane.reroute channel.key path c.now).2 })

/-- Changes the bandwidth that a flow asks for and tells whether it has a channel. -/
def setBandwidth (c : Controller R ε) (key : FlowKey) (bandwidth : R) :
    Except (Fault R) Bool × Controller R ε :=
  match checkRequest bandwidth with
  | .error e => (.error e, c)
  | .ok _ =>
    -- The request is registered even if no path can be found for it below.
    let c := (c.registerBandwidth key bandwidth).process
    match c.plane.channel? key with
    | none => (.ok false, c)
    | some channel =>
      match if c.settings.dynamicRouting then c.adaptPath channel else (.ok (), c) with
      | (.error e, c) => (.error e, c)
      | (.ok _, c) =>
        let (found, plane) := c.plane.setRequested key bandwidth c.now
        (.ok found, ({ c with plane }).scheduleUpdate)

/-- Changes the bandwidth that a registered flow asks for. -/
def setFlowBandwidth (c : Controller R ε) (flow : FlowId) (bandwidth : R) :
    Except (Fault R) Bool × Controller R ε :=
  match c.registry.flow? flow with
  | none => (.error (.unknownFlow flow), c)
  | some f => c.setBandwidth ⟨f.src, f.dst, flow⟩ bandwidth

end Controller

end FlowFabric
