import FlowFabric.Agenda
import FlowFabric.Registry
import FlowFabric.Settings.Basic
import FlowFabric.Telemetry

/-! A controller carries the packets of virtual machines over channels and reports each of them
once, when it has arrived or when its time is up. -/

namespace FlowFabric

/-- What happens at a time. -/
inductive Notice (R ε : Type) where
  /-- The channels are looked at again. -/
  | update
  /-- The traffic is sampled. -/
  | tick
  /-- A packet that was sent at one time and had left its channel at another has arrived. -/
  | completed (recipient : ComponentId) (packet : Packet R) (start finish : R)
  /-- A packet that was sent at one time was given up at another. -/
  | failed (recipient : ComponentId) (packet : Packet R) (start finish : R)
  /-- An event that is not the controller's. -/
  | external (what : ε)

/-- Counts of what a controller has done. -/
structure Stats (R : Type) where
  completed : Nat
  failed : Nat
  /-- The total size of the packets that have arrived. -/
  volume : R
  channelsCreated : Nat
  migrations : Nat
  updates : Nat

/-- A controller with its network, its knowledge of the machines and its agenda. -/
structure Controller (R ε : Type) [Simulation R] where
  settings : Settings R
  plane : DataPlane R
  registry : Registry R
  placement : Placement
  telemetry : Telemetry R
  stats : Stats R
  pendingUpdate : Option EventId
  pendingTick : Option EventId
  agenda : Simulation.Agenda R (Notice R ε)

namespace Controller

variable {R ε : Type} [Quantity R] [Simulation R]

/-- A controller of a network that carries nothing yet.
Routing tables are built unless they are up to date. -/
def create (settings : Settings R) (net : Network R) : Controller R ε where
  settings := settings
  plane := DataPlane.create (if net.routed then net else net.buildRoutes) settings.discipline
    settings.timeout
  registry := Registry.empty
  placement := Table.empty
  telemetry := Telemetry.empty
  stats := ⟨0, 0, 0, 0, 0, 0⟩
  pendingUpdate := none
  pendingTick := none
  agenda := Simulation.empty

def now (c : Controller R ε) : R := Simulation.clock c.agenda

def network (c : Controller R ε) : Network R := c.plane.network

def select (c : Controller R ε) : Selection R := c.settings.selection.select

def withNetwork (c : Controller R ε) (network : Network R) : Controller R ε :=
  { c with plane := { c.plane with network } }

def emit (c : Controller R ε) (delay : R) (what : Notice R ε) : Controller R ε :=
  { c with agenda := (Simulation.emit c.agenda delay what).2 }

/-- Reports a packet that has left its channel; it arrives after the latency of the path. -/
def reportCompleted (c : Controller R ε) (d : Departure R) : Controller R ε :=
  let finish := d.transmission.finish.getD c.now
  let stats := { c.stats with
    completed := c.stats.completed + 1
    volume := c.stats.volume + d.transmission.size }
  emit { c with stats } (Quantity.max (finish + d.latency - c.now) 0)
    (.completed d.transmission.packet.notify d.transmission.packet d.transmission.start finish)

/-- Reports a packet whose time was up. -/
def reportFailed (c : Controller R ε) (d : Departure R) : Controller R ε :=
  let finish := d.transmission.finish.getD c.now
  emit { c with stats := { c.stats with failed := c.stats.failed + 1 } } 0
    (.failed d.transmission.packet.notify d.transmission.packet d.transmission.start finish)

/-- Advances the channels to the present and reports the packets that have left them. -/
def process (c : Controller R ε) : Controller R ε :=
  if c.plane.channels.isEmpty then c
  else
    let (report, plane) := c.plane.advance c.now
    let c := report.completed.foldl reportCompleted { c with plane }
    report.failed.foldl reportFailed c

/-- When the channels have to be looked at again:
the earliest completion or deadline, if there is one. -/
def nextUpdate? (c : Controller R ε) : Option R :=
  match c.plane.nextFinish with
  | .error _ => none
  | .ok finish =>
    -- Without bandwidth and without deadlines nothing will ever happen.
    let next := Quantity.min finish c.plane.nextTimeout
    if Quantity.isFinite next then some next else none

def cancelUpdate (c : Controller R ε) : Controller R ε :=
  match c.pendingUpdate with
  | none => c
  | some id => { c with pendingUpdate := none, agenda := Simulation.cancel c.agenda id }

/-- Puts the update where it is due now, not sooner than the settings allow. -/
def scheduleUpdate (c : Controller R ε) : Controller R ε :=
  let c := c.cancelUpdate
  match c.nextUpdate? with
  | none => c
  | some next =>
    let delay := Quantity.max (next - c.now) c.settings.minInterval
    let (id, agenda) := Simulation.emit c.agenda delay .update
    { c with pendingUpdate := some id, agenda }

/-- Enters the next sampling unless one is pending or none is wanted. -/
def scheduleTick (c : Controller R ε) : Controller R ε :=
  if c.settings.monitoringInterval ≤ 0 ∨ c.pendingTick.isSome then c
  else
    let (id, agenda) := Simulation.emit c.agenda c.settings.monitoringInterval .tick
    { c with pendingTick := some id, agenda }

end Controller

end FlowFabric
