import FlowFabric.Controller.Basic

namespace FlowFabric

namespace Controller

variable {R ε : Type} [Quantity R] [Simulation R]

def onUpdate (c : Controller R ε) : Controller R ε :=
  let stats := { c.stats with updates := c.stats.updates + 1 }
  scheduleUpdate (process { c with pendingUpdate := none, stats })

/-- Samples the traffic; more samples follow as long as there are channels. -/
def onTick (c : Controller R ε) : Controller R ε :=
  let c := process { c with pendingTick := none }
  let c := { c with telemetry := c.telemetry.record c.plane c.now }
  -- An idle network is not sampled; the next packet starts it again.
  let c := if c.plane.channels.isEmpty then c else c.scheduleTick
  c.scheduleUpdate

/-- What the controller does about a notice. Those that are for others leave it alone. -/
def handle (c : Controller R ε) : Notice R ε → Controller R ε
  | .update => c.onUpdate
  | .tick => c.onTick
  | _ => c

/-- Takes the next event and handles it, and hands it out for others to see. -/
def step (c : Controller R ε) : Option (Event R (Notice R ε)) × Controller R ε :=
  let (event?, agenda) := Simulation.take c.agenda
  let c := { c with agenda }
  match event? with
  | none => (none, c)
  | some e => (some e, c.handle e.what)

/-- Whether the next event is due at the time, `none` if there is no event. -/
def isDueBy (c : Controller R ε) (time : R) : Option Bool :=
  (Simulation.next? c.agenda).map fun e => !decide (time < e.time)

def setClock (c : Controller R ε) (time : R) : Controller R ε :=
  { c with agenda := Simulation.setClock c.agenda time }

/-- Enters an event that is not the controller's own. -/
def plan (c : Controller R ε) (delay : R) (what : ε) : Controller R ε :=
  c.emit delay (.external what)

end Controller

end FlowFabric
