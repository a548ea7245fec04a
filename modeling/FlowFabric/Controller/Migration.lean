import FlowFabric.Controller.Deployment

namespace FlowFabric

namespace Controller

variable {R ε : Type} [Quantity R] [Simulation R]

/-- Adds the keys that a list does not have yet. -/
def appendNew (keys : List FlowKey) (more : List FlowKey) : List FlowKey :=
  more.foldl (fun keys key => if key ∈ keys then keys else keys ++ [key]) keys

/-- The flows that a machine takes with it, each once. -/
def flowsToMove (c : Controller R ε) (vm : VmId) : List FlowKey :=
  appendNew ((c.registry.flowsOf vm).map Flow.key)
    (c.plane.channelsOf vm ++ c.network.installedFlows vm)

/-- Moves a flow to the present hosts of its machines.
Without both it loses its forwarding entries. -/
def moveFlow (c : Controller R ε) (vm : VmId) (old : NodeId) (key : FlowKey) :
    Except (Fault R) Unit × Controller R ε :=
  match c.hosts? key with
  | none => (.ok (), c.withNetwork (c.network.clear key).2)
  | some (src, dst) =>
    -- The old entries start where the source of the flow was.
    let start := if key.src = vm then old else src
    match c.network.rebuild c.select key start src dst with
    | (.error e, net) => (.error e, c.withNetwork net)
    | (.ok path, net) =>
      let c := c.withNetwork net
      (.ok (), { c with plane := (c.plane.reroute key path c.now).2 })

/-- Moves flows one after the other and keeps the first fault. Only a breach stops the rest. -/
def moveFlows (vm : VmId) (old : NodeId) :
    List FlowKey → Controller R ε → Except (Fault R) Unit × Controller R ε
  | [], c => (.ok (), c)
  | key :: rest, c =>
    match c.moveFlow vm old key with
    | (.ok _, c) => moveFlows vm old rest c
    | (.error e, c) =>
      if e.isBreach then (.error e, c)
      else
        match moveFlows vm old rest c with
        | (.ok _, c) => (.error e, c)
        | (.error e', c) => (.error (if e'.isBreach then e' else e), c)

/-- Succeeds if the machine is registered, both nodes exist and the second one is a host. -/
def checkMove (c : Controller R ε) (vm : VmId) (old new : NodeId) : Except (Fault R) Unit := do
  c.registry.checkVms [vm]
  c.network.topology.checkNode old
  c.network.topology.checkNode new
  c.network.topology.checkHost new

/-- Moves a machine and its flows to another host. -/
def migrate (c : Controller R ε) (vm : VmId) (old new : NodeId) :
    Except (Fault R) Unit × Controller R ε :=
  match c.checkMove vm old new with
  | .error e => (.error e, c)
  | .ok _ =>
    -- What has arrived by now has arrived over the old paths.
    let c := c.process
    let c := { c with placement := c.placement.place vm (some new) }
    let (outcome, c) := moveFlows vm old (c.flowsToMove vm) c
    (outcome,
      scheduleUpdate { c with stats := { c.stats with migrations := c.stats.migrations + 1 } })

end Controller

end FlowFabric
