import FlowFabric.Controller.Basic

namespace FlowFabric

namespace Controller

variable {R ε : Type} [Quantity R] [Simulation R]

/-- Succeeds for a finite bandwidth that is not negative. -/
def checkRequest (bandwidth : R) : Except (Fault R) Unit :=
  if !Quantity.isFinite bandwidth || decide (bandwidth < 0) then
    .error (.invalidBandwidth bandwidth)
  else .ok ()

def host? (c : Controller R ε) (vm : VmId) : Option NodeId := c.placement.host? vm

/-- Registers a machine that runs on a host. -/
def addVm (c : Controller R ε) (vm : Vm) (host : NodeId) : Except (Fault R) Unit × Controller R ε :=
  match c.network.topology.checkHost host with
  | .error e => (.error e, c)
  | .ok _ => (.ok (), { c with
      placement := c.placement.place vm.id (some host)
      registry := c.registry.addVm vm })

/-- The path of a flow between two hosts, found if need be. -/
def resolve (c : Controller R ε) (key : FlowKey) (src dst : NodeId) (dynamic : Bool) :
    Except (Fault R) Path × Controller R ε :=
  let (outcome, net) := c.network.resolve c.select key src dst dynamic
  (outcome, c.withNetwork net)

/-- The hosts of both ends of a flow, if both machines are placed. -/
def hosts? (c : Controller R ε) (key : FlowKey) : Option (NodeId × NodeId) :=
  match c.host? key.src, c.host? key.dst with
  | some src, some dst => some (src, dst)
  | _, _ => none

/-- Finds the path of a flow if both machines are placed. -/
def deploy (c : Controller R ε) (key : FlowKey) : Except (Fault R) Unit × Controller R ε :=
  match c.hosts? key with
  | none => (.ok (), c)
  | some (src, dst) =>
    let (outcome, c) := c.resolve key src dst false
    (outcome.map fun _ => (), c)

/-- Registers a flow between registered machines. -/
def addFlow (c : Controller R ε) (f : Flow R) : Except (Fault R) Unit × Controller R ε :=
  match c.registry.checkVms [f.src, f.dst], checkRequest f.bandwidth with
  | .error e, _ => (.error e, c)
  | .ok _, .error e => (.error e, c)
  | .ok _, .ok _ =>
    match c.deploy f.key with
    | (.error e, c) => (.error e, c)
    | (.ok _, c) => (.ok (), { c with registry := c.registry.addFlow f })

def addChain (c : Controller R ε) (chain : ServiceChain R) :
    Except (Fault R) Unit × Controller R ε :=
  match c.registry.checkVms (chain.src :: chain.dst :: chain.stations) with
  | .error e => (.error e, c)
  | .ok _ => (.ok (), { c with registry := c.registry.addChain chain })

/-- The host that a registered machine runs on. -/
def findHost (c : Controller R ε) (vm : VmId) : Except (Fault R) NodeId :=
  match c.registry.vm? vm, c.host? vm with
  | none, _ => .error (.unknownVm vm)
  | some _, none => .error (.vmNotPlaced vm)
  | some _, some host =>
    if c.network.topology.containsNode host then .ok host else .error (.unknownNode host)

def findHosts (c : Controller R ε) (key : FlowKey) : Except (Fault R) (NodeId × NodeId) := do
  let src ← c.findHost key.src
  let dst ← c.findHost key.dst
  return (src, dst)

/-- The bandwidth asked for by the flow of a number. Default flows and unknown ones ask for none. -/
def requested (c : Controller R ε) (flow : FlowId) : R :=
  if flow = defaultFlow then 0
  else
    match c.registry.flow? flow with
    | some f => f.bandwidth
    | none => 0

/-- The latency of a flow: that of the channel that would carry it, or else of its path. -/
def latency (c : Controller R ε) (key : FlowKey) : Except (Fault R) R × Controller R ε :=
  match c.plane.find? key with
  | some channel => (.ok channel.latency, c)
  | none =>
    match c.findHosts key with
    | .error e => (.error e, c)
    | .ok (src, dst) =>
      let (outcome, c) := c.resolve key src dst false
      (outcome.map fun path => Quantity.sum (path.links.map c.network.topology.latency), c)

end Controller

end FlowFabric
