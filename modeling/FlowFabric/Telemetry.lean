import FlowFabric.DataPlane

namespace FlowFabric

/-- The load of a lane at a time. -/
structure LinkSample (R : Type) where
  time : R
  lane : Lane
  allocated : R
  utilization : R
  channels : Nat

/-- The state of a channel at a time. -/
structure ChannelSample (R : Type) where
  time : R
  key : FlowKey
  allocated : R
  inFlight : Nat

/-- The traffic of a host at a time. -/
structure HostSample (R : Type) where
  time : R
  host : NodeId
  outgoing : R
  incoming : R

/-- All samples taken so far, oldest first. -/
structure Telemetry (R : Type) where
  links : List (LinkSample R)
  channels : List (ChannelSample R)
  hosts : List (HostSample R)

namespace Telemetry

variable {R : Type} [Quantity R]

def empty : Telemetry R := ⟨[], [], []⟩

/-- The lanes of a topology: each link up, then down. -/
def lanes (t : Topology R) : List Lane :=
  (List.range t.links.size).flatMap fun l => [⟨l, .up⟩, ⟨l, .down⟩]

/-- The sample of a lane, if a channel uses it. -/
def linkSample? (net : Network R) (time : R) (lane : Lane) : Option (LinkSample R) :=
  let s := net.shares lane
  if s.isEmpty then none else some ⟨time, lane, s.allocated, net.utilization lane, s.size⟩

def channelSample (time : R) (c : Channel R) : ChannelSample R :=
  ⟨time, c.key, c.allocated, c.queue.inFlight.length⟩

/-- The bandwidth of the channels that satisfy a test. -/
def traffic (channels : List (Channel R)) (p : Channel R → Bool) : R :=
  Quantity.sum ((channels.filter p).map Channel.allocated)

/-- The sample of a host, if it has traffic. -/
def hostSample? (channels : List (Channel R)) (time : R) (host : NodeId) : Option (HostSample R) :=
  let outgoing := traffic channels fun c => c.source == host
  let incoming := traffic channels fun c => c.destination == host
  if 0 < outgoing ∨ 0 < incoming then some ⟨time, host, outgoing, incoming⟩ else none

/-- Adds the samples of one time. -/
def record (tel : Telemetry R) (dp : DataPlane R) (time : R) : Telemetry R where
  links := tel.links ++ (lanes dp.network.topology).filterMap (linkSample? dp.network time)
  channels := tel.channels ++ dp.channels.values.map (channelSample time)
  hosts := tel.hosts ++ dp.network.topology.hosts.filterMap (hostSample? dp.channels.values time)

def linkHistory (tel : Telemetry R) (lane : Lane) : List (LinkSample R) :=
  tel.links.filter fun s => decide (s.lane = lane)

def channelHistory (tel : Telemetry R) (key : FlowKey) : List (ChannelSample R) :=
  tel.channels.filter fun s => decide (s.key = key)

def hostHistory (tel : Telemetry R) (host : NodeId) : List (HostSample R) :=
  tel.hosts.filter fun s => s.host == host

end Telemetry

end FlowFabric
