import FlowFabric.Channel
import FlowFabric.Network.Forwarding

/-! The network with its live channels. Whenever one of them comes, goes, moves or asks for another
bandwidth, all are settled again: dedicated ones first, then those of default flows. -/

namespace FlowFabric

/-- A network and its live channels. -/
structure DataPlane (R : Type) where
  network : Network R
  channels : Table FlowKey (Channel R)
  /-- How new channels share their bandwidth among transmissions. -/
  discipline : Discipline
  /-- The timeout of transmissions that bring none. -/
  defaultTimeout : Option R

/-- A transmission that has left its channel, with the latency of the channel. -/
structure Departure (R : Type) where
  key : FlowKey
  transmission : Transmission R
  latency : R

/-- What happened when all channels were advanced. -/
structure Report (R : Type) where
  completed : List (Departure R)
  failed : List (Departure R)
  /-- The channels that were removed because nothing was left in them. -/
  removed : List FlowKey

namespace DataPlane

variable {R : Type} [Quantity R]

def create (network : Network R) (discipline : Discipline) (defaultTimeout : Option R) :
    DataPlane R where
  network := network
  channels := Table.empty
  discipline := discipline
  defaultTimeout := defaultTimeout

/-- The channel of exactly this flow. -/
def channel? (dp : DataPlane R) (key : FlowKey) : Option (Channel R) := dp.channels.get? key

/-- The channel that carries the packets of a flow,
that of the default flow if it has none of its own. -/
def find? (dp : DataPlane R) (key : FlowKey) : Option (Channel R) :=
  dp.channel? key <|> dp.channel? key.toDefault

/-- The flows of a machine that have a channel. -/
def channelsOf (dp : DataPlane R) (vm : VmId) : List FlowKey :=
  dp.channels.keys.filter fun key => key.touches vm

/-- Puts a channel and the network back after one of its operations. -/
def replace (dp : DataPlane R) (c : Channel R) (net : Network R) : DataPlane R :=
  { dp with network := net, channels := dp.channels.insert c.key c }

/-- Adjusts one channel and tells whether its bandwidth changed. -/
def adjust (dp : DataPlane R) (key : FlowKey) (time : R) : Bool × DataPlane R :=
  match dp.channel? key with
  | none => (false, dp)
  | some c =>
    let (changed, c, net) :=
      if c.isDedicated then c.adjustDedicated dp.network time
      else c.adjustShared dp.network time
    (changed, dp.replace c net)

def adjustEach (time : R) : List FlowKey → DataPlane R → Bool × DataPlane R
  | [], dp => (false, dp)
  | key :: rest, dp =>
    let (changed, dp) := dp.adjust key time
    let (changed', dp) := adjustEach time rest dp
    (changed || changed', dp)

/-- The order in which channels are settled: dedicated ones, then those of default flows. -/
def settlingOrder (dp : DataPlane R) : List FlowKey :=
  dp.channels.keys.filter FlowKey.isDedicated ++ dp.channels.keys.filter fun key => !key.isDedicated

/-- Adjusts all channels and tells whether any bandwidth changed. -/
def settle (dp : DataPlane R) (time : R) : Bool × DataPlane R := adjustEach time dp.settlingOrder dp

/-- Makes a channel for a flow over the path that its forwarding entries give. -/
def openChannel (select : Selection R) (dp : DataPlane R) (key : FlowKey) (src dst : NodeId)
    (requested : R) (dynamic : Bool) : Except (Fault R) (Channel R) × DataPlane R :=
  let (outcome, network) := dp.network.resolve select key src dst dynamic
  (outcome.map fun path => Channel.create key path requested dp.discipline dp.defaultTimeout,
    { dp with network })

def unregister (dp : DataPlane R) (key : FlowKey) : DataPlane R :=
  match dp.channel? key with
  | none => dp
  | some c => { dp with network := c.unregister dp.network }

/-- Adds a channel, in place of a live one of the same flow. -/
def add (dp : DataPlane R) (c : Channel R) (time : R) : DataPlane R :=
  -- The channel that is replaced may run over other lanes.
  let dp := dp.unregister c.key
  let (c, net) := c.register dp.network
  ((dp.replace c net).settle time).2

/-- Removes a channel without settling the others. -/
def discard (dp : DataPlane R) (key : FlowKey) : DataPlane R :=
  let dp := dp.unregister key
  { dp with channels := dp.channels.erase key }

/-- Removes the channel of a flow and hands it out. -/
def remove (dp : DataPlane R) (key : FlowKey) (time : R) : Option (Channel R) × DataPlane R :=
  match dp.channel? key with
  | none => (none, dp)
  | some c => (some c, ((dp.discard key).settle time).2)

/-- Appends a transmission to the channel of a flow and tells whether there is one. -/
def send (dp : DataPlane R) (key : FlowKey) (t : Transmission R) (time : R) : Bool × DataPlane R :=
  match dp.channel? key with
  | none => (false, dp)
  | some c => (true, dp.replace (c.send t time) dp.network)

/-- What the channels have let go of since the last collection, and which of them are empty. -/
def harvest (channels : List (Channel R)) : Report R where
  completed := channels.flatMap fun c => c.queue.completed.map fun t => ⟨c.key, t, c.latency⟩
  failed := channels.flatMap fun c => c.queue.failed.map fun t => ⟨c.key, t, c.latency⟩
  removed := (channels.filter fun c => c.queue.inFlight.isEmpty).map Channel.key

/-- Advances all channels to the time,
collects the transmissions that have ended and removes the channels that are empty. -/
def advance (dp : DataPlane R) (time : R) : Report R × DataPlane R :=
  let channels := dp.channels.map fun _ c => c.advance time
  let report := harvest channels.values
  let dp := { dp with channels := channels.map fun _ c => { c with queue := c.queue.collect } }
  -- All empty channels leave before the others are settled, so that none of them counts.
  if report.removed.isEmpty then (report, dp)
  else (report, ((report.removed.foldl discard dp).settle time).2)

/-- The time of the next completion in any channel. There has to be a channel. -/
def nextFinish (dp : DataPlane R) : Except (Fault R) R :=
  if dp.channels.isEmpty then .error (.breach .noLiveChannels)
  else .ok (Quantity.minimum (dp.channels.values.map fun c => c.queue.nextFinish))

def nextTimeout (dp : DataPlane R) : R :=
  Quantity.minimum (dp.channels.values.map fun c => c.queue.nextTimeout)

/-- Changes the bandwidth that a channel asks for and tells whether there is one. -/
def setRequested (dp : DataPlane R) (key : FlowKey) (requested time : R) : Bool × DataPlane R :=
  match dp.channel? key with
  | none => (false, dp)
  | some c =>
    let (c, net) := c.setRequested dp.network requested
    (true, ((dp.replace c net).settle time).2)

/-- Moves a channel to another path and tells whether there is one. -/
def reroute (dp : DataPlane R) (key : FlowKey) (path : Path) (time : R) : Bool × DataPlane R :=
  match dp.channel? key with
  | none => (false, dp)
  | some c =>
    let (c, net) := c.reroute dp.network path time
    (true, ((dp.replace c net).settle time).2)

end DataPlane

end FlowFabric
