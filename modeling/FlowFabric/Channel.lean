import FlowFabric.Network.Basic
import FlowFabric.Queue

/-! A channel carries the packets of one flow along a path. Its queue sends at the bandwidth last
given: before that changes, progress up to the present is accounted for at the old one. -/

namespace FlowFabric

/-- The live transport of a flow. -/
structure Channel (R : Type) where
  key : FlowKey
  path : Path
  requested : R
  allocated : R
  latency : R
  queue : Queue R

namespace Channel

variable {R : Type} [Quantity R]

/-- A channel that has not been entered into its lanes yet. -/
def create (key : FlowKey) (path : Path) (requested : R) (discipline : Discipline)
    (defaultTimeout : Option R) : Channel R where
  key := key
  path := path
  requested := requested
  allocated := 0
  latency := 0
  queue := Queue.empty discipline defaultTimeout

def isDedicated (c : Channel R) : Bool := c.key.isDedicated

def source (c : Channel R) : NodeId := c.path.start

def destination (c : Channel R) : NodeId := c.path.last

/-- The share of the channel in every lane of its path. -/
def share (c : Channel R) : Share R := ⟨c.isDedicated, c.requested, c.allocated⟩

/-- Enters the channel into the lanes of its path. -/
def register (c : Channel R) (net : Network R) : Channel R × Network R :=
  ({ c with latency := Quantity.sum (c.path.links.map net.topology.latency) },
    { net with load := net.load.enterAll c.path.lanes c.key c.share })

def unregister (c : Channel R) (net : Network R) : Network R :=
  { net with load := net.load.leaveAll c.path.lanes c.key }

def advance (c : Channel R) (time : R) : Channel R := { c with queue := c.queue.advance time }

/-- Appends a transmission, once the others have been advanced to the time. -/
def send (c : Channel R) (t : Transmission R) (time : R) : Channel R :=
  { c with queue := (c.queue.advance time).add t time }

def reroute (c : Channel R) (net : Network R) (path : Path) (time : R) : Channel R × Network R :=
  -- The old path carries the transmissions up to now.
  let c := c.advance time
  register { c with path } (c.unregister net)

/-- Changes the requested bandwidth, which takes effect when the channel is adjusted. -/
def setRequested (c : Channel R) (net : Network R) (requested : R) : Channel R × Network R :=
  ({ c with requested },
    { net with load := net.load.adjustAll c.path.lanes c.key fun s => { s with requested } })

/-- Whether a bandwidth is too close to the present one to be worth a change. -/
def isSettledAt (c : Channel R) (bandwidth : R) : Bool :=
  decide (Quantity.abs (bandwidth - c.allocated) ≤ tolerance * Quantity.max bandwidth 1)

/-- Gives the channel a bandwidth from the time on and tells whether that is a change. -/
def setAllocated (c : Channel R) (net : Network R) (bandwidth time : R) :
    Bool × Channel R × Network R :=
  if c.isSettledAt bandwidth then (false, c, net)
  else
    -- What was sent up to now was sent at the old bandwidth.
    let queue := (c.queue.advance time).setBandwidth bandwidth
    (true, { c with allocated := bandwidth, queue },
      { net with load := net.load.adjustAll c.path.lanes c.key fun s =>
        { s with allocated := bandwidth } })

/-- The smallest factor on the lanes, at most one. -/
def scale (net : Network R) (lanes : List Lane) : R :=
  (lanes.map net.factor).foldl Quantity.min 1

/-- The first slowest lane. -/
def slowest? (net : Network R) (lanes : List Lane) : Option Lane :=
  (lanes.foldl
    (fun (best : R × Option Lane) lane =>
      if net.capacity lane < best.1 then (net.capacity lane, some lane) else best)
    (Quantity.infinity, none)).2

/-- The equal share of a dedicated channel of a lane. -/
def equalShare (net : Network R) (lane : Lane) : R :=
  net.capacity lane / Quantity.ofNat (Nat.max (net.shares lane).dedicatedCount 1)

/-- The bandwidth of a dedicated channel: its request, scaled so that it fits all lanes, and at most
an equal share of the slowest one. -/
def dedicatedTarget (c : Channel R) (net : Network R) : R :=
  let bound := match slowest? net c.path.lanes with
    | some lane => equalShare net lane
    | none => Quantity.infinity
  Quantity.min (c.requested * scale net c.path.lanes) bound

/-- The bandwidth of a channel of a default flow: the smallest share on its lanes. -/
def sharedTarget (c : Channel R) (net : Network R) : R :=
  let b := Quantity.minimum (c.path.lanes.map net.perShared)
  if Quantity.isFinite b then b else 0

def adjustDedicated (c : Channel R) (net : Network R) (time : R) : Bool × Channel R × Network R :=
  c.setAllocated net (c.dedicatedTarget net) time

def adjustShared (c : Channel R) (net : Network R) (time : R) : Bool × Channel R × Network R :=
  c.setAllocated net (c.sharedTarget net) time

end Channel

end FlowFabric
