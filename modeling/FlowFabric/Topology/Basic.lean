import FlowFabric.Fault
import FlowFabric.Quantity.Basic

/-! Nodes and links are numbered in the order in which they are added. The end of a link with the
smaller rank is its high end, and traffic towards it goes up. -/

namespace FlowFabric

/-- The tiers of switches, from the racks to the top. -/
inductive Tier where
  | edge
  | aggregate
  | core
  | gateway
  | intercloud
deriving DecidableEq

inductive NodeKind where
  | host
  | switch (tier : Tier)
deriving DecidableEq

namespace NodeKind

/-- The place in the hierarchy, zero at the top. -/
def rank : NodeKind → Nat
  | switch .intercloud => 0
  | switch .gateway => 1
  | switch .core => 2
  | switch .aggregate => 3
  | switch .edge => 4
  | host => 5

/-- Whether the node runs virtual machines. -/
def isHost : NodeKind → Bool
  | host => true
  | switch _ => false

/-- The kind with the given name. Capital letters of ASCII count as small ones. -/
def ofName? (name : String) : Option NodeKind :=
  match String.ofList (name.toList.map Char.toLower) with
  | "host" => some host
  | "edge" => some (switch .edge)
  | "aggregate" => some (switch .aggregate)
  | "core" => some (switch .core)
  | "gateway" => some (switch .gateway)
  | "intercloud" => some (switch .intercloud)
  | _ => none

end NodeKind

/-- The design of a fabric. It decides between which switches
of one tier destinations are passed on. -/
inductive FabricKind where
  | tree
  | fatTree
  | interCloud
deriving DecidableEq

/-- Whether nodes of a kind pass destinations on to others of the same rank. -/
def FabricKind.propagates : FabricKind → NodeKind → Bool
  | fatTree, .switch .core => true
  | fatTree, .switch .aggregate => true
  | interCloud, .switch tier => tier != .edge
  | _, _ => false

/-- A direction of travel over a link. -/
inductive Direction where
  /-- Towards the top of the hierarchy. -/
  | up
  /-- Away from the top. -/
  | down
deriving DecidableEq

/-- A link in one direction of travel. -/
structure Lane where
  link : LinkId
  direction : Direction
deriving DecidableEq

/-- A host or a switch. -/
structure Node (R : Type) where
  name : String
  kind : NodeKind
  /-- The bandwidth at which it can send and receive over each of its links. -/
  bandwidth : R
  /-- The links to other nodes, in the order in which they were added. -/
  links : List LinkId
  /-- The link of a host to itself. -/
  loopback : Option LinkId

def Node.rank {R : Type} (n : Node R) : Nat := n.kind.rank

/-- A connection of two nodes, or of a host with itself. -/
structure Link (R : Type) where
  high : NodeId
  low : NodeId
  latency : R
  upCapacity : R
  downCapacity : R

namespace Link

variable {R : Type}

def isLoopback (l : Link R) : Bool := l.high == l.low

/-- Whether the link has these two ends, in either order. -/
def connects (l : Link R) (a b : NodeId) : Bool :=
  (l.high == a && l.low == b) || (l.high == b && l.low == a)

/-- The end opposite to a node. -/
def otherEnd (l : Link R) (n : NodeId) : NodeId :=
  if n = l.high then l.low else l.high

/-- The direction of traffic sent from a node. -/
def directionFrom (l : Link R) (n : NodeId) : Direction :=
  if n = l.low then .up else .down

def capacity (l : Link R) : Direction → R
  | .up => l.upCapacity
  | .down => l.downCapacity

end Link

/-- The nodes and links of a network. -/
structure Topology (R : Type) where
  kind : FabricKind
  nodes : Array (Node R)
  links : Array (Link R)

/-- Changes of a state that may fail. What was changed before a failure stays so. -/
abbrev ChangeM (R σ : Type) := ExceptT (Fault R) (StateM σ)

abbrev LayoutM (R : Type) := ChangeM R (Topology R)

namespace Topology

variable {R : Type} [Quantity R]

def empty (kind : FabricKind) : Topology R := ⟨kind, #[], #[]⟩

def node? (t : Topology R) (id : NodeId) : Option (Node R) := t.nodes[id]?

def link? (t : Topology R) (id : LinkId) : Option (Link R) := t.links[id]?

def containsNode (t : Topology R) (id : NodeId) : Bool := decide (id < t.nodes.size)

def findNode? (t : Topology R) (name : String) : Option NodeId :=
  t.nodes.findIdx? fun n => n.name == name

def isHost (t : Topology R) (id : NodeId) : Bool :=
  match t.node? id with
  | some n => n.kind.isHost
  | none => false

/-- The hosts in ascending order. -/
def hosts (t : Topology R) : List NodeId :=
  (List.range t.nodes.size).filter t.isHost

/-- The links of a node to other nodes. -/
def linksOf (t : Topology R) (id : NodeId) : List LinkId :=
  match t.node? id with
  | some n => n.links
  | none => []

def rankOf (t : Topology R) (id : NodeId) : Nat :=
  match t.node? id with
  | some n => n.rank
  | none => 0

/-- The node at the other end of a link. -/
def neighbour (t : Topology R) (n : NodeId) (l : LinkId) : NodeId :=
  match t.link? l with
  | some link => link.otherEnd n
  | none => n

def latency (t : Topology R) (id : LinkId) : R :=
  match t.link? id with
  | some l => l.latency
  | none => 0

def capacity (t : Topology R) (lane : Lane) : R :=
  match t.link? lane.link with
  | some l => l.capacity lane.direction
  | none => 0

/-- The link between two nodes; between a host and itself, its loop-back link. -/
def linkBetween? (t : Topology R) (a b : NodeId) : Option LinkId :=
  if a = b then (t.node? a).bind Node.loopback
  else (t.linksOf a).find? fun l => t.neighbour a l == b

/-- Succeeds for the number of a node. -/
def checkNode (t : Topology R) (id : NodeId) : Except (Fault R) Unit :=
  if t.containsNode id then .ok () else .error (.unknownNode id)

/-- Succeeds for the number of a host. -/
def checkHost (t : Topology R) (id : NodeId) : Except (Fault R) Unit :=
  match t.node? id with
  | none => .error (.unknownNode id)
  | some n => if n.kind.isHost then .ok () else .error (.notAHost id)

/-- Succeeds for a positive finite bandwidth. -/
def checkBandwidth (bandwidth : R) : Except (Fault R) Unit :=
  if decide (0 < bandwidth) && Quantity.isFinite bandwidth then .ok ()
  else .error (.invalidBandwidth bandwidth)

/-- Succeeds for a name that no node has. -/
def checkName (t : Topology R) (name : String) : Except (Fault R) Unit :=
  if (t.findNode? name).isSome then .error (.duplicateNode name) else .ok ()

/-- Succeeds for two different nodes. -/
def checkApart (a b : NodeId) : Except (Fault R) Unit :=
  if a = b then .error (.selfLink a) else .ok ()

/-- Succeeds for two nodes without a link between them. -/
def checkUnlinked (t : Topology R) (a b : NodeId) : Except (Fault R) Unit :=
  if (t.linkBetween? a b).isSome then .error (.duplicateLink a b) else .ok ()

/-- The topology with one more node.
A host gets a link to itself, without latency, for traffic between its own machines. -/
def pushNode (t : Topology R) (name : String) (kind : NodeKind) (bandwidth : R) : Topology R :=
  let id := t.nodes.size
  if kind.isHost then
    { t with
      nodes := t.nodes.push ⟨name, kind, bandwidth, [], some t.links.size⟩
      links := t.links.push ⟨id, id, 0, bandwidth, bandwidth⟩ }
  else
    { t with nodes := t.nodes.push ⟨name, kind, bandwidth, [], none⟩ }

def addNode (name : String) (kind : NodeKind) (bandwidth : R) : LayoutM R NodeId := do
  let t ← get
  checkBandwidth bandwidth
  t.checkName name
  set (t.pushNode name kind bandwidth)
  return t.nodes.size

/-- Adds a node whose kind is given by name. -/
def addNamedNode (name kind : String) (bandwidth : R) : LayoutM R NodeId :=
  match NodeKind.ofName? kind with
  | some k => addNode name k bandwidth
  | none => throw (.unknownNodeType kind)

/-- Whether the first node lies above the second one, or before it in the same rank. -/
def above (t : Topology R) (a b : NodeId) : Bool :=
  decide (t.rankOf a < t.rankOf b) || (t.rankOf a == t.rankOf b && decide (a < b))

/-- The link of two nodes whose capacity is `forward` for traffic from the first to the second and
`backward` for the other direction. -/
def linkFor (t : Topology R) (a b : NodeId) (latency forward backward : R) : Link R :=
  if t.above a b then ⟨a, b, latency, backward, forward⟩ else ⟨b, a, latency, forward, backward⟩

/-- The topology with one more link. Both ends list it after those that they have. -/
def pushLink (t : Topology R) (a b : NodeId) (latency forward backward : R) : Topology R :=
  let attach (n : Node R) : Node R := { n with links := n.links ++ [t.links.size] }
  { t with
    nodes := (t.nodes.modify a attach).modify b attach
    links := t.links.push (t.linkFor a b latency forward backward) }

/-- Adds a link with a capacity for each direction. -/
def addLinkWith (a b : NodeId) (latency forward backward : R) : LayoutM R LinkId := do
  let t ← get
  t.checkNode a
  t.checkNode b
  checkApart (R := R) a b
  checkBandwidth forward
  checkBandwidth backward
  t.checkUnlinked a b
  set (t.pushLink a b latency forward backward)
  return t.links.size

/-- The bandwidth of a node, zero if there is none with the number. -/
def nodeBandwidth (t : Topology R) (id : NodeId) : R :=
  match t.node? id with
  | some n => n.bandwidth
  | none => 0

/-- Adds a link that is as fast as the slower of its ends. -/
def addLink (a b : NodeId) (latency : R) : LayoutM R LinkId := do
  let t ← get
  t.checkNode a
  t.checkNode b
  let bandwidth := Quantity.min (t.nodeBandwidth a) (t.nodeBandwidth b)
  addLinkWith a b latency bandwidth bandwidth

/-- The sum of the latencies of links, `none` if one of them does not exist. -/
def pathLatency? (t : Topology R) (links : List LinkId) : Option R :=
  (links.mapM fun l => (t.link? l).map Link.latency).map Quantity.sum

end Topology

end FlowFabric
