import FlowFabric.Table
import FlowFabric.Topology.Basic

/-! Tables are built from the hosts to the top, one tier at a time. A node knows the hosts below it
and, where the fabric passes destinations on within a tier, those of its nearest peers. -/

namespace FlowFabric

/-- The routes of a node: candidate links towards known hosts, and the links that lead up. -/
structure RoutingTable where
  specific : Table NodeId (List LinkId)
  uplinks : List LinkId

namespace RoutingTable

def empty : RoutingTable := ⟨Table.empty, []⟩

instance : Inhabited RoutingTable := ⟨empty⟩

/-- The links towards a host, if the table knows it. -/
def specific? (t : RoutingTable) (dst : NodeId) : Option (List LinkId) := t.specific.get? dst

/-- The candidate links towards a host. A host that is not known is sought higher up. -/
def route (t : RoutingTable) (dst : NodeId) : List LinkId := (t.specific? dst).getD t.uplinks

/-- Whether the table has a route made for the host. -/
def knows (t : RoutingTable) (dst : NodeId) : Bool := t.specific.contains dst

/-- The hosts with a route of their own. -/
def known (t : RoutingTable) : List NodeId := t.specific.keys

/-- The number of entries. All links that lead up make one. -/
def size (t : RoutingTable) : Nat :=
  t.specific.size + (if t.uplinks.isEmpty then 0 else 1)

/-- Adds a candidate at the end unless it is one already. -/
def addCandidate (links : List LinkId) (l : LinkId) : List LinkId :=
  if l ∈ links then links else links ++ [l]

def addRoute (t : RoutingTable) (dst : NodeId) (l : LinkId) : RoutingTable :=
  { t with specific := t.specific.insert dst (addCandidate ((t.specific? dst).getD []) l) }

def addUplink (t : RoutingTable) (l : LinkId) : RoutingTable :=
  { t with uplinks := addCandidate t.uplinks l }

def addRoutes (t : RoutingTable) (routes : List (NodeId × LinkId)) : RoutingTable :=
  routes.foldl (fun t r => t.addRoute r.1 r.2) t

end RoutingTable

/-- The routing tables of all nodes. A node without one has no routes. -/
abbrev Routes := Array RoutingTable

namespace Routes

variable {R : Type} [Quantity R]

def table (rs : Routes) (n : NodeId) : RoutingTable := rs.getD n RoutingTable.empty

/-- What a node learns from one of its links: a link up is kept for all hosts, and a link down
serves the hosts known at its other end. A link within the tier teaches nothing yet. -/
def learnFrom (t : Topology R) (rs : Routes) (n : NodeId) (table : RoutingTable) (l : LinkId) :
    RoutingTable :=
  let other := t.neighbour n l
  if t.rankOf other < t.rankOf n then table.addUplink l
  else if t.rankOf n < t.rankOf other then
    table.addRoutes (((rs.table other).known).map fun dst => (dst, l))
  else table

/-- The table that the tiers below give to a node. A host starts with itself. -/
def fromBelow (t : Topology R) (rs : Routes) (n : NodeId) : RoutingTable :=
  -- Only hosts have a loop-back link.
  let own := match (t.node? n).bind Node.loopback with
    | some l => RoutingTable.empty.addRoute n l
    | none => RoutingTable.empty
  (t.linksOf n).foldl (learnFrom t rs n) own

/-- The nodes of the same tier next to a node, each with the link to it. -/
def peers (t : Topology R) (n : NodeId) : List (NodeId × LinkId) :=
  ((t.linksOf n).map fun l => (t.neighbour n l, l)).filter fun p => t.rankOf p.1 == t.rankOf n

/-- The first pair for each node that has not been met. -/
def firstMet (met : List NodeId) : List (NodeId × LinkId) → List (NodeId × LinkId)
  | [] => []
  | p :: rest => if p.1 ∈ met then firstMet met rest else p :: firstMet (p.1 :: met) rest

/-- The waves of a search through a tier: the peers at distance one, at distance two, and so on,
each with the link that the search took first. Every wave meets a new peer, so the number of nodes
bounds the number of waves. -/
def waves (t : Topology R) : Nat → List NodeId → List (NodeId × LinkId) →
    List (List (NodeId × LinkId))
  | 0, _, _ => []
  | fuel + 1, met, wave =>
    if wave.isEmpty then []
    else
      let met := met ++ wave.map Prod.fst
      -- A peer of the next wave is reached by the first link of the peer that meets it.
      let next := wave.flatMap fun p => (peers t p.1).map fun q => (q.1, p.2)
      wave :: waves t fuel met (firstMet met next)

def wavesFrom (t : Topology R) (n : NodeId) : List (List (NodeId × LinkId)) :=
  waves t t.nodes.size [n] (firstMet [n] (peers t n))

/-- The routes learned from waves of peers. A host is learned from the first wave that knows it,
from every peer of that wave that does. -/
def learned (rs : Routes) : List NodeId → List (List (NodeId × LinkId)) → List (NodeId × LinkId)
  | _, [] => []
  | settled, wave :: rest =>
    -- All peers of one wave count, although the first of them already settles the host.
    let fresh := wave.flatMap fun p =>
      (((rs.table p.1).known).filter fun dst => decide (dst ∉ settled)).map fun dst => (dst, p.2)
    fresh ++ learned rs (settled ++ fresh.map Prod.fst) rest

/-- The table of a node after its peers have passed their hosts on. -/
def fromPeers (t : Topology R) (rs : Routes) (n : NodeId) : RoutingTable :=
  (rs.table n).addRoutes (learned rs (rs.table n).known (wavesFrom t n))

/-- Whether a node takes part in passing hosts on within its tier. -/
def propagates (t : Topology R) (n : NodeId) : Bool :=
  match t.node? n with
  | some node => t.kind.propagates node.kind
  | none => false

/-- Gives the nodes of a tier the hosts of the tiers below. -/
def descend (t : Topology R) (rank : Nat) (rs : Routes) : Routes :=
  rs.mapIdx fun n table => if t.rankOf n = rank then fromBelow t rs n else table

/-- Lets the nodes of a tier learn from their peers. -/
def exchange (t : Topology R) (rank : Nat) (rs : Routes) : Routes :=
  rs.mapIdx fun n table => if t.rankOf n = rank ∧ propagates t n then fromPeers t rs n else table

def tier (t : Topology R) (rank : Nat) (rs : Routes) : Routes :=
  exchange t rank (descend t rank rs)

/-- The ranks from the hosts to the top. -/
def ranks : List Nat := [5, 4, 3, 2, 1, 0]

def ofTopology (t : Topology R) : Routes :=
  ranks.foldl (fun rs rank => tier t rank rs) (Array.replicate t.nodes.size RoutingTable.empty)

end Routes

end FlowFabric
