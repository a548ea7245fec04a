import FlowFabric.Load
import FlowFabric.Path
import FlowFabric.Routing
import FlowFabric.Topology.Layout

namespace FlowFabric

/-- For each node and flow with a forwarding entry, the node to go to next. -/
abbrev Forwarding := Table (NodeId × FlowKey) NodeId

/-- The state of a network. -/
structure Network (R : Type) where
  topology : Topology R
  routes : Routes
  /-- Whether the routing tables are those of the present topology. -/
  routed : Bool
  load : Load R
  forwarding : Forwarding

namespace Network

variable {R : Type} [Quantity R]

def empty (kind : FabricKind) : Network R where
  topology := Topology.empty kind
  routes := #[]
  routed := false
  load := Table.empty
  forwarding := Table.empty

def buildRoutes (net : Network R) : Network R :=
  { net with routes := Routes.ofTopology net.topology, routed := true }

/-- Changes the topology. Routing tables stay as they are,
and are outdated once a node or a link has been added. -/
def extend {α : Type} (net : Network R) (change : LayoutM R α) : Except (Fault R) α × Network R :=
  let (outcome, t) := change.run.run net.topology
  -- Nothing is ever removed, so the counts show whether anything was added.
  let same := t.nodes.size == net.topology.nodes.size && t.links.size == net.topology.links.size
  (outcome, { net with topology := t, routed := net.routed && same })

def routing (net : Network R) (n : NodeId) : RoutingTable := net.routes.table n

def shares (net : Network R) (lane : Lane) : Shares R := net.load.shares lane

def capacity (net : Network R) (lane : Lane) : R := net.topology.capacity lane

def factor (net : Network R) (lane : Lane) : R := (net.shares lane).factor (net.capacity lane)

def free (net : Network R) (lane : Lane) : R := (net.shares lane).free (net.capacity lane)

def perShared (net : Network R) (lane : Lane) : R := (net.shares lane).perShared (net.capacity lane)

def utilization (net : Network R) (lane : Lane) : R :=
  (net.shares lane).utilization (net.capacity lane)

def next? (net : Network R) (n : NodeId) (key : FlowKey) : Option NodeId :=
  net.forwarding.get? (n, key)

def withForwarding (net : Network R) (f : Forwarding) : Network R := { net with forwarding := f }

def setNext (net : Network R) (n : NodeId) (key : FlowKey) (next : NodeId) : Network R :=
  net.withForwarding (net.forwarding.insert (n, key) next)

def dropNext (net : Network R) (n : NodeId) (key : FlowKey) : Network R :=
  net.withForwarding (net.forwarding.erase (n, key))

omit [Quantity R] in
@[simp] theorem next?_setNext_self (net : Network R) (n : NodeId) (key : FlowKey) (m : NodeId) :
    (net.setNext n key m).next? n key = some m := by
  simp [next?, setNext, withForwarding]

omit [Quantity R] in
theorem next?_setNext_of_ne (net : Network R) {n n' : NodeId} {key key' : FlowKey}
    (h : (n', key') ≠ (n, key)) (m : NodeId)
    : (net.setNext n key m).next? n' key' = net.next? n' key' :=
  Table.get?_insert_of_ne _ h m

omit [Quantity R] in
@[simp] theorem next?_dropNext_self (net : Network R) (n : NodeId) (key : FlowKey) :
    (net.dropNext n key).next? n key = none := by
  simp [next?, dropNext, withForwarding]

omit [Quantity R] in
theorem next?_dropNext_of_ne (net : Network R) {n n' : NodeId} {key key' : FlowKey}
    (h : (n', key') ≠ (n, key)) : (net.dropNext n key).next? n' key' = net.next? n' key' :=
  Table.get?_erase_of_ne _ h

def dropAll (net : Network R) (key : FlowKey) (ns : List NodeId) : Network R :=
  ns.foldl (fun net n => net.dropNext n key) net

omit [Quantity R] in
/-- Entries at the nodes of the list go, and nothing else does. -/
theorem next?_dropAll (net : Network R) (key key' : FlowKey) (ns : List NodeId) (n : NodeId) :
    (net.dropAll key ns).next? n key' = if key' = key ∧ n ∈ ns then none else net.next? n key' := by
  induction ns generalizing net with
  | nil => simp [dropAll]
  | cons m rest ih =>
    have hs : net.dropAll key (m :: rest) = (net.dropNext m key).dropAll key rest := rfl
    rw [hs, ih]
    by_cases hk : key' = key
    · subst hk
      by_cases hr : n ∈ rest
      · simp [hr]
      · by_cases hm : n = m
        · subst hm
          simp [hr]
        · have hne : (n, key') ≠ (m, key') := fun h => hm (Prod.mk.inj h).1
          simp [hr, hm, next?_dropNext_of_ne net hne]
    · have hne : (n, key') ≠ (m, key) := fun h => hk (Prod.mk.inj h).2
      simp [hk, next?_dropNext_of_ne net hne]

/-- The forwarding entries of a flow, by node. -/
def entriesOf (net : Network R) (key : FlowKey) : List (NodeId × NodeId) :=
  (List.range net.topology.nodes.size).filterMap fun n => (net.next? n key).map fun m => (n, m)

/-- The forwarding entries at a node in the order of their flows. -/
def entriesAt (net : Network R) (n : NodeId) : List (FlowKey × NodeId) :=
  let keys := (net.forwarding.keys.filter fun e => e.1 == n).map Prod.snd
  (FlowKey.sortDistinct keys).filterMap fun key => (net.next? n key).map fun m => (key, m)

/-- The flows of a machine that have a forwarding entry anywhere, in order. -/
def installedFlows (net : Network R) (vm : VmId) : List FlowKey :=
  FlowKey.sortDistinct ((net.forwarding.keys.map Prod.snd).filter fun key => key.touches vm)

end Network

end FlowFabric
