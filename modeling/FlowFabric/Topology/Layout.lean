import FlowFabric.Topology.Basic

/-! A layout that meets a fault leaves the nodes and links that it has added so far. -/

namespace FlowFabric

/-- The nodes of a layout by their part in it. -/
structure Layout where
  hosts : List NodeId
  edges : List NodeId
  aggregates : List NodeId
  cores : List NodeId
  gateways : List NodeId
  intercloud : List NodeId

/-- A core switch, edge switches below it and hosts below each of them. -/
structure TreeShape (R : Type) where
  edges : Nat
  hostsPerEdge : Nat
  hostBandwidth : R
  switchBandwidth : R
  latency : R

/-- A fat-tree of arity `k`: `k` pods, each with half as many switches in either of its two tiers,
under the square of half as many cores. -/
structure FatTreeShape (R : Type) where
  k : Nat
  hostBandwidth : R
  switchBandwidth : R
  latency : R

namespace Layout

variable {R : Type} [Quantity R]

/-- The tree that stands for a shape left open. -/
def defaultTree : TreeShape R := ⟨2, 2, 1000, 1000, 0⟩

/-- The fat-tree that stands for a shape left open. -/
def defaultFatTree : FatTreeShape R := ⟨4, 1000, 1000, 0⟩

open FlowFabric.Topology (addNode)

/-- Adds a link as fast as the slower of its ends. -/
def link (a b : NodeId) (latency : R) : LayoutM R Unit := do
  let _ ← Topology.addLink a b latency

/-- Adds a host below an edge switch. -/
def host (edge : NodeId) (name : String) (bandwidth latency : R) : LayoutM R NodeId := do
  let h ← addNode name .host bandwidth
  link edge h latency
  return h

/-- Adds an edge switch of a tree with its hosts. -/
def rack (s : TreeShape R) (label : String) (core : NodeId) (e : Nat) :
    LayoutM R (NodeId × List NodeId) := do
  let edge ← addNode s!"{label}edge_{e}" (.switch .edge) s.switchBandwidth
  link core edge s.latency
  let hosts ← (List.range s.hostsPerEdge).mapM fun h =>
    host edge s!"{label}host_{e}_{h}" s.hostBandwidth s.latency
  return (edge, hosts)

/-- Adds a tree whose names start with a label. -/
def labelledTree (s : TreeShape R) (label : String) : LayoutM R Layout := do
  let core ← addNode s!"{label}core" (.switch .core) s.switchBandwidth
  let racks ← (List.range s.edges).mapM (rack s label core)
  return {
    hosts := racks.flatMap Prod.snd
    edges := racks.map Prod.fst
    aggregates := []
    cores := [core]
    gateways := []
    intercloud := [] }

def tree (s : TreeShape R) : LayoutM R Layout := labelledTree s ""

/-- Adds an aggregate switch of a pod below its group of cores. -/
def podAggregate (s : FatTreeShape R) (cores : List NodeId) (pod a : Nat) : LayoutM R NodeId := do
  let agg ← addNode s!"agg_{pod}_{a}" (.switch .aggregate) s.switchBandwidth
  let half := s.k / 2
  ((cores.drop (a * half)).take half).forM fun core => link core agg s.latency
  return agg

/-- Adds an edge switch of a pod below all aggregates of the pod, with its hosts. -/
def podEdge (s : FatTreeShape R) (aggregates : List NodeId) (pod e : Nat) :
    LayoutM R (NodeId × List NodeId) := do
  let edge ← addNode s!"edge_{pod}_{e}" (.switch .edge) s.switchBandwidth
  aggregates.forM fun agg => link agg edge s.latency
  let hosts ← (List.range (s.k / 2)).mapM fun h =>
    host edge s!"host_{pod}_{e}_{h}" s.hostBandwidth s.latency
  return (edge, hosts)

/-- Adds a pod of a fat-tree: its aggregates, and its edges with their hosts. -/
def pod (s : FatTreeShape R) (cores : List NodeId) (p : Nat) :
    LayoutM R (List NodeId × List (NodeId × List NodeId)) := do
  let aggregates ← (List.range (s.k / 2)).mapM (podAggregate s cores p)
  let edges ← (List.range (s.k / 2)).mapM (podEdge s aggregates p)
  return (aggregates, edges)

/-- Adds a fat-tree. The cores form groups of half the arity; the aggregate of a pod at position `i`
is linked to the cores of group `i`. -/
def fatTree (s : FatTreeShape R) : LayoutM R Layout := do
  if s.k < 2 ∨ s.k % 2 = 1 then
    throw (.breach (.oddArity s.k))
  let half := s.k / 2
  let cores ← (List.range (half * half)).mapM fun c =>
    addNode s!"core_{c}" (.switch .core) s.switchBandwidth
  let pods ← (List.range s.k).mapM (pod s cores)
  let racks := pods.flatMap Prod.snd
  return {
    hosts := racks.flatMap Prod.snd
    edges := racks.map Prod.fst
    aggregates := pods.flatMap Prod.fst
    cores := cores
    gateways := []
    intercloud := [] }

/-- Adds a datacenter: a tree whose core is linked to a gateway,
and the gateway to the switch between clouds. -/
def datacenter (top : NodeId) (s : TreeShape R) (i : Nat) : LayoutM R Layout := do
  let label := s!"dc{i}_"
  let dc ← labelledTree s label
  let gateway ← addNode s!"{label}gateway" (.switch .gateway) s.switchBandwidth
  dc.cores.forM fun core => link gateway core s.latency
  link top gateway s.latency
  return { dc with gateways := [gateway] }

/-- The largest switch bandwidth of several trees, minus infinity for none. -/
def fastestSwitch (shapes : List (TreeShape R)) : R :=
  (shapes.map TreeShape.switchBandwidth).foldl Quantity.max (0 - Quantity.infinity)

/-- Adds datacenters joined by one switch, which is as fast as the fastest of theirs. -/
def interCloud (shapes : List (TreeShape R)) : LayoutM R Layout := do
  let top ← addNode "intercloud" (.switch .intercloud) (fastestSwitch shapes)
  let dcs ← shapes.zipIdx.mapM fun (s, i) => datacenter top s i
  return {
    hosts := dcs.flatMap Layout.hosts
    edges := dcs.flatMap Layout.edges
    aggregates := []
    cores := dcs.flatMap Layout.cores
    gateways := dcs.flatMap Layout.gateways
    intercloud := [top] }

end Layout

end FlowFabric
