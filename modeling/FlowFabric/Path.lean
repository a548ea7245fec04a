import FlowFabric.Topology.Basic

namespace FlowFabric

/-- A step over a link to a node. -/
structure Hop where
  lane : Lane
  target : NodeId
deriving DecidableEq

/-- A start and the hops from there. -/
structure Path where
  start : NodeId
  hops : List Hop
deriving DecidableEq

namespace Path

/-- The nodes in the order of travel, the start included. -/
def nodes (p : Path) : List NodeId := p.start :: p.hops.map Hop.target

def lanes (p : Path) : List Lane := p.hops.map Hop.lane

def links (p : Path) : List LinkId := p.lanes.map Lane.link

/-- The node where the path ends. -/
def last (p : Path) : NodeId := p.nodes.getLast (List.cons_ne_nil _ _)

def push (p : Path) (h : Hop) : Path := { p with hops := p.hops ++ [h] }

@[simp] theorem nodes_push (p : Path) (h : Hop) : (p.push h).nodes = p.nodes ++ [h.target] := by
  simp [nodes, push]

@[simp] theorem last_push (p : Path) (h : Hop) : (p.push h).last = h.target := by
  simp [last]

variable {R : Type} [Quantity R]

/-- The hop that leaves a node by a link, `none` if there is no such link. -/
def hop? (t : Topology R) (here : NodeId) (l : LinkId) : Option Hop :=
  (t.link? l).map fun link => ⟨⟨l, link.directionFrom here⟩, link.otherEnd here⟩

/-- The hop from one node to another over the link between them. -/
def hopBetween? (t : Topology R) (a b : NodeId) : Option Hop :=
  (t.linkBetween? a b).bind fun l => (t.link? l).map fun link => ⟨⟨l, link.directionFrom a⟩, b⟩

/-- The hops along a sequence of nodes after a first one. -/
def hopsAlong (t : Topology R) : NodeId → List NodeId → Except (Fault R) (List Hop)
  | _, [] => .ok []
  | a, b :: rest =>
    match hopBetween? t a b with
    | none => .error (.noRoute a b)
    | some h => (hopsAlong t b rest).map (h :: ·)

def ofNodes (t : Topology R) : List NodeId → Except (Fault R) Path
  | a :: b :: rest => (hopsAlong t a (b :: rest)).map fun hops => ⟨a, hops⟩
  | _ => .error (.breach .shortPath)

end Path

end FlowFabric
