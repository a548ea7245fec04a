import FlowFabric.Network.Basic

namespace FlowFabric

/-- A choice of a link out of candidates, at a node and towards a host. -/
abbrev Selection (R : Type) := Network R → NodeId → NodeId → FlowKey → List LinkId → Option LinkId

/-- The selections that come with the library. -/
inductive SelectionRule where
  /-- The first candidate. -/
  | first
  /-- Destinations are spread over the candidates by their number. -/
  | destinationAddress
  /-- The candidate with the most bandwidth to spare. -/
  | bandwidthAllocation
deriving DecidableEq

namespace Selection

variable {R : Type} [Quantity R]

def first : Selection R := fun _ _ _ _ cs => cs.head?

/-- The candidate at the position that the number of the destination gives. -/
def spread (dst : NodeId) (cs : List LinkId) : Option LinkId := cs[dst % cs.length]?

def destinationAddress : Selection R := fun _ _ dst _ cs => spread dst cs

/-- The bandwidth of a link, travelled from a node, that the other channels leave to a flow. -/
def spare (net : Network R) (here : NodeId) (key : FlowKey) (l : LinkId) : R :=
  let direction := match net.topology.link? l with
    | some link => link.directionFrom here
    | none => .down
  let s := net.shares ⟨l, direction⟩
  net.capacity ⟨l, direction⟩ - s.allocated + (s.allocatedTo? key).getD 0

/-- The candidates whose spare bandwidth is the largest, up to the tolerance. -/
def widest (free : LinkId → R) (cs : List LinkId) : List LinkId :=
  let best := (cs.map free).foldl Quantity.max (0 - Quantity.infinity)
  cs.filter fun l =>
    decide (Quantity.abs (free l - best) ≤ 1e-9 * Quantity.max (Quantity.abs best) 1)

/-- Takes a candidate with the most bandwidth to spare;
several are spread over by the destination. -/
def bandwidthAllocation : Selection R := fun net here dst key cs =>
  spread dst (widest (spare net here key) cs)

end Selection

/-- The selection that a rule stands for. -/
def SelectionRule.select {R : Type} [Quantity R] : SelectionRule → Selection R
  | first => Selection.first
  | destinationAddress => Selection.destinationAddress
  | bandwidthAllocation => Selection.bandwidthAllocation

end FlowFabric
