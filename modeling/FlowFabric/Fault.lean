import FlowFabric.FlowKey

namespace FlowFabric

/-- The number of a node, its position among the nodes of the topology. -/
abbrev NodeId := Nat

/-- The number of a link, its position among the links of the topology. -/
abbrev LinkId := Nat

/-- What is wrong with a configuration. -/
inductive SettingsFault where
  /-- There is no such file. -/
  | unreadable
  /-- The text is not a configuration. -/
  | malformed
  /-- A time interval is negative. -/
  | negativeInterval
deriving DecidableEq

/-- A precondition that was not kept. -/
inductive Breach where
  /-- A node or link number beyond the end, or a choice among no candidates. -/
  | outOfRange
  /-- A fat-tree whose arity is not a positive even number. -/
  | oddArity (k : Nat)
  /-- A path of fewer than two nodes. -/
  | shortPath
  /-- The next completion was asked for while no channel is live. -/
  | noLiveChannels
deriving DecidableEq

/-- Why an operation was refused. -/
inductive Fault (R : Type) where
  | unknownNode (id : NodeId)
  | duplicateNode (name : String)
  | unknownNodeType (name : String)
  | duplicateLink (a b : NodeId)
  | selfLink (id : NodeId)
  | invalidBandwidth (value : R)
  | invalidPacketSize (value : R)
  | noRoute (here dst : NodeId)
  | routingLoop (node : NodeId) (key : FlowKey)
  | noPath (node : NodeId) (key : FlowKey)
  | unknownVm (id : VmId)
  | unknownFlow (id : FlowId)
  | vmNotPlaced (id : VmId)
  | notAHost (id : NodeId)
  | settings (reason : SettingsFault)
  | breach (b : Breach)
deriving DecidableEq

namespace Fault

def flowText (k : FlowKey) : String :=
  s!"flow ({k.src} -> {k.dst}, {k.flow})"

def settingsText : SettingsFault → String
  | .unreadable => "can't read file"
  | .malformed => "can't parse YAML"
  | .negativeInterval => "time intervals must be non-negative"

/-- The message of a breach, where it has one. -/
def breachText? : Breach → Option String
  | .outOfRange => none
  | .oddArity k => some s!"Fat-tree arity must be even, got {k}"
  | .shortPath => some "Path must contain at least two nodes"
  | .noLiveChannels => some "Next finish time is requested with no live channels"

/-- The message of a fault, given how quantities are written. -/
def message {R : Type} (write : R → String) : Fault R → String
  | unknownNode id => s!"unknown node {id}"
  | duplicateNode name => s!"node with name {name} already exists"
  | unknownNodeType name => s!"unknown node type {name}, cannot resolve its rank"
  | duplicateLink a b => s!"link between nodes {a} and {b} already exists"
  | selfLink id => s!"cannot link node {id} to itself"
  | invalidBandwidth v => "invalid bandwidth " ++ write v
  | invalidPacketSize v => "invalid packet size " ++ write v
  | noRoute here dst => s!"no route from node {here} to host {dst}"
  | routingLoop node key => s!"routing loop at node {node} for " ++ flowText key
  | noPath node key => s!"no forwarding entry at node {node} for " ++ flowText key
  | unknownVm id => s!"unknown vm {id}"
  | unknownFlow id => s!"unknown flow {id}"
  | vmNotPlaced id => s!"vm {id} is not placed on any host"
  | notAHost id => s!"node {id} is not a host"
  | settings reason => "invalid config: " ++ settingsText reason
  | breach b => (breachText? b).getD ""

/-- Whether the work cannot go on after the fault. -/
def isBreach {R : Type} : Fault R → Bool
  | breach _ => true
  | _ => false

end Fault

end FlowFabric
