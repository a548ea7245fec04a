import FlowFabric.Fault
import FlowFabric.Network.Selection
import FlowFabric.Queue

namespace FlowFabric

/-- How the network is run. -/
structure Settings (R : Type) where
  /-- The least time between two evaluations of the channels. -/
  minInterval : R
  /-- The time between two samplings of the traffic, zero for none. -/
  monitoringInterval : R
  /-- Whether the path of a flow is adapted when its channel is opened or changes bandwidth. -/
  dynamicRouting : Bool
  discipline : Discipline
  selection : SelectionRule
  /-- The timeout of packets that bring none. -/
  timeout : Option R
  fabric : FabricKind

namespace Settings

variable {R : Type} [Quantity R]

/-- The settings where nothing is said. -/
def default : Settings R where
  minInterval := 0.001
  monitoringInterval := 0
  dynamicRouting := false
  discipline := .timeShared
  selection := .destinationAddress
  timeout := none
  fabric := .fatTree

/-- Succeeds if no interval is negative. -/
def check (s : Settings R) : Except SettingsFault (Settings R) :=
  if s.minInterval < 0 ∨ s.monitoringInterval < 0 then .error .negativeInterval else .ok s

end Settings

def Discipline.ofName? : String → Option Discipline
  | "time-shared" => some timeShared
  | "space-shared" => some spaceShared
  | _ => none

def SelectionRule.ofName? : String → Option SelectionRule
  | "first" => some first
  | "destination-address" => some destinationAddress
  | "bandwidth-allocation" => some bandwidthAllocation
  | _ => none

def FabricKind.ofName? : String → Option FabricKind
  | "tree" => some tree
  | "fat-tree" => some fatTree
  | "inter-cloud" => some interCloud
  | _ => none

end FlowFabric
