import FlowFabric.Fault
import FlowFabric.Table

namespace FlowFabric

structure Vm where
  id : VmId
  name : String
  datacenter : Option String

/-- A virtual link from one machine to another. -/
structure Flow (R : Type) where
  id : FlowId
  name : String
  src : VmId
  dst : VmId
  bandwidth : R
  latency : Option R

namespace Flow

variable {R : Type}

def key (f : Flow R) : FlowKey := ⟨f.src, f.dst, f.id⟩

def isDedicated (f : Flow R) : Bool := f.key.isDedicated

end Flow

/-- The machines that the traffic of a flow has to pass. -/
structure ServiceChain (R : Type) where
  name : String
  src : VmId
  dst : VmId
  flow : FlowId
  stations : List VmId
  expectedTime : Option R

def ServiceChain.key {R : Type} (c : ServiceChain R) : FlowKey := ⟨c.src, c.dst, c.flow⟩

/-- What has been registered. -/
structure Registry (R : Type) where
  vms : Table VmId Vm
  flows : Table FlowId (Flow R)
  flowNames : Table String FlowId
  chains : Table String (ServiceChain R)

namespace Registry

variable {R : Type}

def empty : Registry R := ⟨Table.empty, Table.empty, Table.empty, Table.empty⟩

/-- Registers a machine, in place of one with the same number. -/
def addVm (r : Registry R) (vm : Vm) : Registry R := { r with vms := r.vms.insert vm.id vm }

def removeVm (r : Registry R) (id : VmId) : Option Vm × Registry R :=
  (r.vms.get? id, { r with vms := r.vms.erase id })

def vm? (r : Registry R) (id : VmId) : Option Vm := r.vms.get? id

/-- The first machine with a name. -/
def vmNamed? (r : Registry R) (name : String) : Option Vm :=
  r.vms.values.find? fun vm => vm.name == name

/-- Succeeds for the numbers of registered machines, and names the first other one. -/
def checkVms (r : Registry R) : List VmId → Except (Fault R) Unit
  | [] => .ok ()
  | id :: rest => if r.vms.contains id then checkVms r rest else .error (.unknownVm id)

def flow? (r : Registry R) (id : FlowId) : Option (Flow R) := r.flows.get? id

/-- Takes the name of a registered flow out of the index. -/
def forgetName (r : Registry R) (id : FlowId) : Table String FlowId :=
  match r.flow? id with
  | some f => r.flowNames.erase f.name
  | none => r.flowNames

/-- Registers a flow, in place of one with the same number. -/
def addFlow (r : Registry R) (f : Flow R) : Registry R :=
  { r with flowNames := (r.forgetName f.id).insert f.name f.id, flows := r.flows.insert f.id f }

def removeFlow (r : Registry R) (id : FlowId) : Option (Flow R) × Registry R :=
  (r.flow? id, { r with flowNames := r.forgetName id, flows := r.flows.erase id })

/-- Changes a registered flow and leaves the index of names alone. -/
def modifyFlow (r : Registry R) (id : FlowId) (f : Flow R → Flow R) : Registry R :=
  { r with flows := r.flows.modify id f }

/-- The flow that a name stands for. -/
def flowNamed? (r : Registry R) (name : String) : Option (Flow R) :=
  (r.flowNames.get? name).bind r.flow?

/-- The flows that start or end at a machine. -/
def flowsOf (r : Registry R) (vm : VmId) : List (Flow R) :=
  r.flows.values.filter fun f => f.key.touches vm

/-- Registers a chain, in place of one with the same name. -/
def addChain (r : Registry R) (c : ServiceChain R) : Registry R :=
  { r with chains := r.chains.insert c.name c }

def chain? (r : Registry R) (name : String) : Option (ServiceChain R) := r.chains.get? name

def chainsOf (r : Registry R) (key : FlowKey) : List (ServiceChain R) :=
  r.chains.values.filter fun c => decide (c.key = key)

end Registry

/-- The hosts of the machines that are placed. -/
abbrev Placement := Table VmId NodeId

namespace Placement

def host? (p : Placement) (vm : VmId) : Option NodeId := p.get? vm

/-- Places a machine, or with `none` takes it away. -/
def place (p : Placement) (vm : VmId) : Option NodeId → Placement
  | some host => p.insert vm host
  | none => p.erase vm

/-- The machines on a host in ascending order. -/
def vmsOn (p : Placement) (host : NodeId) : List VmId :=
  ((p.entries.filter fun e => e.2 == host).map Prod.fst).mergeSort (· ≤ ·)

end Placement

end FlowFabric
