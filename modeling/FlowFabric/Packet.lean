import FlowFabric.FlowKey
import FlowFabric.Quantity.Basic

namespace FlowFabric

/-- A part of the surrounding program that events can be meant for. -/
abbrev ComponentId := Nat

/-- One layer of addressing. -/
structure Header where
  id : Nat
  src : VmId
  dst : VmId
  flow : FlowId
deriving DecidableEq

/-- Data in transit between two machines. -/
structure Packet (R : Type) where
  header : Header
  /-- The headers that the outer one covers, from the outside in. -/
  covered : List Header
  size : R
  /-- The time after which the transmission is given up. -/
  timeout : Option R
  /-- Who is told what has become of the packet. -/
  notify : ComponentId

namespace Packet

variable {R : Type}

/-- The flow that the outer header belongs to. -/
def key (p : Packet R) : FlowKey := ⟨p.header.src, p.header.dst, p.header.flow⟩

def encapsulate (p : Packet R) (h : Header) : Packet R :=
  { p with header := h, covered := p.header :: p.covered }

/-- The packet below the outer header. -/
def inner? (p : Packet R) : Option (Packet R) :=
  match p.covered with
  | [] => none
  | h :: rest => some { p with header := h, covered := rest }

/-- The packet as it was before any encapsulation. -/
def innermost (p : Packet R) : Packet R :=
  { p with header := p.covered.getLastD p.header, covered := [] }

end Packet

/-- The progress of a packet over a channel. -/
structure Transmission (R : Type) where
  packet : Packet R
  remaining : R
  start : R
  /-- When the transmission completed or failed. -/
  finish : Option R
  timeout : Option R

namespace Transmission

variable {R : Type} [Quantity R]

/-- A transmission of which nothing has been sent yet. -/
def ofPacket (p : Packet R) (start : R) : Transmission R where
  packet := p
  remaining := p.size
  start := start
  finish := none
  timeout := p.timeout

def size (t : Transmission R) : R := t.packet.size

/-- The amount of data sent so far. -/
def sent (t : Transmission R) : R := t.packet.size - t.remaining

/-- The time after which the transmission fails. -/
def deadline (t : Transmission R) : R :=
  match t.timeout with
  | some limit => t.start + limit
  | none => Quantity.infinity

end Transmission

end FlowFabric
