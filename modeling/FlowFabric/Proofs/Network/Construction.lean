import FlowFabric.Network.Basic
import FlowFabric.Proofs.Topology.Catalogue
import FlowFabric.Proofs.Topology.Plans

namespace FlowFabric

variable {R : Type} [Quantity R]

namespace Topology

/-- Something is added with every piece. -/
theorem Piece.sizes_push (t : Topology R) (piece : Piece R) :
    ((piece.push t).nodes.size == t.nodes.size && (piece.push t).links.size == t.links.size) =
      false := by
  cases piece with
  | node name kind bandwidth =>
    have hsize : (t.pushNode name kind bandwidth).nodes.size ≠ t.nodes.size := by
      rw [size_pushNode]
      exact Nat.succ_ne_self _
    simp [Piece.push, hsize]
  | link a b latency forward backward => simp [Piece.push, pushLink]

end Topology

namespace Network

open FlowFabric.Topology (Call Piece)

/-- Makes a call on a network. -/
def construct (net : Network R) (call : Call R) : Except (Fault R) Nat × Network R :=
  net.extend call.apply

/-- Makes one call after the other, those that fail included. -/
def constructAll (net : Network R) (calls : List (Call R)) : Network R :=
  calls.foldl (fun net call => (net.construct call).2) net

variable {net : Network R} {call : Call R}

omit [Quantity R] in
/-- Where a change fails before it has changed anything, the tables stay up to date if they were. -/
theorem extend_of_fault {α : Type} {change : LayoutM R α} (h : change.Cautious net.topology)
    {e : Fault R} (he : (net.extend change).1 = .error e) : (net.extend change).2 = net := by
  have hrun : change.run.run net.topology = (.error e, net.topology) :=
    Prod.ext he (h e _ (Prod.ext he rfl))
  unfold extend
  rw [hrun]
  simp

theorem construct_of_ok {id : Nat} (h : (net.construct call).1 = .ok id) :
    ∃ piece, call.piece? net.topology = some piece ∧ piece.Fits net.topology ∧
      id = piece.number net.topology ∧
      (net.construct call).2 =
        { net with topology := piece.push net.topology, routed := false } := by
  obtain ⟨piece, hpiece, hfits, hid, hpush⟩ := Call.apply_ok (Prod.ext h rfl)
  have hrun : call.apply.run.run net.topology = (.ok id, piece.push net.topology) :=
    Prod.ext h hpush
  refine ⟨piece, hpiece, hfits, hid, ?_⟩
  unfold construct extend
  rw [hrun]
  dsimp only
  rw [piece.sizes_push, Bool.and_false]

/-- A call changes the topology by one successful step or not at all. -/
theorem grows_construct (net : Network R) (call : Call R) :
    net.topology.Grows (net.construct call).2.topology := by
  cases h : (net.construct call).1 with
  | error e =>
    have hsame : (net.construct call).2 = net := extend_of_fault (call.cautious net.topology) h
    rw [hsame]
  | ok id => exact .single (Call.step (Prod.ext h rfl))

theorem grows_constructAll (net : Network R) (calls : List (Call R)) :
    net.topology.Grows (net.constructAll calls).topology := by
  induction calls generalizing net with
  | nil => exact .refl
  | cons call rest ih => exact (grows_construct net call).trans (ih (net.construct call).2)

/-- What a call has added is under the number that it returned, whatever is added after it. -/
theorem present_construct {id : Nat} (h : (net.construct call).1 = .ok id) (more : List (Call R)) :
    ∃ piece, call.piece? net.topology = some piece ∧ id = piece.number net.topology ∧
      piece.Present ((net.construct call).2.constructAll more).topology id := by
  obtain ⟨piece, hpiece, hfits, rfl, hnew⟩ := construct_of_ok h
  refine ⟨piece, hpiece, rfl, ?_⟩
  rw [hnew]
  exact (grows_constructAll _ more).extends.present (piece.present_push hfits)

theorem catalogue_constructAll {c : Topology.Catalogue R} (hc : c.Faithful)
    (htopology : c.topology = net.topology) (calls : List (Call R)) :
    (calls.foldl Topology.Catalogue.perform c).topology = (net.constructAll calls).topology ∧
      (calls.foldl Topology.Catalogue.perform c).Faithful := by
  induction calls generalizing c net with
  | nil => exact ⟨htopology, hc⟩
  | cons call rest ih =>
    have hmatch := hc.apply call
    refine ih hmatch.faithful (hmatch.topology.trans ?_)
    rw [htopology]
    rfl

/-- After any calls on a new network, failed ones included, the topology is coherent, and so are the
tables of a catalogue of it. A call that returns an error leaves the network as it was, and the
tables of a catalogue. One that succeeds has added what it asks for under the number that it
returns, the next one for nodes or for links. -/
theorem construction_coherent :
    (∀ (kind : FabricKind) (calls : List (Call R)),
      let t := ((empty kind).constructAll calls).topology
      let catalogue := calls.foldl Topology.Catalogue.perform (.empty kind)
      t.Coherent ∧ catalogue.topology = t ∧ catalogue.Faithful) ∧
    (∀ (net : Network R) (call : Call R) (e : Fault R), (net.construct call).1 = .error e →
      (net.construct call).2 = net) ∧
    (∀ (c : Topology.Catalogue R) (call : Call R) (e : Fault R),
      ((Topology.Catalogue.apply call).run.run c).1 = .error e → c.perform call = c) ∧
    ∀ (net : Network R) (call : Call R) (id : Nat), (net.construct call).1 = .ok id →
      (net.construct call).2.routed = false ∧ ∀ more : List (Call R), ∃ piece,
        call.piece? net.topology = some piece ∧ id = piece.number net.topology ∧
          piece.Present ((net.construct call).2.constructAll more).topology id := by
  refine ⟨fun kind calls => ⟨?_, ?_⟩, fun net call e h => ?_, fun c call e h => ?_,
    fun net call id h => ⟨?_, present_construct h⟩⟩
  · exact Topology.Constructed.coherent ⟨kind, grows_constructAll (empty kind) calls⟩
  · exact catalogue_constructAll (Topology.Catalogue.faithful_empty kind) rfl calls
  · exact extend_of_fault (call.cautious net.topology) h
  · exact Topology.Catalogue.cautious_apply c call e _ (Prod.ext h rfl)
  · obtain ⟨_, _, _, _, hnew⟩ := construct_of_ok h
    rw [hnew]

end Network

end FlowFabric
