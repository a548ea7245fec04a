import FlowFabric.Proofs.DataPlane.Settling
import FlowFabric.Proofs.Network.Entries

namespace FlowFabric

variable {R : Type}

namespace Network

/-- The second network is the first one under another load. -/
def Reloads (net net' : Network R) : Prop := net' = { net with load := net'.load }

namespace Reloads

variable {net net' net'' : Network R}

theorem refl (net : Network R) : Reloads net net := rfl

theorem trans (h : Reloads net net') (h' : Reloads net' net'') : Reloads net net'' := by
  unfold Reloads at h h' ⊢
  rw [h', h]

theorem topology (h : Reloads net net') : net'.topology = net.topology := by
  rw [h]

theorem routes (h : Reloads net net') : net'.routes = net.routes := by
  rw [h]

theorem forwarding (h : Reloads net net') : net'.forwarding = net.forwarding := by
  rw [h]

theorem next? (h : Reloads net net') (n : NodeId) (key : FlowKey) :
    net'.next? n key = net.next? n key := by
  unfold Network.next?
  rw [h.forwarding]

end Reloads

/-- The second network is the first one under other load and with other entries. -/
def SameFabric (net net' : Network R) : Prop :=
  net' = { net with load := net'.load, forwarding := net'.forwarding }

namespace SameFabric

variable {net net' net'' : Network R}

theorem refl (net : Network R) : SameFabric net net := rfl

theorem trans (h : SameFabric net net') (h' : SameFabric net' net'') : SameFabric net net'' := by
  unfold SameFabric at h h' ⊢
  rw [h', h]

theorem topology (h : SameFabric net net') : net'.topology = net.topology := by
  rw [h]

theorem built [Quantity R] (h : SameFabric net net') (hnet : net.Built) : net'.Built := by
  rw [h]
  exact hnet.traffic net'.load net'.forwarding

end SameFabric

theorem Reloads.sameFabric {net net' : Network R} (h : Reloads net net') : SameFabric net net' := by
  unfold SameFabric
  rw [h]

theorem Touches.sameFabric {key : FlowKey} {net net' : Network R} (h : Touches key net net') :
    SameFabric net net' := by
  unfold SameFabric
  rw [h.rest]
  rfl

end Network

variable [Quantity R]

open Network (Reloads SameFabric)

namespace Channel

theorem reloads_setAllocated (c : Channel R) (net : Network R) (bandwidth time : R) :
    Reloads net (c.setAllocated net bandwidth time).2.2 := by
  unfold setAllocated
  split <;> rfl

end Channel

namespace DataPlane

/-- The path of the channel of a flow, if there is one. -/
def path? (dp : DataPlane R) (key : FlowKey) : Option Path := (dp.channel? key).map Channel.path

/-- Channels have not come or gone or moved,
and the load is all that may have changed of the network. -/
structure Stays (dp dp' : DataPlane R) : Prop where
  network : Reloads dp.network dp'.network
  path : ∀ k, dp'.path? k = dp.path? k

namespace Stays

variable {dp dp' dp'' : DataPlane R}

omit [Quantity R] in
theorem refl (dp : DataPlane R) : Stays dp dp := ⟨.refl _, fun _ => rfl⟩

omit [Quantity R] in
theorem trans (h : Stays dp dp') (h' : Stays dp' dp'') : Stays dp dp'' :=
  ⟨h.network.trans h'.network, fun k => (h'.path k).trans (h.path k)⟩

end Stays

variable {dp : DataPlane R}

omit [Quantity R] in
theorem path?_eq_some_iff {k : FlowKey} {p : Path} :
    dp.path? k = some p ↔ ∃ c, dp.channel? k = some c ∧ c.path = p :=
  Option.map_eq_some_iff

omit [Quantity R] in
theorem path?_replace (dp : DataPlane R) (c : Channel R) (net : Network R) (k : FlowKey) :
    (dp.replace c net).path? k = if k = c.key then some c.path else dp.path? k := by
  unfold path?
  rw [channel?_replace]
  split <;> rfl

omit [Quantity R] in
theorem stays_replace {c : Channel R} {key : FlowKey} (hc : dp.channel? key = some c)
    {c' : Channel R} {net : Network R} (hkey : c'.key = key) (hpath : c'.path = c.path)
    (hnet : Reloads dp.network net) : Stays dp (dp.replace c' net) := by
  refine ⟨hnet, fun k => ?_⟩
  rw [path?_replace, hkey]
  split
  · rename_i hk
    unfold path?
    rw [hk, hc, hpath]
    rfl
  · rfl

namespace Registered

theorem stays_adjust (h : dp.Registered) (key : FlowKey) (time : R) :
    Stays dp (dp.adjust key time).2 := by
  cases hc : dp.channel? key with
  | none =>
    rw [adjust_of_none hc]
    exact .refl dp
  | some c =>
    obtain ⟨hkey, hpath, _⟩ := Channel.setAllocated_same c dp.network (c.target dp.network) time
    rw [adjust_of_some hc]
    exact stays_replace hc (hkey.trans (h.key key c hc)) hpath
      (Channel.reloads_setAllocated c dp.network _ time)

theorem stays_settle (h : dp.Registered) (time : R) : Stays dp (dp.settle time).2 := by
  have heach (keys : List FlowKey) {dp : DataPlane R} (h : dp.Registered) :
      Stays dp (DataPlane.adjustEach time keys dp).2 := by
    induction keys generalizing dp with
    | nil => exact .refl dp
    | cons key rest ih => exact (h.stays_adjust key time).trans (ih (h.adjust key time))
  exact heach dp.settlingOrder h

theorem stays_send (h : dp.Registered) (key : FlowKey) (t : Transmission R) (time : R) :
    Stays dp (dp.send key t time).2 := by
  unfold DataPlane.send
  cases hc : dp.channel? key with
  | none => exact .refl dp
  | some c => exact stays_replace hc (h.key key c hc) rfl (.refl _)

theorem stays_setRequested (h : dp.Registered) (key : FlowKey) (requested time : R) :
    Stays dp (dp.setRequested key requested time).2 := by
  unfold DataPlane.setRequested
  cases hc : dp.channel? key with
  | none => exact .refl dp
  | some c =>
    have hnew := h.replace (Channel.enters_setRequested (h.enters hc) requested)
    have hstays : Stays dp (dp.replace (c.setRequested dp.network requested).1
        (c.setRequested dp.network requested).2) :=
      stays_replace hc (h.key key c hc) rfl rfl
    exact hstays.trans (hnew.stays_settle time)

/-- A channel that is moved runs over its new path, and the others stay where they are. -/
theorem moves_reroute (h : dp.Registered) (key : FlowKey) (path : Path) (time : R) :
    Reloads dp.network (dp.reroute key path time).2.network ∧
      ∀ k, (dp.reroute key path time).2.path? k =
        if k = key then (dp.path? key).map fun _ => path else dp.path? k := by
  unfold DataPlane.reroute
  cases hc : dp.channel? key with
  | none =>
    refine ⟨.refl _, fun k => ?_⟩
    by_cases hk : k = key
    · unfold path?
      rw [if_pos hk, hk, hc]
      rfl
    · rw [if_neg hk]
  | some c =>
    have hnew := h.replace (Channel.enters_reroute (h.enters hc) path time)
    obtain ⟨hnet, hpath⟩ := hnew.stays_settle time
    have hreloads : Reloads dp.network (c.reroute dp.network path time).2 := rfl
    refine ⟨hreloads.trans hnet, fun k => (hpath k).trans ?_⟩
    rw [path?_replace]
    have hkey : (c.reroute dp.network path time).1.key = key := h.key key c hc
    rw [hkey]
    split
    · unfold path?
      rw [hc]
      rfl
    · rfl

/-- A channel that is added runs over its path, and the others stay where they are. -/
theorem moves_add (h : dp.Registered) {c : Channel R} (hb : c.queue.bandwidth = c.allocated)
    (time : R) : Reloads dp.network (dp.add c time).network ∧
      ∀ k, (dp.add c time).path? k = if k = c.key then some c.path else dp.path? k := by
  rw [add_eq]
  obtain ⟨hnet, hpath⟩ := (h.replace (h.enters_add hb)).stays_settle time
  have hunregistered : Reloads dp.network (dp.unregister c.key).network := by
    unfold DataPlane.unregister
    split <;> rfl
  have hreloads : Reloads dp.network (c.register (dp.unregister c.key).network).2 :=
    hunregistered.trans rfl
  refine ⟨hreloads.trans hnet, fun k => (hpath k).trans ?_⟩
  exact path?_replace dp _ _ k

end Registered

omit [Quantity R] in
theorem moves_discardAll (keys : List FlowKey) (dp : DataPlane R) :
    Reloads dp.network (keys.foldl discard dp).network ∧
      ∀ k, (keys.foldl discard dp).path? k = if k ∈ keys then none else dp.path? k := by
  induction keys generalizing dp with
  | nil => exact ⟨.refl _, fun k => rfl⟩
  | cons key rest ih =>
    obtain ⟨hnet, hpath⟩ := ih (dp.discard key)
    have hreloads : Reloads dp.network (dp.discard key).network := by
      unfold discard unregister
      dsimp only
      split <;> rfl
    refine ⟨hreloads.trans hnet, fun k => (hpath k).trans ?_⟩
    unfold path?
    rw [channel?_discard]
    by_cases hk : k = key <;> by_cases hr : k ∈ rest <;> simp [hk, hr]

/-- A lane knows the channels whose paths take it. -/
theorem Registered.mem_lane (h : dp.Registered) (lane : Lane) (key : FlowKey) :
    key ∈ (dp.network.shares lane).keys ↔ ∃ p, dp.path? key = some p ∧ lane ∈ p.lanes := by
  rw [h.mirrored.keys lane key]
  constructor
  · rintro ⟨c, hc, hlane⟩
    exact ⟨c.path, path?_eq_some_iff.mpr ⟨c, hc, rfl⟩, hlane⟩
  · rintro ⟨p, hp, hlane⟩
    obtain ⟨c, hc, rfl⟩ := path?_eq_some_iff.mp hp
    exact ⟨c, hc, hlane⟩

/-- Channels without transmissions are removed, and the others stay where they are. -/
theorem moves_advance (h : dp.Registered) (time : R) :
    Reloads dp.network (dp.advance time).2.network ∧
      ∀ k, (dp.advance time).2.path? k = if k ∈ dp.idle time then none else dp.path? k := by
  have hflush (k : FlowKey) : (dp.flush time).path? k = dp.path? k := by
    unfold path? flush
    rw [channel?_mapQueues, Option.map_map]
    rfl
  have hflushed : (dp.flush time).Registered := h.mapQueues fun q => Queue.bandwidth_advance q time
  rw [advance_eq]
  split
  · rename_i hidle
    rw [List.isEmpty_iff.mp hidle]
    exact ⟨.refl _, fun k => (hflush k).trans (if_neg List.not_mem_nil).symm⟩
  · obtain ⟨hnet, hpath⟩ := moves_discardAll (dp.idle time) (dp.flush time)
    obtain ⟨hnet', hpath'⟩ := (hflushed.discardAll (dp.idle time)).stays_settle time
    have hreloads : Reloads dp.network (dp.flush time).network := .refl _
    refine ⟨(hreloads.trans hnet).trans hnet', fun k => (hpath' k).trans ((hpath k).trans ?_)⟩
    rw [hflush]

/-- Whatever is done to a plane, its nodes, links and routing tables stay what they are. -/
theorem Registered.sameFabric_perform (h : dp.Registered) (time : R) (op : Operation R) :
    SameFabric dp.network (dp.perform time op).network := by
  cases op with
  | add key path requested discipline timeout =>
    exact (h.moves_add (c := Channel.create key path requested discipline timeout) rfl
      time).1.sameFabric
  | remove key =>
    show SameFabric dp.network (dp.remove key time).2.network
    unfold DataPlane.remove
    split
    · exact .refl _
    · have hdiscarded := (moves_discardAll [key] dp).1
      have hsettled := ((h.discard key).stays_settle time).network
      exact (hdiscarded.trans hsettled).sameFabric
  | settle => exact (h.stays_settle time).network.sameFabric
  | send key t => exact (h.stays_send key t time).network.sameFabric
  | advance => exact (moves_advance h time).1.sameFabric
  | setRequested key requested =>
    exact (h.stays_setRequested key requested time).network.sameFabric
  | reroute key path => exact (h.moves_reroute key path time).1.sameFabric
  | forward entries => exact rfl

theorem Registered.sameFabric_run (h : dp.Registered) (ops : List (R × Operation R)) :
    SameFabric dp.network (dp.run ops).network := by
  have hall := run_induction (C := fun _ => True)
    (P := fun dp' => dp'.Registered ∧ SameFabric dp.network dp'.network)
    (fun dp' time op _ h' => ⟨h'.1.perform time op, h'.2.trans (h'.1.sameFabric_perform time op)⟩)
    ops (fun _ _ => trivial) ⟨h, .refl _⟩
  exact hall.2

end DataPlane

end FlowFabric
