import FlowFabric.Proofs.DataPlane.Settling
import FlowFabric.Proofs.Queue.Conservation

namespace FlowFabric

variable {R : Type} [Quantity R]

/-- Conditions on the capacities of lanes, on the path and the bandwidths of a channel, and on how
much remains of a transmission of some size. -/
structure Standard (R : Type) where
  capacity : R → Prop
  path : Path → Prop
  requested : R → Prop
  allocated : R → Prop
  remaining : R → R → Prop

/-- A standard for bandwidths only. -/
def Standard.bandwidths (capacity requested allocated : R → Prop) : Standard R where
  capacity := capacity
  path _ := True
  requested := requested
  allocated := allocated
  remaining _ _ := True

/-- The channel is as required. -/
structure Channel.Meets (s : Standard R) (c : Channel R) : Prop where
  path : s.path c.path
  requested : s.requested c.requested
  allocated : s.allocated c.allocated
  remaining : ∀ t ∈ c.queue.inFlight, s.remaining t.size t.remaining

namespace DataPlane

/-- The requested bandwidth that an operation brings, if any, is as required. -/
def Operation.Asks (P : R → Prop) : Operation R → Prop
  | .add _ _ requested _ _ => P requested
  | .setRequested _ requested => P requested
  | _ => True

/-- What an operation brings is as required. -/
def Operation.Brings (s : Standard R) : Operation R → Prop
  | .add _ path requested _ _ => s.path path ∧ s.requested requested
  | .send _ t => s.remaining t.size t.remaining
  | .setRequested _ requested => s.requested requested
  | .reroute _ path => s.path path
  | _ => True

omit [Quantity R] in
theorem Operation.Asks.brings {capacity requested allocated : R → Prop} {op : Operation R}
    (h : op.Asks requested) : op.Brings (.bandwidths capacity requested allocated) := by
  cases op with
  | add => exact ⟨trivial, h⟩
  | setRequested => exact h
  | _ => trivial

/-- Lanes and channels agree, and all is as required. -/
structure Meets (s : Standard R) (dp : DataPlane R) : Prop where
  registered : dp.Registered
  capacity : ∀ lane, s.capacity (dp.network.capacity lane)
  channel : ∀ k c, dp.channel? k = some c → c.Meets s

/-- The plane meets the standard, and every channel is at its target up to the tolerance. -/
structure Rests (s : Standard R) (dp : DataPlane R) : Prop extends Meets s dp where
  settled : ∀ k, dp.SettledAt k

/-- A standard that a new channel meets and that neither adjusting nor progress can break. -/
structure Sustained (s : Standard R) : Prop where
  zero : s.allocated 0
  target : ∀ {dp k c}, Meets s dp → dp.channel? k = some c → s.allocated (c.target dp.network)
  unfinished : ∀ {t : Transmission R}, Queue.isDone t = false → s.remaining t.size t.remaining

/-- A standard under which adjusting comes to an end. -/
structure Attainable (s : Standard R) : Prop extends Sustained s where
  steady : ∀ {dp k c}, Meets s dp → dp.channel? k = some c → Steady (c.target dp.network)

namespace Meets

variable {s : Standard R} {dp : DataPlane R}

theorem create {net : Network R} (hcap : ∀ lane, s.capacity (net.capacity lane))
    (hfresh : net.load = Table.empty) (discipline : Discipline) (timeout : Option R) :
    Meets s (DataPlane.create net discipline timeout) where
  registered := .create hfresh discipline timeout
  capacity := hcap
  channel k c hc := by cases hc

theorem replace (h : Meets s dp) {c : Channel R} {net : Network R} (hc : c.Enters dp.network net)
    (hmeets : c.Meets s) : Meets s (dp.replace c net) := by
  refine ⟨h.registered.replace hc, ?_, ?_⟩
  · intro lane
    show s.capacity (net.topology.capacity lane)
    rw [hc.topology]
    exact h.capacity lane
  · intro k d hd
    rcases live_of_replace hd with ⟨_, rfl⟩ | ⟨_, hd'⟩
    · exact hmeets
    · exact h.channel k d hd'

theorem discard (h : Meets s dp) (key : FlowKey) : Meets s (dp.discard key) where
  registered := h.registered.discard key
  capacity lane := by
    show s.capacity ((dp.discard key).network.topology.capacity lane)
    rw [topology_discard]
    exact h.capacity lane
  channel k c hc := h.channel k c (live_of_discard hc)

theorem discardAll (h : Meets s dp) (keys : List FlowKey) :
    Meets s (keys.foldl DataPlane.discard dp) := by
  induction keys generalizing dp with
  | nil => exact h
  | cons key rest ih => exact ih (h.discard key)

end Meets

/-- After an operation, all channels have been settled on a plane that meets the standard, or the
plane meets the standard and is as settled as it was. -/
inductive Follows (s : Standard R) (dp : DataPlane R) : DataPlane R → Prop where
  | settled {dp' : DataPlane R} (h : Meets s dp') (time : R) : Follows s dp (dp'.settle time).2
  | kept {dp' : DataPlane R} (h : Meets s dp') (hkept : ∀ k, dp.SettledAt k → dp'.SettledAt k) :
    Follows s dp dp'

theorem Follows.same {s : Standard R} {dp : DataPlane R} (h : Meets s dp) : Follows s dp dp :=
  .kept h fun _ hk => hk

namespace Sustained

variable {s : Standard R} (hs : Sustained s) {dp : DataPlane R}

include hs

theorem remaining_advance {q : Queue R} (h : ∀ t ∈ q.inFlight, s.remaining t.size t.remaining)
    (time : R) : ∀ t ∈ (q.advance time).inFlight, s.remaining t.size t.remaining := by
  intro t ht
  rcases Queue.mem_inFlight_advance ht with hold | hleft
  · exact h t hold
  · exact hs.unfinished hleft

theorem flush (h : Meets s dp) (time : R) : Meets s (dp.flush time) := by
  refine ⟨h.registered.mapQueues fun q => Queue.bandwidth_advance q time, h.capacity, ?_⟩
  intro k c hc
  obtain ⟨d, hd, rfl⟩ := live_of_mapQueues hc
  have hmeets := h.channel k d hd
  exact ⟨hmeets.path, hmeets.requested, hmeets.allocated,
    hs.remaining_advance hmeets.remaining time⟩

theorem adjust (h : Meets s dp) (key : FlowKey) (time : R) : Meets s (dp.adjust key time).2 := by
  cases hc : dp.channel? key with
  | none => rwa [adjust_of_none hc]
  | some c =>
    have henters := Channel.enters_setAllocated (h.registered.enters hc) (c.target dp.network) time
    have hmeets := h.channel key c hc
    rw [adjust_of_some hc]
    refine h.replace henters ?_
    unfold Channel.setAllocated
    split
    · exact hmeets
    · exact ⟨hmeets.path, hmeets.requested, hs.target h hc,
        hs.remaining_advance hmeets.remaining time⟩

theorem settle (h : Meets s dp) (time : R) : Meets s (dp.settle time).2 := by
  have heach (keys : List FlowKey) {dp : DataPlane R} (h : Meets s dp) :
      Meets s (adjustEach time keys dp).2 := by
    induction keys generalizing dp with
    | nil => exact h
    | cons key rest ih => exact ih (hs.adjust h key time)
  exact heach dp.settlingOrder h

omit hs in
theorem replaced (h : Meets s dp) {c : Channel R} (hb : c.queue.bandwidth = c.allocated)
    (hmeets : c.Meets s) : Meets s (dp.replace (c.register (dp.unregister c.key).network).1
      (c.register (dp.unregister c.key).network).2) :=
  h.replace (h.registered.enters_add hb)
    ⟨hmeets.path, hmeets.requested, hmeets.allocated, hmeets.remaining⟩

theorem perform_follows (h : Meets s dp) (time : R) {op : Operation R} (hop : op.Brings s) :
    Follows s dp (dp.perform time op) := by
  cases op with
  | add key path requested discipline timeout =>
    let c : Channel R := Channel.create key path requested discipline timeout
    have hmeets : c.Meets s := ⟨hop.1, hop.2, hs.zero, fun t ht => by cases ht⟩
    show Follows s dp (dp.add c time)
    rw [add_eq]
    exact .settled (replaced h rfl hmeets) time
  | remove key =>
    show Follows s dp (dp.remove key time).2
    unfold DataPlane.remove
    split
    · exact .same h
    · exact .settled (h.discard key) time
  | settle => exact .settled h time
  | send key t =>
    -- A packet changes no allocation, so channels at their targets stay there.
    refine .kept ?_ fun k hk => hk.send h.registered key t time
    show Meets s (dp.send key t time).2
    unfold DataPlane.send
    cases hc : dp.channel? key with
    | none => exact h
    | some c =>
      have hmeets := h.channel key c hc
      refine h.replace (Channel.enters_send (h.registered.enters hc) t time) ?_
      refine ⟨hmeets.path, hmeets.requested, hmeets.allocated, ?_⟩
      intro t' ht'
      rcases List.mem_append.mp ht' with hold | hnew
      · exact hs.remaining_advance hmeets.remaining time t' hold
      · rw [List.mem_singleton.mp hnew]
        exact hop
  | advance =>
    have hflush := hs.flush h time
    -- Allocations are looked at again only if a channel has become empty.
    show Follows s dp (dp.advance time).2
    rw [advance_eq]
    split
    · exact .kept hflush fun k hk => hk.mapQueues _
    · exact .settled (hflush.discardAll _) time
  | setRequested key requested =>
    show Follows s dp (dp.setRequested key requested time).2
    unfold DataPlane.setRequested
    cases hc : dp.channel? key with
    | none => exact .same h
    | some c =>
      have hmeets := h.channel key c hc
      have henters := Channel.enters_setRequested (h.registered.enters hc) requested
      have hnew := h.replace henters ⟨hmeets.path, hop, hmeets.allocated, hmeets.remaining⟩
      exact .settled hnew time
  | reroute key path =>
    show Follows s dp (dp.reroute key path time).2
    unfold DataPlane.reroute
    cases hc : dp.channel? key with
    | none => exact .same h
    | some c =>
      have hmeets := h.channel key c hc
      have henters := Channel.enters_reroute (h.registered.enters hc) path time
      have hnew := h.replace henters ⟨hop, hmeets.requested, hmeets.allocated,
        hs.remaining_advance hmeets.remaining time⟩
      exact .settled hnew time
  | forward entries =>
    have hreg := h.registered.perform time (.forward entries)
    exact .kept ⟨hreg, h.capacity, h.channel⟩ fun _ hk => hk

theorem perform (h : Meets s dp) (time : R) {op : Operation R} (hop : op.Brings s) :
    Meets s (dp.perform time op) := by
  have hfollows := hs.perform_follows h time hop
  generalize dp.perform time op = dp' at hfollows
  cases hfollows with
  | settled hnew time => exact hs.settle hnew time
  | kept hmeets _ => exact hmeets

end Sustained

theorem Rests.create {s : Standard R} {net : Network R}
    (hcap : ∀ lane, s.capacity (net.capacity lane)) (hfresh : net.load = Table.empty)
    (discipline : Discipline) (timeout : Option R) :
    Rests s (DataPlane.create net discipline timeout) :=
  ⟨.create hcap hfresh discipline timeout, fun k c hc => by cases hc⟩

namespace Attainable

variable {s : Standard R} (hs : Attainable s) {dp : DataPlane R}

include hs

theorem steadying : Steadying (Meets s) where
  registered _ h := h.registered
  adjust _ key time h := hs.adjust h key time
  steady _ _ _ h hc := hs.steady h hc

theorem settle (h : Meets s dp) (time : R) : Rests s (dp.settle time).2 :=
  ⟨hs.toSustained.settle h time, hs.steadying.settledAt_settle h time⟩

theorem add (h : Rests s dp) {c : Channel R} (hb : c.queue.bandwidth = c.allocated)
    (hmeets : c.Meets s) (time : R) : Rests s (dp.add c time) := by
  rw [add_eq]
  exact hs.settle (Sustained.replaced h.toMeets hb hmeets) time

theorem perform (h : Rests s dp) (time : R) {op : Operation R} (hop : op.Brings s) :
    Rests s (dp.perform time op) := by
  have hfollows := hs.perform_follows h.toMeets time hop
  generalize dp.perform time op = dp' at hfollows
  cases hfollows with
  | settled hnew time => exact hs.settle hnew time
  | kept hmeets hsettled => exact ⟨hmeets, fun k => hsettled k (h.settled k)⟩

end Attainable

end DataPlane

end FlowFabric
