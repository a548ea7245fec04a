import FlowFabric.Proofs.DataPlane.Registration
import FlowFabric.Proofs.Quantity.Sums
import FlowFabric.Telemetry

namespace FlowFabric

variable {R : Type} [Quantity R]

namespace DataPlane

/-- The states that operations reach from an empty plane, whatever is asked for. A channel that is
added is a new one or one that was removed before, with what it holds. -/
inductive Managed (net : Network R) (discipline : Discipline) (timeout : Option R) :
    DataPlane R → Prop where
  | create : Managed net discipline timeout (create net discipline timeout)
  | perform {dp : DataPlane R} (time : R) (op : Operation R)
      (h : Managed net discipline timeout dp) : Managed net discipline timeout (dp.perform time op)
  | add {dp : DataPlane R} (time : R) {c : Channel R} (hb : c.queue.bandwidth = c.allocated)
      (h : Managed net discipline timeout dp) : Managed net discipline timeout (dp.add c time)

variable {net : Network R} {discipline : Discipline} {timeout : Option R} {dp : DataPlane R}

theorem Managed.run (h : Managed net discipline timeout dp) (ops : List (R × Operation R)) :
    Managed net discipline timeout (dp.run ops) :=
  run_induction (C := fun _ => True) (fun _ time op _ hdp => hdp.perform time op) ops
    (fun _ _ => trivial) h

theorem Managed.registered (hfresh : net.load = Table.empty)
    (h : Managed net discipline timeout dp) : dp.Registered := by
  induction h with
  | create => exact .create hfresh discipline timeout
  | perform time op _ ih => exact ih.perform time op
  | add time hb _ ih => exact ih.add hb time

/-- The live channels whose path takes a lane. -/
def sharers (dp : DataPlane R) (lane : Lane) : List (Channel R) :=
  dp.channels.values.filter fun c => decide (lane ∈ c.path.lanes)

namespace Registered

/-- What a lane keeps are the shares of the channels that take it, if in another order. -/
theorem entries_perm (h : dp.Registered) (lane : Lane) : (dp.network.shares lane).entries.Perm
    ((dp.channels.entries.filter fun e => decide (lane ∈ e.2.path.lanes)).map fun e =>
      (e.1, e.2.share)) := by
  have hkeys : (((dp.channels.entries.filter fun e => decide (lane ∈ e.2.path.lanes)).map
      fun e => (e.1, e.2.share)).map Prod.fst).Nodup := by
    rw [List.map_map]
    exact Table.nodup_filter dp.channels.keys_nodup
  -- Neither list repeats a flow, so it is enough to compare their members.
  refine (List.perm_ext_iff_of_nodup (.of_map _ (dp.network.shares lane).keys_nodup)
    (.of_map _ hkeys)).mpr ?_
  rintro ⟨k, x⟩
  rw [← Table.get?_eq_some_iff, List.mem_map]
  constructor
  · intro hx
    obtain ⟨c, hc, hlane, rfl⟩ := h.share_of_get? hx
    exact ⟨(k, c), List.mem_filter.mpr ⟨Table.get?_eq_some_iff.mp hc, decide_eq_true hlane⟩, rfl⟩
  · rintro ⟨⟨k', c⟩, he, heq⟩
    obtain ⟨rfl, rfl⟩ := Prod.mk.inj heq
    obtain ⟨hmem, hlane⟩ := List.mem_filter.mp he
    have hc : dp.channel? k' = some c := Table.get?_eq_some_iff.mpr hmem
    rw [h.shares lane k', hc]
    exact if_pos (of_decide_eq_true hlane)

theorem values_perm (h : dp.Registered) (lane : Lane) :
    (dp.network.shares lane).values.Perm ((dp.sharers lane).map Channel.share) := by
  have hperm := (h.entries_perm lane).map Prod.snd
  unfold sharers Table.values
  rw [List.filter_map, List.map_map]
  rwa [List.map_map] at hperm

theorem size_eq (h : dp.Registered) (lane : Lane) :
    (dp.network.shares lane).size = (dp.sharers lane).length := by
  have hlength := (h.values_perm lane).length_eq
  rw [List.length_map] at hlength
  exact (List.length_map _).symm.trans hlength

/-- A lane keeps shares as long as a live channel takes it. -/
theorem isEmpty_eq_false_iff (h : dp.Registered) (lane : Lane) :
    (dp.network.shares lane).isEmpty = false ↔ ∃ c ∈ dp.channels.values, lane ∈ c.path.lanes := by
  have hsize : (dp.network.shares lane).entries.length = (dp.sharers lane).length := h.size_eq lane
  unfold Table.isEmpty
  rw [List.isEmpty_eq_false_iff, ← List.length_pos_iff, hsize, List.length_pos_iff_exists_mem]
  simp only [sharers, List.mem_filter, decide_eq_true_eq]

end Registered

end DataPlane

omit [Quantity R] in
theorem Topology.mem_hosts {t : Topology R} {n : NodeId} (h : t.isHost n = true) : n ∈ t.hosts := by
  refine List.mem_filter.mpr ⟨List.mem_range.mpr ?_, h⟩
  by_contra hn
  have hnone : t.node? n = none := Array.getElem?_eq_none (Nat.le_of_not_lt hn)
  unfold isHost at h
  rw [hnone] at h
  cases h

namespace Telemetry

open DataPlane (Registered Managed)

omit [Quantity R] in
theorem mem_lanes {t : Topology R} {lane : Lane} : lane ∈ lanes t ↔ lane.link < t.links.size := by
  simp only [lanes, List.mem_flatMap, List.mem_range, List.mem_cons, List.not_mem_nil, or_false]
  constructor
  · rintro ⟨l, hl, rfl | rfl⟩ <;> exact hl
  · intro hl
    obtain ⟨l, dir⟩ := lane
    cases dir
    · exact ⟨l, hl, Or.inl rfl⟩
    · exact ⟨l, hl, Or.inr rfl⟩

omit [Quantity R] in
theorem nodup_lanes (t : Topology R) : (lanes t).Nodup := by
  have hlink {l : LinkId} {lane : Lane} (h : lane ∈ [⟨l, .up⟩, (⟨l, .down⟩ : Lane)]) :
      lane.link = l := by
    rw [List.mem_cons, List.mem_singleton] at h
    rcases h with rfl | rfl <;> rfl
  refine List.nodup_flatMap.mpr ⟨fun l _ => by simp, List.nodup_range.imp ?_⟩
  intro l l' hne lane hl hl'
  exact hne ((hlink hl).symm.trans (hlink hl'))

/-- The lanes that are sampled are those that keep shares. -/
theorem map_lane_links (net : Network R) (time : R) (l : List Lane) :
    (l.filterMap (linkSample? net time)).map LinkSample.lane =
      l.filter fun lane => !(net.shares lane).isEmpty := by
  induction l with
  | nil => rfl
  | cons lane rest ih =>
    cases hempty : (net.shares lane).isEmpty with
    | true =>
      have hnone : linkSample? net time lane = none := if_pos hempty
      rw [List.filterMap_cons_none hnone, ih, List.filter_cons, hempty]
      rfl
    | false =>
      have hsome : linkSample? net time lane = some ⟨time, lane, (net.shares lane).allocated,
          net.utilization lane, (net.shares lane).size⟩ :=
            if_neg (by rw [hempty]; exact Bool.false_ne_true)
      rw [List.filterMap_cons_some hsome, List.map_cons, ih, List.filter_cons, hempty]
      rfl

section

variable {dp : DataPlane Exact} {net : Network Exact} {time : Exact} {lane : Lane}

/-- What is sampled at one time agrees: both ends of the hosts' traffic are the traffic of the
channels, and a lane is sampled, once, just if a channel takes it, with the bandwidth and the number
of those that do. -/
structure Agrees (dp : DataPlane Exact) (new : Telemetry Exact) : Prop where
  channels : new.channels.map (fun s => (s.key, s.allocated)) =
    dp.channels.entries.map fun e => (e.1, e.2.allocated)
  outgoing : Quantity.sum (new.hosts.map HostSample.outgoing) =
    Quantity.sum (new.channels.map ChannelSample.allocated)
  incoming : Quantity.sum (new.hosts.map HostSample.incoming) =
    Quantity.sum (new.channels.map ChannelSample.allocated)
  sampled : ∀ lane, lane ∈ new.links.map LinkSample.lane ↔
    lane.link < dp.network.topology.links.size ∧ ∃ c ∈ dp.channels.values, lane ∈ c.path.lanes
  once : (new.links.map LinkSample.lane).Nodup
  loads : ∀ s ∈ new.links, s.allocated = Quantity.sum ((dp.sharers s.lane).map Channel.allocated) ∧
    s.channels = (dp.sharers s.lane).length

theorem allocated_eq (h : dp.Registered) (lane : Lane) :
    (dp.network.shares lane).allocated = Quantity.sum
      ((dp.sharers lane).map Channel.allocated) := by
  unfold Shares.allocated
  rw [Exact.sum_perm ((h.values_perm lane).map Share.allocated), List.map_map]
  rfl

theorem load_of_linkSample? (h : dp.Registered) {s : LinkSample Exact}
    (hs : linkSample? dp.network time lane = some s) :
    s.allocated = Quantity.sum ((dp.sharers s.lane).map Channel.allocated) ∧
      s.channels = (dp.sharers s.lane).length := by
  unfold linkSample? at hs
  dsimp only at hs
  split at hs
  · cases hs
  · obtain rfl := Option.some.inj hs
    exact ⟨allocated_eq h lane, h.size_eq lane⟩

/-- The hosts that are left out have no traffic, so that nothing is missing from the sums. -/
theorem sum_hostSamples {channels : List (Channel Exact)}
    (hnonneg : ∀ c ∈ channels, 0 ≤ c.allocated) (time : Exact) (hosts : List NodeId) :
    Quantity.sum ((hosts.filterMap (hostSample? channels time)).map HostSample.outgoing) =
        Quantity.sum (hosts.map fun h => traffic channels fun c => c.source == h) ∧
      Quantity.sum ((hosts.filterMap (hostSample? channels time)).map HostSample.incoming) =
        Quantity.sum (hosts.map fun h => traffic channels fun c => c.destination == h) := by
  have htraffic (p : Channel Exact → Bool) : 0 ≤ traffic channels p := by
    apply Exact.sum_nonneg
    intro a ha
    obtain ⟨c, hc, rfl⟩ := List.mem_map.mp ha
    exact hnonneg c (List.mem_of_mem_filter hc)
  have hsome (h : NodeId) (s : HostSample Exact) (hs : hostSample? channels time h = some s) :
      s.outgoing = traffic channels (fun c => c.source == h) ∧
        s.incoming = traffic channels fun c => c.destination == h := by
    unfold hostSample? at hs
    dsimp only at hs
    split at hs
    · obtain rfl := Option.some.inj hs
      exact ⟨rfl, rfl⟩
    · cases hs
  have hnone (h : NodeId) (hs : hostSample? channels time h = none) :
      traffic channels (fun c => c.source == h) = 0 ∧
        traffic channels (fun c => c.destination == h) = 0 := by
    unfold hostSample? at hs
    dsimp only at hs
    split at hs
    · cases hs
    · rename_i hidle
      obtain ⟨hout, hin⟩ := not_or.mp hidle
      exact ⟨Exact.eq_zero_of_not_pos (htraffic _) hout, Exact.eq_zero_of_not_pos (htraffic _) hin⟩
  exact ⟨Exact.sum_filterMap (fun h s hs => (hsome h s hs).1) fun h hs => (hnone h hs).1,
    Exact.sum_filterMap (fun h s hs => (hsome h s hs).2) fun h hs => (hnone h hs).2⟩

/-- In every state of a plane whose channels run between hosts and have nothing negative, the
samples of one time agree, and they are added to those of earlier times. -/
theorem samples_agree (hfresh : net.load = Table.empty) {discipline : Discipline}
    {timeout : Option Exact} (h : Managed net discipline timeout dp)
    (hhosts : ∀ c ∈ dp.channels.values, dp.network.topology.isHost c.source = true ∧
      dp.network.topology.isHost c.destination = true)
    (hnonneg : ∀ c ∈ dp.channels.values, 0 ≤ c.allocated) (tel : Telemetry Exact) (time : Exact) :
    ∃ new : Telemetry Exact, tel.record dp time =
        ⟨tel.links ++ new.links, tel.channels ++ new.channels, tel.hosts ++ new.hosts⟩ ∧
          Agrees dp new := by
  have hregistered := h.registered hfresh
  let new : Telemetry Exact :=
    ⟨(lanes dp.network.topology).filterMap (linkSample? dp.network time),
      dp.channels.values.map (channelSample time),
      dp.network.topology.hosts.filterMap (hostSample? dp.channels.values time)⟩
  have htotal : new.channels.map ChannelSample.allocated =
      dp.channels.values.map Channel.allocated :=
    List.map_map
  have hlinks : new.links.map LinkSample.lane =
      (lanes dp.network.topology).filter fun lane => !(dp.network.shares lane).isEmpty :=
    map_lane_links dp.network time _
  -- The hosts are gone through once each, and both ends of every channel are among them.
  obtain ⟨hout, hin⟩ := sum_hostSamples hnonneg time dp.network.topology.hosts
  have hnodup : dp.network.topology.hosts.Nodup := List.nodup_range.filter _
  refine ⟨new, rfl, ?_⟩
  exact
    { channels := by
        have hkey : ∀ e ∈ dp.channels.entries, (e.2.key, e.2.allocated) = (e.1, e.2.allocated) :=
          fun e he =>
            congrArg (·, e.2.allocated) (hregistered.key _ _ (Table.get?_eq_some_iff.mpr he))
        rw [← List.map_congr_left hkey]
        show ((dp.channels.entries.map Prod.snd).map _).map _ = _
        rw [List.map_map, List.map_map]
        rfl
      outgoing := by
        rw [htotal]
        exact hout.trans (Exact.sum_groups Channel.allocated Channel.source hnodup fun c hc =>
          Topology.mem_hosts (hhosts c hc).1)
      incoming := by
        rw [htotal]
        exact hin.trans (Exact.sum_groups Channel.allocated Channel.destination hnodup fun c hc =>
          Topology.mem_hosts (hhosts c hc).2)
      sampled lane := by
        rw [hlinks, List.mem_filter, mem_lanes, Bool.not_eq_true', hregistered.isEmpty_eq_false_iff]
      once := by
        rw [hlinks]
        exact (nodup_lanes _).filter _
      loads s hs := by
        obtain ⟨lane, _, hsome⟩ := List.mem_filterMap.mp hs
        exact load_of_linkSample? hregistered hsome }

/-- A flow between the hosts of a rack,
and two inside the first host, one of which has moved there. -/
theorem rack_samples_agree :
    let net : Network Exact := { Network.empty .tree with topology := Topology.rack }
    let across : Path := ⟨0, [⟨⟨2, .up⟩, 2⟩, ⟨⟨3, .down⟩, 1⟩]⟩
    let inside : Path := ⟨0, [⟨⟨0, .up⟩, 0⟩]⟩
    let dp := (DataPlane.create net .timeShared none).run
      [(0, .add ⟨1, 2, 7⟩ across 800 .timeShared none),
        (1, .add ⟨1, 3, 8⟩ inside 300 .timeShared none),
        (2, .add ⟨1, 2, -1⟩ across 0 .timeShared none), (3, .reroute ⟨1, 2, 7⟩ inside)]
    let tel := Telemetry.empty.record dp 4
    net.load = Table.empty ∧ Managed net .timeShared none dp ∧
      (∀ c ∈ dp.channels.values, dp.network.topology.isHost c.source = true ∧
        dp.network.topology.isHost c.destination = true) ∧
      (∀ c ∈ dp.channels.values, 0 ≤ c.allocated) ∧
      ∃ new : Telemetry Exact, tel.record dp 5 =
        ⟨tel.links ++ new.links, tel.channels ++ new.channels, tel.hosts ++ new.hosts⟩ ∧
          Agrees dp new := by
  intro net across inside dp tel
  have hmanaged : Managed net .timeShared none dp := Managed.create.run _
  have hhosts : ∀ c ∈ dp.channels.values, dp.network.topology.isHost c.source = true ∧
      dp.network.topology.isHost c.destination = true := by decide +kernel
  have hnonneg : ∀ c ∈ dp.channels.values, 0 ≤ c.allocated := by decide +kernel
  exact ⟨rfl, hmanaged, hhosts, hnonneg, samples_agree rfl hmanaged hhosts hnonneg tel 5⟩

end

end Telemetry

end FlowFabric
