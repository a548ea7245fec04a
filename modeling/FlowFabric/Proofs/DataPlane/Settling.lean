import FlowFabric.Proofs.DataPlane.Registration

/-! The target of a dedicated channel depends on what is asked of the lanes, that of another one on
this and on what dedicated channels were given. To adjust a channel of the second kind changes
neither. -/

namespace FlowFabric

variable {R : Type} [Quantity R]

namespace Shares

/-- What is asked of a lane, in the order of the channels. -/
def demand (s : Shares R) : List (Bool × R) := s.values.map fun x => (x.dedicated, x.requested)

omit [Quantity R] in
theorem requested_eq_demand (s : Shares R) :
    s.dedicated.map Share.requested = (s.demand.filter Prod.fst).map Prod.snd := by
  unfold demand dedicated
  rw [List.filter_map, List.map_map]
  rfl

omit [Quantity R] in
theorem dedicatedCount_eq_demand (s : Shares R) :
    s.dedicatedCount = (s.demand.filter Prod.fst).length := by
  unfold demand dedicatedCount dedicated
  rw [List.filter_map, List.length_map]
  rfl

omit [Quantity R] in
theorem size_eq_demand (s : Shares R) : s.size = s.demand.length := by
  unfold demand Table.values
  rw [List.length_map, List.length_map]
  rfl

omit [Quantity R] in
theorem values_modify (s : Shares R) (k : FlowKey) (f : Share R → Share R) :
    (s.modify k f).values = s.entries.map fun e => if e.1 = k then f e.2 else e.2 := by
  unfold Table.values
  rw [Table.entries_modify, List.map_map]
  refine List.map_congr_left fun e _ => ?_
  show (if e.1 = k then (e.1, f e.2) else e).2 = _
  split <;> rfl

omit [Quantity R] in
theorem demand_modify {f : Share R → Share R} (hd : ∀ x, (f x).dedicated = x.dedicated)
    (hr : ∀ x, (f x).requested = x.requested) (s : Shares R) (k : FlowKey) :
    demand (s.modify k f) = s.demand := by
  unfold demand
  rw [values_modify, Table.values, List.map_map, List.map_map]
  refine List.map_congr_left fun e _ => ?_
  show ((if e.1 = k then f e.2 else e.2).dedicated, (if e.1 = k then f e.2 else e.2).requested) = _
  split
  · rw [hd, hr]
    rfl
  · rfl

omit [Quantity R] in
/-- A change of a share that is not dedicated leaves the dedicated shares alone. -/
theorem dedicated_modify {f : Share R → Share R} (hf : ∀ x, (f x).dedicated = x.dedicated)
    {s : Shares R} {k : FlowKey} (hk : ∀ x, s.get? k = some x → x.dedicated = false) :
    dedicated (s.modify k f) = s.dedicated := by
  unfold dedicated
  rw [values_modify, Table.values, List.filter_map, List.filter_map]
  have hkeep : ∀ e ∈ s.entries, (if e.1 = k then f e.2 else e.2).dedicated = e.2.dedicated := by
    intro e _
    split
    · exact hf e.2
    · rfl
  have hfilter : s.entries.filter (Share.dedicated ∘ fun e => if e.1 = k then f e.2 else e.2)
      = s.entries.filter (Share.dedicated ∘ Prod.snd) := List.filter_congr hkeep
  rw [hfilter]
  refine List.map_congr_left fun e he => ?_
  obtain ⟨hm, hd⟩ := List.mem_filter.mp he
  -- A share that passes the filter is dedicated, so it is not the one that is changed.
  have hne : e.1 ≠ k := by
    intro hek
    have hget : s.get? k = some e.2 := hek ▸ Table.get?_eq_some_iff.mpr hm
    exact Bool.false_ne_true ((hk e.2 hget).symm.trans hd)
  exact if_neg hne

end Shares

namespace Network

/-- Two networks in which the same is asked of every lane. -/
structure SameDemand (net net' : Network R) : Prop where
  topology : net'.topology = net.topology
  demand : ∀ lane, (net'.shares lane).demand = (net.shares lane).demand

/-- Two networks in which, besides, dedicated channels were given the same. -/
structure SameSupply (net net' : Network R) : Prop extends SameDemand net net' where
  dedicated : ∀ lane, (net'.shares lane).dedicated = (net.shares lane).dedicated

theorem SameDemand.capacity {net net' : Network R} (h : net.SameDemand net') (lane : Lane) :
    net'.capacity lane = net.capacity lane := by
  unfold Network.capacity
  rw [h.topology]

theorem SameDemand.factor {net net' : Network R} (h : net.SameDemand net') (lane : Lane) :
    net'.factor lane = net.factor lane := by
  unfold Network.factor Shares.factor Shares.requestedDedicated
  rw [h.capacity, Shares.requested_eq_demand, Shares.requested_eq_demand, h.demand]

omit [Quantity R] in
theorem SameDemand.dedicatedCount {net net' : Network R} (h : net.SameDemand net') (lane : Lane) :
    (net'.shares lane).dedicatedCount = (net.shares lane).dedicatedCount := by
  rw [Shares.dedicatedCount_eq_demand, Shares.dedicatedCount_eq_demand, h.demand]

theorem SameSupply.perShared {net net' : Network R} (h : net.SameSupply net') (lane : Lane) :
    net'.perShared lane = net.perShared lane := by
  have hcount : (net'.shares lane).sharedCount = (net.shares lane).sharedCount := by
    unfold Shares.sharedCount
    rw [h.dedicatedCount, Shares.size_eq_demand, Shares.size_eq_demand, h.demand]
  unfold Network.perShared Shares.perShared Shares.free Shares.allocatedDedicated
  rw [h.capacity, hcount, h.dedicated]

end Network

namespace Channel

/-- The bandwidth that a channel should have. -/
def target (c : Channel R) (net : Network R) : R :=
  if c.isDedicated then c.dedicatedTarget net else c.sharedTarget net

theorem dedicatedTarget_congr {net net' : Network R} (h : net.SameDemand net') {c c' : Channel R}
    (hpath : c'.path = c.path) (hreq : c'.requested = c.requested) :
    c'.dedicatedTarget net' = c.dedicatedTarget net := by
  have hscale : scale net' c.path.lanes = scale net c.path.lanes := by
    unfold scale
    rw [List.map_congr_left fun lane _ => h.factor lane]
  have hslow : slowest? net' c.path.lanes = slowest? net c.path.lanes := by
    unfold slowest?
    simp only [h.capacity]
  have hequal : equalShare net' = equalShare net := by
    funext lane
    unfold equalShare
    rw [h.capacity, h.dedicatedCount]
  unfold dedicatedTarget
  rw [hpath, hreq, hscale, hslow, hequal]

theorem sharedTarget_congr {net net' : Network R} (h : net.SameSupply net') {c c' : Channel R}
    (hpath : c'.path = c.path) : c'.sharedTarget net' = c.sharedTarget net := by
  unfold sharedTarget
  rw [hpath, List.map_congr_left fun lane _ => h.perShared lane]

theorem shares_setAllocated (c : Channel R) (net : Network R) (bandwidth time : R) (lane : Lane) :
    (c.setAllocated net bandwidth time).2.2.shares lane
      = if c.isSettledAt bandwidth = false ∧ lane ∈ c.path.lanes then
          (net.shares lane).modify c.key fun s => { s with allocated := bandwidth }
        else net.shares lane := by
  unfold setAllocated
  cases c.isSettledAt bandwidth with
  | true => rfl
  | false =>
    have h := Load.shares_adjustAll (f := fun s => { s with allocated := bandwidth }) (fun _ => rfl)
      net.load c.path.lanes c.key lane
    simp only [true_and]
    exact h

theorem sameDemand_setAllocated (c : Channel R) (net : Network R) (bandwidth time : R) :
    net.SameDemand (c.setAllocated net bandwidth time).2.2 := by
  refine ⟨?_, fun lane => ?_⟩
  · unfold setAllocated
    split <;> rfl
  · rw [shares_setAllocated]
    split
    · exact Shares.demand_modify (fun _ => by rfl) (fun _ => by rfl) _ _
    · rfl

theorem Enters.common {c : Channel R} {net : Network R} (h : c.Enters net net)
    (hc : c.isDedicated = false) (lane : Lane) (x : Share R)
    (hx : (net.shares lane).get? c.key = some x) : x.dedicated = false := by
  rw [h.own lane, shareIn] at hx
  split at hx
  · cases hx
    exact hc
  · cases hx

/-- What a channel whose shares are not dedicated is given is no business of dedicated channels. -/
theorem sameSupply_setAllocated {c : Channel R} {net : Network R}
    (hc : ∀ lane x, (net.shares lane).get? c.key = some x → x.dedicated = false)
    (bandwidth time : R) : net.SameSupply (c.setAllocated net bandwidth time).2.2 := by
  refine ⟨sameDemand_setAllocated c net bandwidth time, fun lane => ?_⟩
  rw [shares_setAllocated]
  split
  · exact Shares.dedicated_modify (fun _ => by rfl) (hc lane)
  · rfl

theorem setAllocated_same (c : Channel R) (net : Network R) (bandwidth time : R) :
    (c.setAllocated net bandwidth time).2.1.key = c.key ∧
      (c.setAllocated net bandwidth time).2.1.path = c.path ∧
      (c.setAllocated net bandwidth time).2.1.requested = c.requested := by
  unfold setAllocated
  split <;> exact ⟨rfl, rfl, rfl⟩

/-- The target of a channel is the same after it has been adjusted. -/
theorem target_setAllocated {c : Channel R} {net : Network R} (h : c.Enters net net)
    (bandwidth time : R) :
    (c.setAllocated net bandwidth time).2.1.target (c.setAllocated net bandwidth time).2.2 =
    c.target net := by
  obtain ⟨hkey, hpath, hreq⟩ := setAllocated_same c net bandwidth time
  have hkind : (c.setAllocated net bandwidth time).2.1.isDedicated = c.isDedicated := by
    unfold isDedicated
    rw [hkey]
  unfold target
  rw [hkind]
  -- Nothing that is asked for changes, and what a dedicated channel was given only changes if the
  -- channel itself is dedicated, whose target does not depend on it.
  cases hc : c.isDedicated with
  | true => exact dedicatedTarget_congr (sameDemand_setAllocated c net bandwidth time) hpath hreq
  | false => exact sharedTarget_congr (sameSupply_setAllocated (h.common hc) bandwidth time) hpath

end Channel

/-- A value that a channel which has it need not leave. An undefined value is not one. -/
def Steady (b : R) : Prop := Quantity.abs (b - b) ≤ tolerance * Quantity.max b 1

namespace Channel

/-- After an adjustment to a steady bandwidth there is nothing more to adjust. -/
theorem isSettledAt_setAllocated (c : Channel R) (net : Network R) {bandwidth : R}
    (h : Steady bandwidth) (time : R) :
    (c.setAllocated net bandwidth time).2.1.isSettledAt bandwidth = true := by
  unfold setAllocated
  split
  · assumption
  · exact decide_eq_true h

end Channel

namespace DataPlane

/-- The channel of a flow, if there is one, is within the tolerance of its target. -/
def SettledAt (dp : DataPlane R) (k : FlowKey) : Prop :=
  ∀ c, dp.channel? k = some c → c.isSettledAt (c.target dp.network) = true

theorem adjust_eq_of_none {dp : DataPlane R} {key : FlowKey} (hc : dp.channel? key = none)
    (time : R) : dp.adjust key time = (false, dp) := by
  unfold adjust
  rw [hc]

theorem adjust_eq_of_some {dp : DataPlane R} {key : FlowKey} {c : Channel R}
    (hc : dp.channel? key = some c) (time : R) :
    dp.adjust key time = ((c.setAllocated dp.network (c.target dp.network) time).1,
      dp.replace (c.setAllocated dp.network (c.target dp.network) time).2.1
        (c.setAllocated dp.network (c.target dp.network) time).2.2) := by
  unfold adjust
  rw [hc]
  unfold Channel.target
  dsimp only
  cases c.isDedicated <;> rfl

theorem adjust_of_none {dp : DataPlane R} {key : FlowKey} (hc : dp.channel? key = none) (time : R) :
    (dp.adjust key time).2 = dp := by
  rw [adjust_eq_of_none hc]

theorem adjust_of_some {dp : DataPlane R} {key : FlowKey} {c : Channel R}
    (hc : dp.channel? key = some c) (time : R) :
    (dp.adjust key time).2 = dp.replace (c.setAllocated dp.network (c.target dp.network) time).2.1
    (c.setAllocated dp.network (c.target dp.network) time).2.2 := by
  rw [adjust_eq_of_some hc]

theorem channel?_adjust_of_ne {dp : DataPlane R} (hkeys : ∀ k c, dp.channel? k = some c → c.key = k)
    {k key : FlowKey} (hk : k ≠ key) (time : R) :
    (dp.adjust key time).2.channel? k = dp.channel? k := by
  cases hc : dp.channel? key with
  | none => rw [adjust_of_none hc]
  | some c =>
    have hkey := (Channel.setAllocated_same c dp.network (c.target dp.network) time).1
    rw [adjust_of_some hc]
    apply channel?_replace_of_ne
    rw [hkey, hkeys key c hc]
    exact hk

namespace Registered

variable {dp : DataPlane R}

theorem settledAt_adjust_self (h : dp.Registered) {key : FlowKey}
    (hsteady : ∀ c, dp.channel? key = some c → Steady (c.target dp.network)) (time : R) :
    (dp.adjust key time).2.SettledAt key := by
  cases hc : dp.channel? key with
  | none =>
    rw [adjust_of_none hc]
    intro c hc'
    rw [hc] at hc'
    cases hc'
  | some c =>
    have hkey := (Channel.setAllocated_same c dp.network (c.target dp.network) time).1
    have hself :=
      channel?_replace_self dp (c.setAllocated dp.network (c.target dp.network) time).2.1
      (c.setAllocated dp.network (c.target dp.network) time).2.2
    rw [hkey, h.key key c hc] at hself
    rw [adjust_of_some hc]
    intro d hd
    rw [hself] at hd
    cases hd
    show Channel.isSettledAt _
      (Channel.target _ (c.setAllocated dp.network (c.target dp.network) time).2.2) = true
    rw [Channel.target_setAllocated (h.enters hc)]
    exact Channel.isSettledAt_setAllocated c dp.network (hsteady c hc) time

/-- An adjustment unsettles no dedicated channel,
and that of a channel of a default flow unsettles none. -/
theorem settledAt_adjust_of_ne (h : dp.Registered) {k key : FlowKey} (hk : k ≠ key)
    (hkind : k.isDedicated = true ∨ key.isDedicated = false) (hs : dp.SettledAt k) (time : R) :
    (dp.adjust key time).2.SettledAt k := by
  cases hc : dp.channel? key with
  | none => rwa [adjust_of_none hc]
  | some c =>
    intro d hd
    rw [channel?_adjust_of_ne h.key hk] at hd
    have hsettled := hs d hd
    have hnet : (dp.adjust key time).2.network =
        (c.setAllocated dp.network (c.target dp.network) time).2.2 := by
      rw [adjust_of_some hc]
      rfl
    have htarget : d.target (dp.adjust key time).2.network = d.target dp.network := by
      rw [hnet]
      unfold Channel.target Channel.isDedicated
      rw [h.key k d hd]
      cases hkd : k.isDedicated with
      | true =>
        exact Channel.dedicatedTarget_congr (Channel.sameDemand_setAllocated c _ _ time) rfl rfl
      | false =>
        have hcd : c.isDedicated = false := by
          have hkey : key.isDedicated = false :=
            hkind.resolve_left (by rw [hkd]; exact Bool.false_ne_true)
          unfold Channel.isDedicated
          rwa [h.key key c hc]
        exact Channel.sharedTarget_congr
          (Channel.sameSupply_setAllocated ((h.enters hc).common hcd) _ time) rfl
    rwa [htarget]

end Registered

/-- A condition on data planes that adjusting keeps and under
which every channel has a steady target. -/
structure Steadying (I : DataPlane R → Prop) : Prop where
  registered : ∀ dp, I dp → dp.Registered
  adjust : ∀ dp key time, I dp → I (dp.adjust key time).2
  steady : ∀ dp k c, I dp → dp.channel? k = some c → Steady (c.target dp.network)

namespace Steadying

variable {I : DataPlane R → Prop}

theorem adjustEach (hI : Steadying I) (time : R) (keys : List FlowKey) {dp : DataPlane R}
    (h : I dp) : I (adjustEach time keys dp).2 := by
  induction keys generalizing dp with
  | nil => exact h
  | cons key rest ih => exact ih (hI.adjust dp key time h)

/-- Adjusting channels one after the other settles them,
provided that none of them can unsettle the flows in question. -/
theorem settledAt_adjustEach (hI : Steadying I) (time : R) {keys : List FlowKey} {k : FlowKey}
    (hkind : ∀ key ∈ keys, k.isDedicated = true ∨ key.isDedicated = false) {dp : DataPlane R}
    (h : I dp) (hk : k ∈ keys ∨ dp.SettledAt k) :
    (DataPlane.adjustEach time keys dp).2.SettledAt k := by
  induction keys generalizing dp with
  | nil =>
    rcases hk with hk | hk
    · cases hk
    · exact hk
  | cons key rest ih =>
    have hrest : ∀ key' ∈ rest, k.isDedicated = true ∨ key'.isDedicated = false :=
      fun key' hm => hkind key' (List.mem_cons_of_mem _ hm)
    apply ih hrest (hI.adjust dp key time h)
    -- A flow is settled when its turn comes, and nothing that comes later unsettles it.
    by_cases hkey : k = key
    · subst hkey
      exact Or.inr
        ((hI.registered dp h).settledAt_adjust_self (fun c hc => hI.steady dp k c h hc) time)
    · rcases hk with hk | hk
      · exact Or.inl ((List.mem_cons.mp hk).resolve_left hkey)
      · exact Or.inr
          ((hI.registered dp h).settledAt_adjust_of_ne hkey (hkind key List.mem_cons_self) hk time)

end Steadying

theorem adjustEach_append (time : R) (keys more : List FlowKey) (dp : DataPlane R) :
    (adjustEach time (keys ++ more) dp).2 =
    (adjustEach time more (adjustEach time keys dp).2).2 := by
  induction keys generalizing dp with
  | nil => rfl
  | cons key rest ih => exact ih (dp.adjust key time).2

theorem channel?_adjustEach_eq_none {dp : DataPlane R} (h : dp.Registered) (time : R)
    (keys : List FlowKey) {k : FlowKey} (hk : dp.channel? k = none) :
    (adjustEach time keys dp).2.channel? k = none := by
  induction keys generalizing dp with
  | nil => exact hk
  | cons key rest ih =>
    apply ih (h.adjust key time)
    by_cases hkey : k = key
    · subst hkey
      rwa [adjust_of_none hk]
    · rwa [channel?_adjust_of_ne h.key hkey]

theorem Steadying.settledAt_settle {I : DataPlane R → Prop} (hI : Steadying I) {dp : DataPlane R}
    (h : I dp) (time : R) (k : FlowKey) : (dp.settle time).2.SettledAt k := by
  have hreg := hI.registered dp h
  by_cases hlive : k ∈ dp.channels.keys
  · unfold settle settlingOrder
    rw [adjustEach_append]
    apply hI.settledAt_adjustEach time
    · intro key hkey
      have hshared := (List.mem_filter.mp hkey).2
      exact Or.inr (by simpa using hshared)
    · exact hI.adjustEach time _ h
    -- Dedicated flows were settled by the first pass, the others are by the second one.
    · cases hk : k.isDedicated with
      | true =>
        refine Or.inr (hI.settledAt_adjustEach time (fun _ _ => Or.inl hk) h (Or.inl ?_))
        exact List.mem_filter.mpr ⟨hlive, hk⟩
      | false => exact Or.inl (List.mem_filter.mpr ⟨hlive, by simp [hk]⟩)
  · have hnone : dp.channel? k = none := Table.get?_eq_none_iff.mpr hlive
    intro c hc
    have hgone := channel?_adjustEach_eq_none hreg time dp.settlingOrder hnone
    exact absurd (hc.symm.trans hgone) (by simp)

theorem SettledAt.mapQueues {dp : DataPlane R} {k : FlowKey} (h : dp.SettledAt k)
    (f : Queue R → Queue R) : (dp.mapQueues f).SettledAt k := by
  intro c hc
  obtain ⟨d, hd, rfl⟩ := live_of_mapQueues hc
  exact h d hd

theorem SettledAt.send {dp : DataPlane R} (hreg : dp.Registered) {k : FlowKey} (h : dp.SettledAt k)
    (key : FlowKey) (t : Transmission R) (time : R) : (dp.send key t time).2.SettledAt k := by
  unfold DataPlane.send
  cases hc : dp.channel? key with
  | none => exact h
  | some c =>
    intro d hd
    rcases live_of_replace hd with ⟨hk, rfl⟩ | ⟨_, hd'⟩
    · have hkey : k = key := hk.trans (hreg.key key c hc)
      exact h c (hkey ▸ hc)
    · exact h d hd'

end DataPlane

end FlowFabric
