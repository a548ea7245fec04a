import FlowFabric.DataPlane
import FlowFabric.Proofs.Queue.Conservation
import FlowFabric.Proofs.Topology.Construction

namespace FlowFabric

variable {R : Type} [Quantity R]

namespace DataPlane

/-- What can be done to a data plane at a time. -/
inductive Operation (R : Type) where
  /-- A new channel is added, in place of a live one of the same flow. -/
  | add (key : FlowKey) (path : Path) (requested : R) (discipline : Discipline) (timeout : Option R)
  | remove (key : FlowKey)
  | settle
  | send (key : FlowKey) (t : Transmission R)
  | advance
  | setRequested (key : FlowKey) (requested : R)
  | reroute (key : FlowKey) (path : Path)
  /-- Forwarding entries are changed, as they are when the path of a channel is sought. -/
  | forward (entries : Forwarding)

/-- Does one thing to a data plane. -/
def perform (dp : DataPlane R) (time : R) : Operation R → DataPlane R
  | .add key path requested discipline timeout =>
    dp.add (Channel.create key path requested discipline timeout) time
  | .remove key => (dp.remove key time).2
  | .settle => (dp.settle time).2
  | .send key t => (dp.send key t time).2
  | .advance => (dp.advance time).2
  | .setRequested key requested => (dp.setRequested key requested time).2
  | .reroute key path => (dp.reroute key path time).2
  | .forward entries => { dp with network := dp.network.withForwarding entries }

def run (dp : DataPlane R) (ops : List (R × Operation R)) : DataPlane R :=
  ops.foldl (fun dp op => dp.perform op.1 op.2) dp

def mapQueues (dp : DataPlane R) (f : Queue R → Queue R) : DataPlane R :=
  { dp with channels := dp.channels.map fun _ c => { c with queue := f c.queue } }

omit [Quantity R] in
@[simp] theorem channel?_mapQueues (dp : DataPlane R) (f : Queue R → Queue R) (k : FlowKey) :
    (dp.mapQueues f).channel? k = (dp.channel? k).map fun c => { c with queue := f c.queue } :=
  Table.get?_map _ _ _

omit [Quantity R] in
theorem live_of_mapQueues {dp : DataPlane R} {f : Queue R → Queue R} {k : FlowKey} {c : Channel R}
    (hc : (dp.mapQueues f).channel? k = some c) :
    ∃ d, dp.channel? k = some d ∧ c = { d with queue := f d.queue } := by
  rw [channel?_mapQueues, Option.map_eq_some_iff] at hc
  obtain ⟨d, hd, hdc⟩ := hc
  exact ⟨d, hd, hdc.symm⟩

/-- The plane with all queues advanced and collected, the empty channels still in it. -/
def flush (dp : DataPlane R) (time : R) : DataPlane R :=
  dp.mapQueues fun q => (q.advance time).collect

/-- The channels that have nothing left in flight once they have been advanced. -/
def idle (dp : DataPlane R) (time : R) : List FlowKey :=
  (harvest (dp.channels.map fun _ c => c.advance time).values).removed

theorem advance_eq (dp : DataPlane R) (time : R) :
    (dp.advance time).2
      = if (dp.idle time).isEmpty then dp.flush time
        else (((dp.idle time).foldl discard (dp.flush time)).settle time).2 := by
  -- Advancing all queues and collecting them all is one change of every queue.
  have hmap : ((dp.channels.map fun _ c => c.advance time).map
        fun _ c => { c with queue := c.queue.collect })
      = dp.channels.map fun _ c => { c with queue := (c.queue.advance time).collect } := by
    ext1
    simp [Table.map, Channel.advance]
  unfold DataPlane.advance flush mapQueues idle
  dsimp only
  rw [hmap]
  split <;> rfl

/-- A property of data planes that every operation keeps is kept by every
run of operations that meet a condition. -/
theorem run_induction {P : DataPlane R → Prop} {C : Operation R → Prop}
    (hstep : ∀ dp time op, C op → P dp → P (dp.perform time op)) (ops : List (R × Operation R))
    (hops : ∀ op ∈ ops, C op.2) {dp : DataPlane R} (h : P dp) : P (dp.run ops) := by
  induction ops generalizing dp with
  | nil => exact h
  | cons op rest ih =>
    have hrest : ∀ op' ∈ rest, C op'.2 := fun op' hm => hops op' (List.mem_cons_of_mem _ hm)
    exact ih hrest (hstep dp op.1 op.2 (hops op List.mem_cons_self) h)

end DataPlane

namespace Channel

def shareIn (c : Channel R) (lane : Lane) : Option (Share R) :=
  if lane ∈ c.path.lanes then some c.share else none

/-- The second network is the first one with the channel on the lanes of its path, and the copies
inside the channel agree with each other. -/
structure Enters (c : Channel R) (net net' : Network R) : Prop where
  topology : net'.topology = net.topology
  own : ∀ lane, (net'.shares lane).get? c.key = c.shareIn lane
  others : ∀ lane k, k ≠ c.key → (net'.shares lane).get? k = (net.shares lane).get? k
  bandwidth : c.queue.bandwidth = c.allocated
  latency : c.latency = Quantity.sum (c.path.links.map net.topology.latency)

theorem shares_register (c : Channel R) (net : Network R) (lane : Lane) :
    (c.register net).2.shares lane
      = if lane ∈ c.path.lanes then (net.shares lane).insert c.key c.share else net.shares lane :=
  Load.shares_enterAll net.load c.path.lanes c.key c.share lane

omit [Quantity R] in
theorem shares_unregister (c : Channel R) (net : Network R) (lane : Lane) :
    (c.unregister net).shares lane
      = if lane ∈ c.path.lanes then (net.shares lane).erase c.key else net.shares lane :=
  Load.shares_leaveAll net.load c.path.lanes c.key lane

omit [Quantity R] in
/-- Once a channel that the lanes know has been taken off its path,
no lane knows it, and no other channel is touched. -/
theorem get?_shares_unregister {c : Channel R} {net : Network R}
    (h : ∀ lane, (net.shares lane).get? c.key = c.shareIn lane) (lane : Lane) (k : FlowKey) :
    ((c.unregister net).shares lane).get? k =
    if k = c.key then none else (net.shares lane).get? k := by
  rw [shares_unregister]
  by_cases hl : lane ∈ c.path.lanes
  · rw [if_pos hl]
    by_cases hk : k = c.key
    · rw [if_pos hk, hk, Table.get?_erase_self]
    · rw [if_neg hk, Table.get?_erase_of_ne _ hk]
  · rw [if_neg hl]
    -- Off its path the channel had no share in the first place.
    by_cases hk : k = c.key
    · rw [if_pos hk, hk, h lane, shareIn, if_neg hl]
    · rw [if_neg hk]

/-- A channel that no lane knows is entered into its lanes and no others. -/
theorem enters_register {c : Channel R} {net : Network R}
    (h : ∀ lane, (net.shares lane).get? c.key = none) (hb : c.queue.bandwidth = c.allocated) :
    (c.register net).1.Enters net (c.register net).2 where
  topology := rfl
  own lane := by
    show ((c.register net).2.shares lane).get? c.key = c.shareIn lane
    rw [shares_register, shareIn]
    split
    · exact Table.get?_insert_self _ _ _
    · exact h lane
  others lane k hk := by
    have hk' : k ≠ c.key := hk
    rw [shares_register]
    split
    · exact Table.get?_insert_of_ne _ hk' _
    · rfl
  bandwidth := hb
  latency := rfl

omit [Quantity R] in
theorem get?_shares_adjustAll {f : Share R → Share R} (hf : ∀ s, f (f s) = f s) {c : Channel R}
    {net : Network R} (h : ∀ lane, (net.shares lane).get? c.key = c.shareIn lane) (lane : Lane)
    (k : FlowKey) :
    ((net.load.adjustAll c.path.lanes c.key f).shares lane).get? k =
    if k = c.key then (c.shareIn lane).map f else (net.shares lane).get? k := by
  rw [Load.shares_adjustAll hf]
  by_cases hl : lane ∈ c.path.lanes
  · rw [if_pos hl]
    by_cases hk : k = c.key
    · rw [if_pos hk, hk, Table.get?_modify_self, ← h lane]
      rfl
    · rw [if_neg hk, Table.get?_modify_of_ne _ hk]
      rfl
  · rw [if_neg hl]
    by_cases hk : k = c.key
    · have hs : c.shareIn lane = none := if_neg hl
      rw [if_pos hk, hk, hs]
      exact (h lane).trans hs
    · rw [if_neg hk]
      rfl

/-- A change of the share that is made in the channel and on its lanes leaves them in agreement. -/
theorem enters_adjustAll {f : Share R → Share R} (hf : ∀ s, f (f s) = f s) {c c' : Channel R}
    {net : Network R} (h : c.Enters net net) (hkey : c'.key = c.key) (hpath : c'.path = c.path)
    (hshare : c'.share = f c.share) (hb : c'.queue.bandwidth = c'.allocated)
    (hlatency : c'.latency = c.latency) :
    c'.Enters net { net with load := net.load.adjustAll c.path.lanes c.key f } := by
  have hget := get?_shares_adjustAll hf h.own
  refine ⟨rfl, ?_, ?_, hb, ?_⟩
  · intro lane
    have hown : c'.shareIn lane = (c.shareIn lane).map f := by
      unfold shareIn
      rw [hpath, hshare]
      split <;> rfl
    rw [hkey, hown]
    exact (hget lane c.key).trans (if_pos rfl)
  · intro lane k hk
    rw [hkey] at hk
    exact (hget lane k).trans (if_neg hk)
  · rw [hlatency, hpath]
    exact h.latency

theorem enters_setAllocated {c : Channel R} {net : Network R} (h : c.Enters net net)
    (bandwidth time : R) :
    (c.setAllocated net bandwidth time).2.1.Enters net (c.setAllocated net bandwidth time).2.2 := by
  unfold setAllocated
  split
  · exact h
  · exact enters_adjustAll (f := fun s => { s with allocated := bandwidth })
      (fun _ => rfl) h rfl rfl rfl rfl rfl

theorem enters_setRequested {c : Channel R} {net : Network R} (h : c.Enters net net)
    (requested : R) :
    (c.setRequested net requested).1.Enters net (c.setRequested net requested).2 :=
  enters_adjustAll (f := fun s => { s with requested }) (fun _ => rfl) h rfl rfl rfl h.bandwidth rfl

theorem enters_send {c : Channel R} {net : Network R} (h : c.Enters net net) (t : Transmission R)
    (time : R) : (c.send t time).Enters net net where
  topology := rfl
  own := h.own
  others := h.others
  bandwidth := by
    show (c.queue.advance time).bandwidth = c.allocated
    rw [Queue.bandwidth_advance, h.bandwidth]
  latency := h.latency

theorem enters_reroute {c : Channel R} {net : Network R} (h : c.Enters net net) (path : Path)
    (time : R) : (c.reroute net path time).1.Enters net (c.reroute net path time).2 := by
  -- The channel leaves all lanes of its old path before it enters those of the new one.
  let moved : Channel R := { c.advance time with path }
  let bare := (c.advance time).unregister net
  have hgone (lane : Lane) (k : FlowKey) :
      (bare.shares lane).get? k = if k = c.key then none else (net.shares lane).get? k :=
    get?_shares_unregister (c := c.advance time) h.own lane k
  have hnone : ∀ lane, (bare.shares lane).get? moved.key = none := fun lane =>
    (hgone lane c.key).trans (if_pos rfl)
  have hb : moved.queue.bandwidth = moved.allocated := by
    show (c.queue.advance time).bandwidth = c.allocated
    rw [Queue.bandwidth_advance, h.bandwidth]
  have hnew := enters_register hnone hb
  refine ⟨hnew.topology, hnew.own, ?_, hnew.bandwidth, hnew.latency⟩
  intro lane k hk
  have hk' : k ≠ c.key := hk
  exact (hnew.others lane k hk).trans ((hgone lane k).trans (if_neg hk'))

end Channel

namespace DataPlane

omit [Quantity R] in
theorem topology_unregister (dp : DataPlane R) (key : FlowKey) :
    (dp.unregister key).network.topology = dp.network.topology := by
  unfold unregister
  split <;> rfl

omit [Quantity R] in
theorem channels_unregister (dp : DataPlane R) (key : FlowKey) :
    (dp.unregister key).channels = dp.channels := by
  unfold unregister
  split <;> rfl

omit [Quantity R] in
theorem topology_discard (dp : DataPlane R) (key : FlowKey) :
    (dp.discard key).network.topology = dp.network.topology :=
  topology_unregister dp key

omit [Quantity R] in
theorem channel?_discard (dp : DataPlane R) (key k : FlowKey) :
    (dp.discard key).channel? k = if k = key then none else dp.channel? k := by
  unfold discard channel?
  dsimp only
  rw [channels_unregister]
  split
  · rename_i hk
    rw [hk, Table.get?_erase_self]
  · rename_i hk
    exact Table.get?_erase_of_ne _ hk

omit [Quantity R] in
theorem live_of_discard {dp : DataPlane R} {key k : FlowKey} {c : Channel R}
    (hc : (dp.discard key).channel? k = some c) : dp.channel? k = some c := by
  rw [channel?_discard] at hc
  split at hc
  · cases hc
  · exact hc

omit [Quantity R] in
theorem channel?_replace_self (dp : DataPlane R) (c : Channel R) (net : Network R) :
    (dp.replace c net).channel? c.key = some c :=
  Table.get?_insert_self _ _ _

omit [Quantity R] in
theorem channel?_replace_of_ne (dp : DataPlane R) {c : Channel R} {k : FlowKey} (h : k ≠ c.key)
    (net : Network R) : (dp.replace c net).channel? k = dp.channel? k :=
  Table.get?_insert_of_ne _ h _

omit [Quantity R] in
theorem channel?_replace (dp : DataPlane R) (c : Channel R) (net : Network R) (k : FlowKey) :
    (dp.replace c net).channel? k = if k = c.key then some c else dp.channel? k := by
  split
  · rename_i hk
    rw [hk, channel?_replace_self]
  · rename_i hk
    exact channel?_replace_of_ne dp hk net

omit [Quantity R] in
theorem live_of_replace {dp : DataPlane R} {c : Channel R} {net : Network R} {k : FlowKey}
    {d : Channel R} (hd : (dp.replace c net).channel? k = some d) :
    (k = c.key ∧ d = c) ∨ (k ≠ c.key ∧ dp.channel? k = some d) := by
  by_cases hk : k = c.key
  · subst hk
    exact Or.inl ⟨rfl, Option.some.inj (hd.symm.trans (channel?_replace_self dp c net))⟩
  · exact Or.inr ⟨hk, (channel?_replace_of_ne dp hk net).symm.trans hd⟩

/-- To add a channel is to put it in place of the one of its flow,
off whose lanes that one was taken, and to settle. -/
theorem add_eq (dp : DataPlane R) (c : Channel R) (time : R) :
    dp.add c time = ((dp.replace (c.register (dp.unregister c.key).network).1
      (c.register (dp.unregister c.key).network).2).settle time).2 := by
  have hplane (c' : Channel R) (net : Network R) :
      (dp.unregister c.key).replace c' net = dp.replace c' net := by
    unfold unregister
    split <;> rfl
  rw [← hplane]
  rfl

/-- The lanes know the live channels and nothing else,
and every copy of a quantity agrees with the channel. -/
structure Registered (dp : DataPlane R) : Prop where
  key : ∀ k c, dp.channel? k = some c → c.key = k
  shares : ∀ lane k, (dp.network.shares lane).get? k = (dp.channel? k).bind fun c => c.shareIn lane
  bandwidth : ∀ k c, dp.channel? k = some c → c.queue.bandwidth = c.allocated
  latency : ∀ k c, dp.channel? k = some c →
    c.latency = Quantity.sum (c.path.links.map dp.network.topology.latency)

namespace Registered

theorem enters {dp : DataPlane R} (h : dp.Registered) {k : FlowKey} {c : Channel R}
    (hc : dp.channel? k = some c) : c.Enters dp.network dp.network where
  topology := rfl
  own lane := by rw [h.key k c hc, h.shares lane k, hc, Option.bind_some]
  others _ _ _ := rfl
  bandwidth := h.bandwidth k c hc
  latency := h.latency k c hc

/-- A share that a lane keeps for a flow is that of its live channel, which takes the lane. -/
theorem share_of_get? {dp : DataPlane R} (h : dp.Registered) {lane : Lane} {k : FlowKey}
    {x : Share R} (hx : (dp.network.shares lane).get? k = some x) :
    ∃ c, dp.channel? k = some c ∧ lane ∈ c.path.lanes ∧ c.share = x := by
  rw [h.shares lane k, Option.bind_eq_some_iff] at hx
  obtain ⟨c, hc, hshare⟩ := hx
  unfold Channel.shareIn at hshare
  split at hshare
  · rename_i hlane
    exact ⟨c, hc, hlane, Option.some.inj hshare⟩
  · cases hshare

theorem share_of_mem {dp : DataPlane R} (h : dp.Registered) {lane : Lane} {x : Share R}
    (hx : x ∈ (dp.network.shares lane).values) :
    ∃ k c, dp.channel? k = some c ∧ lane ∈ c.path.lanes ∧ c.share = x :=
  (Table.exists_of_mem_values hx).imp fun _ hget => h.share_of_get? hget

/-- A channel that is on its lanes can take the place of the channel of its flow. -/
theorem replace {dp : DataPlane R} (h : dp.Registered) {c : Channel R} {net : Network R}
    (hc : c.Enters dp.network net) : (dp.replace c net).Registered := by
  refine ⟨?_, ?_, ?_, ?_⟩
  · intro k d hd
    rcases live_of_replace hd with ⟨hk, rfl⟩ | ⟨_, hd'⟩
    · exact hk.symm
    · exact h.key k d hd'
  · intro lane k
    by_cases hk : k = c.key
    · rw [hk, channel?_replace_self]
      exact hc.own lane
    · rw [channel?_replace_of_ne dp hk]
      exact (hc.others lane k hk).trans (h.shares lane k)
  · intro k d hd
    rcases live_of_replace hd with ⟨_, rfl⟩ | ⟨_, hd'⟩
    · exact hc.bandwidth
    · exact h.bandwidth k d hd'
  · intro k d hd
    have ht : (dp.replace c net).network.topology = dp.network.topology := hc.topology
    rw [ht]
    rcases live_of_replace hd with ⟨_, rfl⟩ | ⟨_, hd'⟩
    · exact hc.latency
    · exact h.latency k d hd'

theorem adjust {dp : DataPlane R} (h : dp.Registered) (key : FlowKey) (time : R) :
    (dp.adjust key time).2.Registered := by
  unfold DataPlane.adjust
  cases hc : dp.channel? key with
  | none => exact h
  | some c =>
    have he := h.enters hc
    dsimp only
    split
    · exact h.replace (Channel.enters_setAllocated he _ time)
    · exact h.replace (Channel.enters_setAllocated he _ time)

theorem adjustEach (time : R) (keys : List FlowKey) {dp : DataPlane R} (h : dp.Registered) :
    (adjustEach time keys dp).2.Registered := by
  induction keys generalizing dp with
  | nil => exact h
  | cons key rest ih => exact ih (h.adjust key time)

theorem settle {dp : DataPlane R} (h : dp.Registered) (time : R) : (dp.settle time).2.Registered :=
  h.adjustEach time dp.settlingOrder

/-- Taking the channel of a flow off its lanes takes the flow off all lanes, and no other. -/
theorem get?_shares_unregister {dp : DataPlane R} (h : dp.Registered) (key : FlowKey) (lane : Lane)
    (k : FlowKey) :
    ((dp.unregister key).network.shares lane).get? k =
    if k = key then none else (dp.network.shares lane).get? k := by
  unfold DataPlane.unregister
  cases hc : dp.channel? key with
  | none =>
    dsimp only
    split
    · rename_i hk
      rw [hk, h.shares lane key, hc, Option.bind_none]
    · rfl
  | some c =>
    have hk : c.key = key := h.key key c hc
    have hg := Channel.get?_shares_unregister (h.enters hc).own lane k
    rwa [hk] at hg

/-- A new channel enters the lanes that the channel of the same flow, if there is one, has left. -/
theorem enters_add {dp : DataPlane R} (h : dp.Registered) {c : Channel R}
    (hb : c.queue.bandwidth = c.allocated) :
    (c.register (dp.unregister c.key).network).1.Enters dp.network
    (c.register (dp.unregister c.key).network).2 := by
  have hgone := h.get?_shares_unregister c.key
  have hnew := Channel.enters_register (fun lane => (hgone lane c.key).trans (if_pos rfl)) hb
  have htop : (dp.unregister c.key).network.topology = dp.network.topology :=
    topology_unregister dp c.key
  refine ⟨hnew.topology.trans htop, hnew.own, ?_, hnew.bandwidth, htop ▸ hnew.latency⟩
  intro lane k hk
  have hk' : k ≠ c.key := hk
  exact (hnew.others lane k hk).trans ((hgone lane k).trans (if_neg hk'))

theorem add {dp : DataPlane R} (h : dp.Registered) {c : Channel R}
    (hb : c.queue.bandwidth = c.allocated) (time : R) : (dp.add c time).Registered := by
  rw [add_eq]
  exact (h.replace (h.enters_add hb)).settle time

theorem discard {dp : DataPlane R} (h : dp.Registered) (key : FlowKey) :
    (dp.discard key).Registered := by
  have hgone := h.get?_shares_unregister key
  have hself : (dp.discard key).channel? key = none :=
    (channel?_discard dp key key).trans (if_pos rfl)
  have hother (k : FlowKey) (hk : k ≠ key) : (dp.discard key).channel? k = dp.channel? k :=
    (channel?_discard dp key k).trans (if_neg hk)
  have hlive (k : FlowKey) (c : Channel R) (hc : (dp.discard key).channel? k = some c) :
      dp.channel? k = some c :=
    live_of_discard hc
  refine ⟨fun k c hc => h.key k c (hlive k c hc), ?_,
    fun k c hc => h.bandwidth k c (hlive k c hc), ?_⟩
  · intro lane k
    have hshares : ((dp.discard key).network.shares lane).get? k = _ := hgone lane k
    rw [hshares]
    by_cases hk : k = key
    · rw [if_pos hk, hk, hself, Option.bind_none]
    · rw [if_neg hk, hother k hk]
      exact h.shares lane k
  · intro k c hc
    rw [topology_discard]
    exact h.latency k c (hlive k c hc)

theorem remove {dp : DataPlane R} (h : dp.Registered) (key : FlowKey) (time : R) :
    (dp.remove key time).2.Registered := by
  unfold DataPlane.remove
  split
  · exact h
  · exact (h.discard key).settle time

theorem send {dp : DataPlane R} (h : dp.Registered) (key : FlowKey) (t : Transmission R)
    (time : R) : (dp.send key t time).2.Registered := by
  unfold DataPlane.send
  cases hc : dp.channel? key with
  | none => exact h
  | some c => exact h.replace (Channel.enters_send (h.enters hc) t time)

/-- A change of the queues that leaves their bandwidths alone is none of the lanes' business. -/
theorem mapQueues {dp : DataPlane R} (h : dp.Registered) {f : Queue R → Queue R}
    (hf : ∀ q, (f q).bandwidth = q.bandwidth) : (dp.mapQueues f).Registered := by
  refine ⟨?_, ?_, ?_, ?_⟩
  · intro k c hc
    obtain ⟨d, hd, rfl⟩ := live_of_mapQueues hc
    exact h.key k d hd
  · intro lane k
    have hown := h.shares lane k
    rw [channel?_mapQueues]
    cases hd : dp.channel? k with
    | none => rwa [hd] at hown
    | some d => rwa [hd] at hown
  · intro k c hc
    obtain ⟨d, hd, rfl⟩ := live_of_mapQueues hc
    exact (hf d.queue).trans (h.bandwidth k d hd)
  · intro k c hc
    obtain ⟨d, hd, rfl⟩ := live_of_mapQueues hc
    exact h.latency k d hd

theorem discardAll {dp : DataPlane R} (h : dp.Registered) (keys : List FlowKey) :
    (keys.foldl DataPlane.discard dp).Registered := by
  induction keys generalizing dp with
  | nil => exact h
  | cons key rest ih => exact ih (h.discard key)

theorem advance {dp : DataPlane R} (h : dp.Registered) (time : R) :
    (dp.advance time).2.Registered := by
  have hflushed : (dp.flush time).Registered := h.mapQueues fun q => Queue.bandwidth_advance q time
  rw [advance_eq]
  split
  · exact hflushed
  · exact (hflushed.discardAll _).settle time

theorem setRequested {dp : DataPlane R} (h : dp.Registered) (key : FlowKey) (requested time : R) :
    (dp.setRequested key requested time).2.Registered := by
  unfold DataPlane.setRequested
  cases hc : dp.channel? key with
  | none => exact h
  | some c => exact (h.replace (Channel.enters_setRequested (h.enters hc) requested)).settle time

theorem reroute {dp : DataPlane R} (h : dp.Registered) (key : FlowKey) (path : Path) (time : R) :
    (dp.reroute key path time).2.Registered := by
  unfold DataPlane.reroute
  cases hc : dp.channel? key with
  | none => exact h
  | some c => exact (h.replace (Channel.enters_reroute (h.enters hc) path time)).settle time

theorem perform {dp : DataPlane R} (h : dp.Registered) (time : R) (op : Operation R) :
    (dp.perform time op).Registered := by
  cases op with
  | add key path requested discipline timeout => exact h.add rfl time
  | remove key => exact h.remove key time
  | settle => exact h.settle time
  | send key t => exact h.send key t time
  | advance => exact h.advance time
  | setRequested key requested => exact h.setRequested key requested time
  | reroute key path => exact h.reroute key path time
  | forward entries => exact ⟨h.key, h.shares, h.bandwidth, h.latency⟩

theorem create {net : Network R} (hfresh : net.load = Table.empty) (discipline : Discipline)
    (timeout : Option R) : (DataPlane.create net discipline timeout).Registered := by
  have hnone (k : FlowKey) : (DataPlane.create net discipline timeout).channel? k = none := rfl
  have hshares (lane : Lane) : net.shares lane = Table.empty := by
    unfold Network.shares Load.shares
    rw [hfresh]
    rfl
  refine ⟨fun k c hc => ?_, fun lane k => ?_, fun k c hc => ?_, fun k c hc => ?_⟩
  · cases hc
  · show (net.shares lane).get? k = _
    rw [hshares lane, hnone k]
    rfl
  · cases hc
  · cases hc

theorem run {dp : DataPlane R} (h : dp.Registered) (ops : List (R × Operation R)) :
    (dp.run ops).Registered :=
  run_induction (C := fun _ => True) (fun _ time op _ hdp => hdp.perform time op) ops
    (fun _ _ => trivial) h

end Registered

/-- Every lane knows just the live channels whose path takes it,
and all copies of a quantity are equal. -/
structure Mirrored (dp : DataPlane R) : Prop where
  keys : ∀ lane k, k ∈ (dp.network.shares lane).keys ↔
    ∃ c, dp.channel? k = some c ∧ lane ∈ c.path.lanes
  shares : ∀ lane k x, (dp.network.shares lane).get? k = some x → ∃ c, dp.channel? k = some c ∧
    x.dedicated = decide (k.flow ≠ -1) ∧ x.requested = c.requested ∧ x.allocated = c.allocated
  queue : ∀ k c, dp.channel? k = some c → c.queue.bandwidth = c.allocated
  latency : ∀ k c, dp.channel? k = some c →
    c.latency = Quantity.sum (c.path.links.map dp.network.topology.latency)

theorem Registered.mirrored {dp : DataPlane R} (h : dp.Registered) : dp.Mirrored where
  keys lane k := by
    have hshare := h.shares lane k
    rw [← Table.contains_iff_mem_keys, Table.contains, hshare]
    cases hc : dp.channel? k with
    | none => simp
    | some c => simp [Channel.shareIn]
  shares lane k x hx := by
    rw [h.shares lane k] at hx
    cases hc : dp.channel? k with
    | none =>
      rw [hc, Option.bind_none] at hx
      cases hx
    | some c =>
      rw [hc, Option.bind_some, Channel.shareIn] at hx
      split at hx
      · cases hx
        refine ⟨c, rfl, ?_, rfl, rfl⟩
        show (c.key.flow != -1) = decide (k.flow ≠ -1)
        rw [h.key k c hc, Bool.eq_iff_iff, bne_iff_ne, decide_eq_true_iff]
      · cases hx
  queue := h.bandwidth
  latency := h.latency

/-- Whatever is done to a plane that started empty, its lanes mirror its channels. -/
theorem lanes_mirror_channels {net : Network R} (hfresh : net.load = Table.empty)
    (discipline : Discipline) (timeout : Option R) (ops : List (R × Operation R)) :
    ((DataPlane.create net discipline timeout).run ops).Mirrored :=
  ((Registered.create hfresh discipline timeout).run ops).mirrored

/-- A channel between two hosts is added, replaced by one inside the first host and moved back. -/
theorem rack_lanes_mirror_channels :
    let net : Network Exact := { Network.empty .tree with topology := Topology.rack }
    let across : Path := ⟨0, [⟨⟨2, .up⟩, 2⟩, ⟨⟨3, .down⟩, 1⟩]⟩
    let inside : Path := ⟨0, [⟨⟨0, .up⟩, 0⟩]⟩
    let ops : List (Exact × Operation Exact) :=
      [(0, .add ⟨1, 2, 7⟩ across 10 .timeShared none),
        (1, .add ⟨1, 2, 7⟩ inside 20 .timeShared none),
        (2, .reroute ⟨1, 2, 7⟩ across), (3, .setRequested ⟨1, 2, 7⟩ 30)]
    net.load = Table.empty ∧ ((DataPlane.create net .timeShared none).run ops).Mirrored :=
  ⟨rfl, lanes_mirror_channels rfl .timeShared none _⟩

end DataPlane

end FlowFabric
