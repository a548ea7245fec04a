import FlowFabric.Proofs.DataPlane.Conservation
import FlowFabric.Proofs.DataPlane.Paths
import FlowFabric.Proofs.Network.Adaptation

namespace FlowFabric

open Quantity (isFinite)

namespace Table

variable {κ α : Type} [DecidableEq κ]

theorem sum_drop (f : α → ℚ) {k : κ} {l : List (κ × α)} (h : (l.map Prod.fst).Nodup) :
    ((drop k l).map fun e => f e.2).sum + ((lookup k l).map f).getD 0 =
      (l.map fun e => f e.2).sum := by
  induction l with
  | nil => exact add_zero _
  | cons e rest ih =>
    obtain ⟨c, v⟩ := e
    obtain ⟨hnew, hrest⟩ := List.nodup_cons.mp h
    by_cases hc : c = k
    · -- Keys do not repeat, so that nothing else is dropped.
      subst hc
      have hdrop : drop c ((c, v) :: rest) = rest := by
        rw [← drop_of_not_mem hnew]
        simp [drop]
      rw [hdrop, lookup, if_pos rfl, List.map_cons, List.sum_cons]
      exact add_comm _ _
    · have hdrop : drop k ((c, v) :: rest) = (c, v) :: drop k rest := by
        simp [drop, hc]
      rw [hdrop, lookup, if_neg hc, List.map_cons, List.map_cons, List.sum_cons, List.sum_cons,
        add_assoc, ih hrest]

/-- What is erased is missing in a sum over the values, and no more than that. -/
theorem sum_values_erase (f : α → ℚ) (t : Table κ α) (k : κ) :
    ((t.erase k).values.map f).sum + ((t.get? k).map f).getD 0 = (t.values.map f).sum := by
  unfold values
  rw [List.map_map, List.map_map]
  exact sum_drop f t.keys_nodup

end Table

/-- Only the difference between what is taken away and what is added back matters. -/
theorem Exact.sub_add_congr {x : Exact} {a b c d : ℚ} (h : b - a = d - c) :
    x - fin a + fin b = x - fin c + fin d := by
  cases x with
  | fin q =>
    rw [fin_sub_fin, fin_sub_fin, fin_add_fin, fin_add_fin]
    exact congrArg fin (by linarith)
  | posInf => rfl
  | negInf => rfl
  | undef => rfl

namespace Shares

/-- What a channel is given, as a number. -/
def part (x : Share Exact) : ℚ := x.allocated.toRat

variable {s : Shares Exact} (hs : ∀ x ∈ s.values, isFinite x.allocated = true)

include hs

theorem eq_part {x : Share Exact} (hx : x ∈ s.values) : x.allocated = .fin (part x) := by
  obtain ⟨q, hq⟩ := Exact.eq_fin_of_isFinite (hs x hx)
  unfold part
  rw [hq, Exact.toRat_fin]

theorem allocated_eq_parts : s.allocated = .fin (s.values.map part).sum :=
  Exact.sum_map_fin Share.allocated part fun _ hx => eq_part hs hx

theorem allocatedTo?_eq_part (key : FlowKey) :
    (s.allocatedTo? key).getD 0 = .fin (((s.get? key).map part).getD 0) := by
  unfold allocatedTo?
  cases hget : s.get? key with
  | none => rfl
  | some x => exact eq_part hs (List.mem_map.mpr ⟨(key, x), Table.get?_eq_some_iff.mp hget, rfl⟩)

/-- What the other channels leave to a flow is the same with and without a share of its own. -/
theorem spare_erase (capacity : Exact) (key : FlowKey) :
    capacity - allocated (s.erase key) + (allocatedTo? (s.erase key) key).getD 0 =
      capacity - s.allocated + (s.allocatedTo? key).getD 0 := by
  have hothers : ∀ x ∈ (s.erase key).values, isFinite x.allocated = true :=
    fun x hx => hs x ((List.filter_sublist.map Prod.snd).subset hx)
  rw [allocated_eq_parts hs, allocated_eq_parts hothers, allocatedTo?_eq_part hs,
    allocatedTo?_eq_part hothers, Table.get?_erase_self]
  -- Without the share as much less is taken away as is not added back.
  have hsum := Table.sum_values_erase part s key
  apply Exact.sub_add_congr
  calc (0 : ℚ) - ((s.erase key).values.map part).sum
      = ((s.get? key).map part).getD 0 -
          (((s.erase key).values.map part).sum + ((s.get? key).map part).getD 0) := by ring
    _ = ((s.get? key).map part).getD 0 - (s.values.map part).sum := by rw [hsum]

end Shares

namespace Network

variable {R : Type} [Quantity R] {select : Selection R} {net net' : Network R} {key : FlowKey}
  {src dst : NodeId} {p q : Path}

omit [Quantity R] in
/-- Two networks that offer and choose the same hops lead a search to the same end. -/
theorem lay_congr (hblind : Oblivious select)
    (h : ∀ here, net'.choose? select here dst key = net.choose? select here dst key) (budget : Nat)
    (laid laid' : List NodeId) (p : Path) :
    (lay select key dst budget net' laid' p).1 = (lay select key dst budget net laid p).1 := by
  induction budget using Nat.strong_induction_on generalizing net net' laid laid' p with
  | h budget ih =>
    by_cases harrived : p.last = dst
    · rw [lay_of_arrived harrived, lay_of_arrived harrived]
    · cases hc : net.choose? select p.last dst key with
      | error e => rw [lay_of_error harrived ((h _).trans hc), lay_of_error harrived hc]
      | ok chosen =>
        cases chosen with
        | none => rw [lay_of_no_route harrived ((h _).trans hc), lay_of_no_route harrived hc]
        | some hop =>
          by_cases hloop : budget = 0 ∨ hop.target ∈ p.nodes
          · rw [lay_of_loop harrived ((h _).trans hc) hloop, lay_of_loop harrived hc hloop]
          · obtain ⟨hbudget, hnew⟩ := not_or.mp hloop
            obtain ⟨budget, rfl⟩ := Nat.exists_eq_succ_of_ne_zero hbudget
            rw [lay_of_hop harrived ((h _).trans hc) hnew, lay_of_hop harrived hc hnew]
            apply ih budget (Nat.lt_succ_self budget)
            -- The entry that has been set is nothing that the selection looks at.
            intro here
            calc (net'.setNext p.last key hop.target).choose? select here dst key
                = net'.choose? select here dst key := choose?_withForwarding hblind _ here
              _ = net.choose? select here dst key := h here
              _ = (net.setNext p.last key hop.target).choose? select here dst key :=
                (choose?_withForwarding hblind _ here).symm

omit [Quantity R] in
theorem build_congr (hblind : Oblivious select) (htopology : net'.topology = net.topology)
    (h : ∀ here, net'.choose? select here dst key = net.choose? select here dst key)
    (hsrc : net.topology.isHost src = true) (hdst : net.topology.isHost dst = true)
    (hne : src ≠ dst) :
    (build select net' key src dst).1 = (build select net key src dst).1 := by
  rw [build_of_hosts select key hsrc hdst hne,
    build_of_hosts select key (htopology ▸ hsrc) (htopology ▸ hdst) hne]
  unfold layFrom
  rw [htopology]
  exact lay_congr hblind h _ _ _ _

/-- Two ways between the same hosts that the same entries describe are one. -/
theorem Way.unique (hp : Way net.topology src dst p) (hq : Way net.topology src dst q)
    (hnet : net.topology.Constructed) (hsrc : src < net.topology.nodes.size)
    (hdescribes : net.Describes key p) (hdescribes' : net.Describes key q) : p = q :=
  Except.ok.inj ((walk_eq hnet hsrc hp hdescribes).symm.trans (walk_eq hnet hsrc hq hdescribes'))

/-- To adapt a way changes nothing exactly if a search would find it. -/
theorem update_keeps_iff (rule : SelectionRule) (hnet : net.Built)
    (hsrc : net.topology.isHost src = true) (hdst : net.topology.isHost dst = true)
    (hne : src ≠ dst) (hway : Way net.topology src dst p) (hp : net.Describes key p) :
    (net.update rule.select key src dst).1 = .ok false ↔
      (build rule.select net key src dst).1 = .ok p := by
  obtain ⟨hconstructed, t, hrouted⟩ := hnet.routed
  have hjoins : p.Joins src dst := ⟨hway.start, hway.last, hway.simple hne⟩
  have hmatches :=
    update_matches (oblivious_select rule) (picks_select rule net) hrouted hsrc hdst hne
    (Or.inr ⟨p, hjoins, hp⟩)
  have hbuild := build_of_hosts (rule.select : Selection R) key hsrc hdst hne
  constructor
  · intro hkept
    generalize net.update rule.select key src dst = result at hmatches hkept
    cases hmatches with
    | failed e net' h => cases hkept
    | kept p' h hp' =>
      -- The entries describe what the search finds, and they describe the way, so that these are
      -- one.
      have hfound : (build rule.select net key src dst).1 = .ok p' := hbuild ▸ h
      have hway' := way_of_build hnet (fun entries => picks_select rule _) hfound
      have hlt := lt_size_of_checkHost (checkHost_of_isHost hsrc)
      rw [hway.unique hway' hconstructed hlt hp hp']
      exact hfound
    | changed p' net' h hp' hold => cases hkept
  · intro hfound
    rw [hbuild] at hfound
    obtain ⟨changed, net', hresult, _, hchanged, _⟩ := hmatches.of_found hfound
    have hsame : changed = false := by
      rw [← Bool.not_eq_true, hchanged, not_not]
      exact hp
    rw [hresult, hsame]

/-- All channels have been given finite bandwidths on all lanes. -/
def FinitelyLoaded (net : Network Exact) : Prop :=
  ∀ lane, ∀ x ∈ (net.shares lane).values, isFinite x.allocated = true

/-- So what a flow has to spare is finite if capacities are. -/
theorem FinitelyLoaded.finite_spare {net : Network Exact} (h : net.FinitelyLoaded)
    (hcap : ∀ lane, isFinite (net.capacity lane) = true) (here : NodeId) (key : FlowKey)
    (l : LinkId) :
    isFinite (Selection.spare net here key l) = true := by
  have hlane (lane : Lane) : isFinite (net.capacity lane - (net.shares lane).allocated +
      ((net.shares lane).allocatedTo? key).getD 0) = true := by
    obtain ⟨a, ha⟩ := Exact.eq_fin_of_isFinite (hcap lane)
    rw [ha, Shares.allocated_eq_parts (h lane), Shares.allocatedTo?_eq_part (h lane),
      Exact.fin_sub_fin, Exact.fin_add_fin]
    rfl
  exact hlane _

end Network

namespace Channel

variable {net : Network Exact}

/-- A channel has as much bandwidth to spare on a link as it would have if it came anew. -/
theorem spare_unregister (c : Channel Exact) (h : net.FinitelyLoaded) (here : NodeId) (l : LinkId) :
    Selection.spare (c.unregister net) here c.key l = Selection.spare net here c.key l := by
  have hlane (lane : Lane) :
      net.capacity lane - ((c.unregister net).shares lane).allocated +
          (((c.unregister net).shares lane).allocatedTo? c.key).getD 0 =
        net.capacity lane - (net.shares lane).allocated +
          ((net.shares lane).allocatedTo? c.key).getD 0 := by
    -- Off its path the channel has no share in the first place.
    rw [shares_unregister]
    split
    · exact Shares.spare_erase (h lane) _ _
    · rfl
  exact hlane _

theorem choose?_unregister (c : Channel Exact) (h : net.FinitelyLoaded) (here dst : NodeId) :
    (c.unregister net).choose? Selection.bandwidthAllocation here dst c.key =
      net.choose? Selection.bandwidthAllocation here dst c.key := by
  have hspare : Selection.spare (c.unregister net) here c.key = Selection.spare net here c.key :=
    funext (c.spare_unregister h here)
  unfold Network.choose? Selection.bandwidthAllocation
  rw [hspare]
  rfl

end Channel

namespace DataPlane

open Network (SameFabric Way build)

variable {dp : DataPlane Exact}

theorem Registered.finitelyLoaded (h : dp.Registered)
    (hfinite : ∀ k c, dp.channel? k = some c → isFinite c.allocated = true) :
    dp.network.FinitelyLoaded := by
  intro lane x hx
  obtain ⟨k, c, hc, _, rfl⟩ := h.share_of_mem hx
  exact hfinite k c hc

omit dp in
theorem network_discard {R : Type} {dp : DataPlane R} {key : FlowKey} {c : Channel R}
    (hc : dp.channel? key = some c) : (dp.discard key).network = c.unregister dp.network := by
  unfold discard unregister
  rw [hc]

/-- A channel does not count its own load when its path is chosen by bandwidth. A search for its
path ends as it would if the channel were taken away and all others kept what they have. If the
entries of the flow are the path of the channel, to adapt them changes nothing exactly if that path
is found. -/
theorem own_load_not_counted (hnet : dp.network.Built) (hreg : dp.Registered)
    (hfinite : ∀ k c, dp.channel? k = some c → isFinite c.allocated = true) {key : FlowKey}
    {c : Channel Exact} (hc : dp.channel? key = some c) {src dst : NodeId}
    (hsrc : dp.network.topology.isHost src = true) (hdst : dp.network.topology.isHost dst = true)
    (hne : src ≠ dst) :
    (build Selection.bandwidthAllocation dp.network key src dst).1 =
        (build Selection.bandwidthAllocation (dp.discard key).network key src dst).1 ∧
      (Way dp.network.topology src dst c.path → dp.network.Describes key c.path →
        ((dp.network.update Selection.bandwidthAllocation key src dst).1 = .ok false ↔
          (build Selection.bandwidthAllocation dp.network key src dst).1 = .ok c.path)) := by
  have hblind : Network.Oblivious (Selection.bandwidthAllocation : Selection Exact) :=
    Network.oblivious_select .bandwidthAllocation
  have htopology : (c.unregister dp.network).topology = dp.network.topology := rfl
  have hchoose (here : NodeId) := c.choose?_unregister (hreg.finitelyLoaded hfinite) here dst
  rw [hreg.key key c hc] at hchoose
  refine ⟨?_, fun hway hp => ?_⟩
  · rw [network_discard hc]
    exact (Network.build_congr hblind htopology hchoose hsrc hdst hne).symm
  · exact Network.update_keeps_iff .bandwidthAllocation hnet hsrc hdst hne hway hp

/-- Of two ways a flow takes one and fills most of it, and another flow takes less of the other. To
the first flow its own way has more to spare, and it stays there. -/
theorem twin_own_load_not_counted :
    let key : FlowKey := ⟨1, 2, 7⟩
    let taken : Path := ⟨0, [⟨⟨4, .up⟩, 3⟩, ⟨⟨5, .down⟩, 1⟩]⟩
    let beside : Path := ⟨0, [⟨⟨2, .up⟩, 2⟩, ⟨⟨3, .down⟩, 1⟩]⟩
    let entries := ((Network.twinNetwork.setNext 0 key 3).setNext 3 key 1).forwarding
    let ops : List (Exact × Operation Exact) :=
      [(0, .add key taken 800 .timeShared none), (1, .add ⟨1, 2, 8⟩ beside 300 .timeShared none)]
    let dp := ((create Network.twinNetwork .timeShared none).run ops).perform 2 (.forward entries)
    dp.network.Built ∧ dp.Registered ∧
      (∀ k c, dp.channel? k = some c → isFinite c.allocated = true) ∧ dp.path? key = some taken ∧
      dp.network.topology.isHost 0 = true ∧ dp.network.topology.isHost 1 = true ∧ (0 : NodeId) ≠ 1 ∧
      Way dp.network.topology 0 1 taken ∧ dp.network.Describes key taken ∧
      (build Selection.bandwidthAllocation (dp.discard key).network key 0 1).1 = .ok taken ∧
      (dp.network.update Selection.bandwidthAllocation key 0 1).1 = .ok false := by
  intro key taken beside entries ops dp
  have hops : ∀ op ∈ ops, op.2.Sound := by
    have hn (n : Nat) : (Quantity.ofNat n : Exact).Nonneg := .fin n.cast_nonneg
    rw [List.forall_mem_cons, List.forall_mem_singleton]
    exact ⟨hn 800, hn 300⟩
  have hbuilt : Network.twinNetwork.Built :=
    (Network.Built.of_constructed Topology.twin_constructed).buildRoutes
  have hempty : (create Network.twinNetwork .timeShared none).Settled :=
    Settled.create hbuilt.routed.1 rfl .timeShared none
  have hrun : ((create Network.twinNetwork .timeShared none).run ops).Settled :=
    run_induction (fun _ time _ hop h => h.perform time hop) ops hops hempty
  have hsettled : dp.Settled := hrun.perform 2 trivial
  have hreg : dp.Registered := hsettled.sound.registered
  have hfinite (k : FlowKey) (c : Channel Exact) (hc : dp.channel? k = some c) :
      isFinite c.allocated = true := by
    rw [(hsettled.sound.allocated k c hc).eq_fin]
    rfl
  have hfabric : SameFabric Network.twinNetwork dp.network :=
    (hempty.sound.registered.sameFabric_run ops).trans
      (hrun.sound.registered.sameFabric_perform 2 (.forward entries))
  have hnet : dp.network.Built := hfabric.built hbuilt
  have hhost (n : NodeId) (h : Network.twinNetwork.topology.isHost n = true) :
      dp.network.topology.isHost n = true := by
    rw [hfabric.topology]
    exact h
  have hp : dp.network.Describes key taken := by
    have hlacks : Network.twinNetwork.Lacks key := fun _ => rfl
    have hstart := Network.Describes.empty hlacks 0
    have hset := (hstart.push (by decide) ⟨⟨4, .up⟩, 3⟩).push (by decide) ⟨⟨5, .down⟩, 1⟩
    have hnext (dp : DataPlane Exact) (n : NodeId) :
        (dp.perform 2 (.forward entries)).network.next? n key = entries.get? (n, key) := rfl
    intro n m
    rw [hnext]
    exact hset n m
  have hpath : dp.path? key = some taken := by decide +kernel
  obtain ⟨c, hc, htaken⟩ := path?_eq_some_iff.mp hpath
  have hfound : (build Selection.bandwidthAllocation dp.network key 0 1).1 = .ok taken := by
    decide +kernel
  have hway : Way dp.network.topology 0 1 taken :=
    Network.way_of_build hnet (fun entries => Network.picks_select .bandwidthAllocation _)
      hfound
  obtain ⟨hsame, hkeeps⟩ :=
    own_load_not_counted hnet hreg hfinite hc (hhost 0 rfl) (hhost 1 rfl) (by decide)
  rw [htaken] at hkeeps
  exact ⟨hnet, hreg, hfinite, hpath, hhost 0 rfl, hhost 1 rfl, by decide, hway, hp,
    hsame.symm.trans hfound, (hkeeps hway hp).mpr hfound⟩

end DataPlane

end FlowFabric
