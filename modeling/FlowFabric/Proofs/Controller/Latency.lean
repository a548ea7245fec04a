import FlowFabric.Proofs.Controller.Agreement
import FlowFabric.Proofs.Network.Adaptation
import FlowFabric.Proofs.Network.Recovery

namespace FlowFabric

variable {R ε : Type} [Quantity R] [Simulation R]

namespace Controller

open Network (Way)

variable {c : Controller R ε} {key : FlowKey} {p : Path}

/-- The path that the packets of a flow take as things are: that of its channel or, if it has none,
the one that its entries lead along between the hosts of its machines. -/
inductive Takes (c : Controller R ε) (key : FlowKey) (p : Path) : Prop
  | live (hp : c.plane.path? key = some p)
  | idle {src dst : NodeId} (hnone : c.plane.channel? key = none)
      (hends : c.findHosts key = .ok (src, dst))
      (hhosts : c.network.topology.checkHost src = .ok () ∧
        c.network.topology.checkHost dst = .ok ())
      (hway : Way c.network.topology src dst p) (hwalk : c.network.walk key src dst = .ok p)

/-- The controller with paths that are not adapted any more. -/
def steady (c : Controller R ε) : Controller R ε :=
  { c with settings := { c.settings with dynamicRouting := false } }

/-- A channel that is opened without adapting paths runs over the path that is taken. -/
theorem Takes.openChannel (h : c.Takes key p) (hreg : c.plane.Registered) :
    (c.steady.openChannel key).1 = .ok () ∧
      (c.steady.openChannel key).2.plane.path? key = some p := by
  cases h with
  | live hp =>
    obtain ⟨channel, hchannel, _⟩ := DataPlane.path?_eq_some_iff.mp hp
    have hlive : c.steady.plane.channel? key = some channel := hchannel
    have hopened : c.steady.openChannel key = (.ok (), c.steady) := by
      unfold Controller.openChannel
      rw [hlive]
    rw [hopened]
    exact ⟨rfl, hp⟩
  | @idle src dst hnone hends hhosts hway hwalk =>
    -- The entries lead to the destination, so that the lookup on opening reads them back as they
    -- are.
    have hread : c.steady.network.resolve c.steady.select key src dst false =
        (.ok p, c.steady.network) := Network.resolve_of_walk hhosts.1 hhosts.2 hwalk
    have hresolve : c.steady.resolve key src dst false = (.ok p, c.steady) := by
      unfold Controller.resolve
      rw [hread]
      rfl
    rcases c.steady.openChannel_cases key with ⟨_, hlive, _⟩ | ⟨e, herror, _⟩ |
      ⟨_, _, e, _, _, hfound, herror, _⟩ | ⟨_, _, path, c', _, hfound, hpath, heq⟩
    · cases hnone.symm.trans hlive
    · cases hends.symm.trans herror
    · cases hends.symm.trans hfound
      cases hresolve.symm.trans herror
    · cases hends.symm.trans hfound
      cases hresolve.symm.trans hpath
      rw [heq]
      refine ⟨rfl, ?_⟩
      exact ((hreg.moves_add (c := Channel.create key p _ _ _) rfl c.now).2 key).trans (if_pos rfl)

/-- In good order, the entries of a flow describe the path that is taken. -/
theorem Takes.described (htakes : c.Takes key p) (h : Orderly c) :
    ∃ src dst, c.hosts? key = some (src, dst) ∧ Way c.network.topology src dst p ∧
      c.network.Describes key p := by
  cases htakes with
  | live hp => exact (h.agrees key).of_path hp
  | @idle src dst _ hends hhosts _ hwalk =>
    have hplaced := hosts?_of_findHosts hends
    rcases (h.agrees key).between hplaced with hlacks | ⟨q, hway, hdescribes⟩
    · obtain ⟨m, hnext⟩ := Network.next?_of_walk hwalk
      cases (hlacks src).symm.trans hnext
    · -- Only one way can be read back, and it is the one that the entries describe.
      have hread := Network.walk_eq h.built.routed.1 (Network.lt_size_of_checkHost hhosts.1) hway
        hdescribes
      cases hread.symm.trans hwalk
      exact ⟨src, dst, hplaced, hway, hdescribes⟩

omit [Quantity R] in
/-- Entries do not matter to where machines are. -/
theorem findHosts_withNetwork {net : Network R} (h : net.topology = c.network.topology)
    (key : FlowKey) : (c.withNetwork net).findHosts key = c.findHosts key := by
  have htopology : (c.withNetwork net).network.topology = c.network.topology := h
  unfold findHosts findHost
  rw [htopology]
  rfl

/-- A path that is looked up for a flow without a channel is the one that is taken then. -/
theorem resolve_taken (hnet : c.network.Built) (hnone : c.plane.channel? key = none)
    {src dst : NodeId} (hends : c.findHosts key = .ok (src, dst)) {dynamic : Bool}
    (h : (c.resolve key src dst dynamic).1 = .ok p) :
    (c.resolve key src dst dynamic).2.Takes key p := by
  have htouches := Network.touches_resolve c.select c.network key src dst dynamic
  unfold Controller.resolve at h ⊢
  generalize hfound : c.network.resolve c.select key src dst dynamic = found at h htouches ⊢
  obtain ⟨outcome, net⟩ := found
  cases h
  obtain ⟨hway, hwalk⟩ := Network.resolve_reads_back hfound hnet (picks_select c c.network)
  have hends' : (c.withNetwork net).findHosts key = .ok (src, dst) :=
    (findHosts_withNetwork htouches.topology key).trans hends
  exact .idle hnone hends' (htouches.topology ▸ Network.checkHost_of_resolve hfound)
    (htouches.topology ▸ hway) hwalk

/-- The latency of a flow is that of the path that is taken,
unless another channel answers for it. -/
theorem latency_taken (hnet : c.network.Built) (hreg : c.plane.Registered) {latency : R}
    (h : (c.latency key).1 = .ok latency)
    (hown : c.plane.channel? key = none → c.plane.channel? key.toDefault = none) :
    ∃ p, (c.latency key).2.Takes key p ∧
      latency = Quantity.sum (p.links.map (c.latency key).2.network.topology.latency) := by
  cases hlive : c.plane.channel? key with
  | some channel =>
    have hfound : c.plane.find? key = some channel := by
      unfold DataPlane.find?
      rw [hlive]
      rfl
    have heq : c.latency key = (.ok channel.latency, c) := by
      unfold Controller.latency
      rw [hfound]
    have hpath : c.plane.path? key = some channel.path :=
      DataPlane.path?_eq_some_iff.mpr ⟨channel, hlive, rfl⟩
    rw [heq] at h ⊢
    cases h
    exact ⟨channel.path, .live hpath, hreg.latency key channel hlive⟩
  | none =>
    -- No channel of the default flow stands in, and the path has to be looked up.
    have hmissing : c.plane.find? key = none := by
      unfold DataPlane.find?
      rw [hlive, hown hlive]
      rfl
    rcases c.latency_cases key with ⟨channel, hfound, _⟩ | ⟨e, _, heq⟩ | ⟨src, dst, hends, heq⟩
    · cases hmissing.symm.trans hfound
    · rw [heq] at h
      cases h
    · rw [heq] at h ⊢
      cases hresolved : (c.resolve key src dst false).1 with
      | error e =>
        rw [hresolved] at h
        cases h
      | ok p =>
        rw [hresolved] at h
        cases h
        exact ⟨p, resolve_taken hnet hlive hends hresolved, rfl⟩

end Controller

namespace Topology

/-- Two hosts below both of two switches, and the second one is further away. -/
def uneven : Topology Exact :=
  (((twinNodes.pushLink 2 0 1 1000 1000).pushLink 2 1 1 1000 1000).pushLink
    3 0 5 1000 1000).pushLink 3 1 5 1000 1000

theorem uneven_constructed : uneven.Constructed := by
  have hb : Admitted (1000 : Exact) := ⟨by decide, rfl⟩
  have hnear := twinNodes_constructed.pushLink (a := 2) (b := 0)
    ⟨by decide, by decide, by decide, hb, hb, rfl⟩ 1
  have hnear' := hnear.pushLink (a := 2) (b := 1) ⟨by decide, by decide, by decide, hb, hb, rfl⟩ 1
  have hfar := hnear'.pushLink (a := 3) (b := 0) ⟨by decide, by decide, by decide, hb, hb, rfl⟩ 5
  exact hfar.pushLink ⟨by decide, by decide, by decide, hb, hb, rfl⟩ 5

end Topology

namespace Journal

open Controller (Action)
open Network (Way)

/-- At any point of a run, the latency that is told for a flow is that of the path which its packets
take, and its channel is over this path if paths are not adapted when it is opened. The flow has to
have a channel of its own, or none that would answer for it. While nothing disturbs the run, the
entries of the flow describe the path between the present hosts of its machines. -/
theorem latency_of_taken_path {net : Network R} (hnet : net.Built) (hload : net.load = Table.empty)
    (hforwarding : net.forwarding = Table.empty) (settings : Settings R)
    (actions : List (R × Action R ε)) (time : R) {c c' : Controller R ε}
    (hc : ((start settings net).run actions).controller.setClock time = c) {key : FlowKey}
    {latency : R} (hlatency : c.latency key = (.ok latency, c'))
    (hown : c.plane.channel? key = none → c.plane.channel? key.toDefault = none) :
    ∃ p, latency = Quantity.sum (p.links.map c'.network.topology.latency) ∧ c'.Takes key p ∧
      (c'.steady.openChannel key).1 = .ok () ∧
      (c'.steady.openChannel key).2.plane.path? key = some p ∧
      ((start settings net).Undisturbed actions → ∃ src dst, c'.hosts? key = some (src, dst) ∧
        Way c'.network.topology src dst p ∧ c'.network.Describes key p) := by
  obtain ⟨hbuilt, hregistered⟩ := registered_start (ε := ε) hnet hload settings
  have hruns := runs_run (start settings net : Journal R ε) Controller.admits_anything
    fun a (_ : a ∈ actions) => a.2.brings_anything
  obtain ⟨hreg, hfabric⟩ := hruns.registered (fun _ _ _ => trivial) hregistered
  have hnetwork : c.network.Built := hc ▸ hfabric.built hbuilt
  have hplane : c.plane.Registered := hc ▸ hreg
  have hlooked : Controller.ActsFreely c c' := by
    have hacts : Controller.ActsFreely c (c.latency key).2 := Controller.acts_latency c key
    rwa [hlatency] at hacts
  have hreg' := (hlooked.toRuns.registered (fun _ _ _ => trivial) hplane).1
  obtain ⟨p, htakes, hsum⟩ :=
    Controller.latency_taken hnetwork hplane (congrArg Prod.fst hlatency) hown
  rw [hlatency] at htakes hsum
  obtain ⟨hopened, hpath⟩ := htakes.openChannel hreg'
  refine ⟨p, hsum, htakes, hopened, hpath, fun hrun => htakes.described ?_⟩
  -- What the run has kept in order is still so after the lookup, for this has found a path.
  have horderly : Controller.Orderly c := by
    have hran := orderly_run (orderly_start hnet hload hforwarding settings) hrun
    exact hc ▸ hran.same rfl rfl
  have hreturns : Returns (c.latency key).1 := by
    rw [hlatency]
    trivial
  have hlooked' := horderly.latency hreturns
  rwa [hlatency] at hlooked'

/-- Channels are opened where most bandwidth is left. -/
def balanced : Settings Exact := { Settings.default with selection := .bandwidthAllocation }

/-- A run on the uneven network. -/
def unevenly : Journal Exact Unit :=
  start balanced { Network.empty .tree with topology := Topology.uneven }

/-- Two machines on the hosts, and a flow between them. -/
def couple : List (Exact × Action Exact Unit) :=
  [(0, .addVm ⟨1, "left", none⟩ 0), (0, .addVm ⟨2, "right", none⟩ 1),
    (0, .addFlow ⟨7, "flow", 1, 2, 10, none⟩)]

/-- The flow goes over the switch that is further away, before it has a channel and when it has one.
It does not matter then that the channel of the default flow goes over the other switch. -/
theorem couple_latency_of_taken_path :
    let net : Network Exact := { Network.empty .tree with topology := Topology.uneven }
    let key : FlowKey := ⟨1, 2, 7⟩
    let busy : List (Exact × Action Exact Unit) := couple ++
      [(0, .send ⟨⟨1, 1, 2, 7⟩, [], 1000, none, 1⟩), (0, .send ⟨⟨2, 1, 2, -1⟩, [], 1000, none, 1⟩)]
    let far : Path := ⟨0, [⟨⟨4, .up⟩, 3⟩, ⟨⟨5, .down⟩, 1⟩]⟩
    net.Built ∧
      ((unevenly.run busy).controller.latency key.toDefault).1 = .ok 2 ∧
      ∀ actions ∈ [couple, busy], unevenly.Undisturbed actions ∧ ∃ c',
        ((unevenly.run actions).controller.setClock 0).latency key = (.ok 10, c') ∧
        (c'.steady.openChannel key).2.plane.path? key = some far ∧ c'.Takes key far ∧
        c'.network.Describes key far := by
  intro net key busy far
  have hnet : net.Built := .of_constructed Topology.uneven_constructed
  refine ⟨hnet, by decide +kernel, fun actions hactions => ?_⟩
  let c := (unevenly.run actions).controller.setClock 0
  obtain ⟨hrun, hlatency, hown, hopened⟩ : unevenly.Undisturbed actions ∧
      (c.latency key).1 = .ok 10 ∧
      (c.plane.channel? key = none → c.plane.channel? key.toDefault = none) ∧
      ((c.latency key).2.steady.openChannel key).2.plane.path? key = some far := by
    revert actions
    decide +kernel
  obtain ⟨p, _, htakes, _, hpath, hdescribed⟩ :=
    latency_of_taken_path hnet rfl rfl balanced actions 0
    rfl (Prod.ext hlatency rfl : c.latency key = (.ok 10, (c.latency key).2)) hown
  obtain rfl : far = p := Option.some.inj (hopened.symm.trans hpath)
  obtain ⟨_, _, _, _, hdescribes⟩ := hdescribed hrun
  exact ⟨hrun, _, Prod.ext hlatency rfl, hopened, htakes, hdescribes⟩

-- A flow without a channel is answered for by the channel of the default flow, if that has one. The
-- latency is then that of the near switch, while the entries of the flow lead over the far one and
-- its channel is opened there. By the documentation of the lookup it should be that of the flow's
-- own path.
example :
    let key : FlowKey := ⟨1, 2, 7⟩
    let crowded := (unevenly.run (couple ++ [(0, .addFlow ⟨8, "crowd", 1, 2, 500, none⟩),
      (0, .send ⟨⟨1, 1, 2, 8⟩, [], 1000, none, 1⟩),
      (0, .send ⟨⟨2, 1, 2, -1⟩, [], 1000, none, 1⟩)])).controller
    let far : Path := ⟨0, [⟨⟨4, .up⟩, 3⟩, ⟨⟨5, .down⟩, 1⟩]⟩
    (crowded.latency key).1 = .ok 2 ∧ (crowded.latency key).2.network.walk key 0 1 = .ok far ∧
      ((crowded.latency key).2.openChannel key).2.plane.path? key = some far := by
  decide +kernel

/-- A machine that is added once more on the other host is placed there, and channels that are open
stay where they are. The flow of the machine then has entries from its present host, while its
channel and the latency that is told for it are those of the former one. -/
theorem latency_of_another_path :
    let key : FlowKey := ⟨1, 2, 7⟩
    let moved := (unevenly.run (couple ++ [(0, .send ⟨⟨1, 1, 2, 7⟩, [], 1000, none, 1⟩),
      (0, .addVm ⟨1, "left", none⟩ 1), (0, .addFlow ⟨7, "flow", 1, 2, 10, none⟩)])).controller
    let back : Path := ⟨1, [⟨⟨1, .up⟩, 1⟩]⟩
    (moved.registry.flow? 7).isSome = true ∧ moved.hosts? key = some (1, 1) ∧
      (moved.latency key).1 = .ok 10 ∧ (moved.latency key).2.network.walk key 1 1 = .ok back ∧
      Quantity.sum (back.links.map moved.network.topology.latency) = 0 := by
  intro key moved back
  refine ⟨?_, ?_, ?_, ?_, ?_⟩ <;> decide +kernel

end Journal

end FlowFabric
