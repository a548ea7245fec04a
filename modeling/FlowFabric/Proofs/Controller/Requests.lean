import FlowFabric.Proofs.Controller.Agreement

namespace FlowFabric

namespace Path

/-- The steps of a path begin with those of any beginning of it. -/
theorem steps_prefix {start : NodeId} {kept hops : List Hop} (h : kept <+: hops) :
    (⟨start, kept⟩ : Path).steps <+: (⟨start, hops⟩ : Path).steps := by
  obtain ⟨rest, rfl⟩ := h
  have hsteps := steps_extend ⟨start, kept⟩ rest
  exact ⟨_, hsteps.symm⟩

theorem nodes_prefix {start : NodeId} {kept hops : List Hop} (h : kept <+: hops) :
    (⟨start, kept⟩ : Path).nodes <+: (⟨start, hops⟩ : Path).nodes := by
  obtain ⟨rest, rfl⟩ := h
  exact ⟨_, (nodes_extend ⟨start, kept⟩ rest).symm⟩

end Path

variable {R ε : Type} [Quantity R]

namespace Network

/-- The path is a way between its ends,
and the entries of the flow are the hops of a beginning of it, perhaps of none of it. -/
def Outlines (net : Network R) (key : FlowKey) (p : Path) : Prop :=
  Way net.topology p.start p.last p ∧ ∃ kept, kept <+: p.hops ∧ net.Describes key ⟨p.start, kept⟩

variable {net net' : Network R} {key : FlowKey} {p : Path}

omit [Quantity R] in
theorem Outlines.traced (h : net.Outlines key p) (hne : p.start ≠ p.last) :
    ∃ kept, kept <+: p.hops ∧ net.Traced key ⟨p.start, kept⟩ := by
  obtain ⟨hway, kept, hkept, hdescribes⟩ := h
  refine ⟨kept, hkept, ?_, ?_, hdescribes⟩
  · exact (hway.simple hne).sublist (Path.nodes_prefix hkept).sublist
  · exact fun s hs => hway.follows s ((Path.steps_prefix hkept).subset hs)

/-- The path of a flow is adapted and can be read back,
or what is left of its entries is still a beginning of the path. -/
theorem Outlines.update (h : net.Outlines key p) (hnet : net.Built) {select : Selection R}
    (hsel : ∀ entries, Picks select (net.withForwarding entries)) :
    (∃ changed net', net.update select key p.start p.last = (.ok changed, net') ∧
      (changed = true → ∃ p', net'.walk key p.start p.last = .ok p')) ∨
    ∃ e net', net.update select key p.start p.last = (.error e, net') ∧ net'.Outlines key p := by
  have htouches := touches_update select net key p.start p.last
  -- An end that is no host is found out before anything changes.
  have hrefused {e : Fault R} (heq : net.update select key p.start p.last = (.error e, net)) :
      ∃ e net', net.update select key p.start p.last = (.error e, net') ∧ net'.Outlines key p :=
    ⟨e, net, heq, h⟩
  rcases checkHost_cases net.topology p.start with ⟨hsrc, hlt⟩ | ⟨e, hsrc, _⟩
  · rcases checkHost_cases net.topology p.last with ⟨hdst, _⟩ | ⟨e, hdst, _⟩
    · by_cases hends : p.start = p.last
      · refine Or.inl ⟨false, net, ?_, fun hchanged => by cases hchanged⟩
        unfold Network.update
        rw [hsrc, hdst]
        exact if_pos hends
      · obtain ⟨kept, hkept, htraced⟩ := h.traced hends
        rcases update_ends hnet hsel hsrc hdst (fun _ => htraced) with
          heq | ⟨p', net', heq, hway, hdescribes⟩ | ⟨e, net', heq, _, left, hleft, htraced'⟩
        · exact Or.inl ⟨false, net, heq, fun hchanged => by cases hchanged⟩
        · rw [heq] at htouches
          have htopology : net'.topology = net.topology := htouches.topology
          refine Or.inl ⟨true, net', heq, fun _ => ⟨p', ?_⟩⟩
          exact walk_eq (htopology ▸ hnet.routed.1) (htopology ▸ hlt) (htopology ▸ hway) hdescribes
        · rw [heq] at htouches
          have htopology : net'.topology = net.topology := htouches.topology
          exact Or.inr ⟨e, net', heq, htopology ▸ h.1, left, hleft.trans hkept, htraced'.describes⟩
    · refine Or.inr (hrefused (e := e) ?_)
      unfold Network.update
      rw [hsrc, hdst]
  · refine Or.inr (hrefused (e := e) ?_)
    unfold Network.update
    rw [hsrc]

end Network

namespace Controller

variable [Simulation R]

/-- What is registered makes no difference to the channels or to the reports on them. -/
theorem process_registerBandwidth (c : Controller R ε) (key : FlowKey) (bandwidth : R) :
    (c.registerBandwidth key bandwidth).process = c.process.registerBandwidth key bandwidth := by
  let revise (c : Controller R ε) : Controller R ε := c.registerBandwidth key bandwidth
  unfold process
  by_cases hempty : c.plane.channels.isEmpty = true
  · rw [if_pos hempty]
    exact if_pos hempty
  · rw [if_neg hempty]
    refine (if_neg hempty).trans ?_
    let report := (c.plane.advance c.now).1
    let advanced : Controller R ε := { c with plane := (c.plane.advance c.now).2 }
    have hcompleted : report.completed.foldl reportCompleted (revise advanced) =
        revise (report.completed.foldl reportCompleted advanced) :=
      List.foldl_hom revise fun _ _ => rfl
    have hfailed (c : Controller R ε) : report.failed.foldl reportFailed (revise c) =
        revise (report.failed.foldl reportFailed c) :=
      List.foldl_hom revise fun _ _ => rfl
    exact (congrArg (report.failed.foldl reportFailed) hcompleted).trans (hfailed _)

/-- A change of bandwidth is refused at once,
or it is registered and the channel of the flow finds no path. -/
theorem setBandwidth_error {c : Controller R ε} {key : FlowKey} {bandwidth : R} {e : Fault R}
    (h : (c.setBandwidth key bandwidth).1 = .error e) :
    (c.setBandwidth key bandwidth).2 = c ∨
      c.settings.dynamicRouting = true ∧ ∃ channel, c.process.plane.channel? key = some channel ∧
        ((c.process.registerBandwidth key bandwidth).adaptPath channel).1 = .error e ∧
        (c.setBandwidth key bandwidth).2 =
          ((c.process.registerBandwidth key bandwidth).adaptPath channel).2 := by
  rcases c.setBandwidth_cases key bandwidth (process_registerBandwidth c key bandwidth) with
    ⟨_, heq⟩ | ⟨_, _, heq⟩ | ⟨channel, e', c', _, hchannel, hdynamic, hadapted, heq⟩ |
    ⟨channel, c', _, _, _, heq⟩
  all_goals rw [heq] at h ⊢
  · exact Or.inl rfl
  · cases h
  · cases h
    have hsettings : (c.process.registerBandwidth key bandwidth).settings = c.settings :=
      (sameButReports_process c).settings
    exact Or.inr ⟨hsettings ▸ hdynamic, channel, hchannel, congrArg Prod.fst hadapted,
      (congrArg Prod.snd hadapted).symm⟩
  · cases h

omit [Quantity R] in
/-- The entries of a flow that is in order outline the path of its channel. -/
theorem Agrees.outlines {c : Controller R ε} {key : FlowKey} (h : c.Agrees key) {q : Path}
    (hq : c.plane.path? key = some q) : c.network.Outlines key q := by
  obtain ⟨src, dst, _, hway, hdescribes⟩ := h.of_path hq
  refine ⟨?_, q.hops, List.prefix_rfl, hdescribes⟩
  rw [hway.start, hway.last]
  exact hway

/-- A search for the channel of a flow that comes to nothing leaves
a beginning of its path to the entries. -/
theorem adaptPath_outlines {c : Controller R ε} (hnet : c.network.Built) {channel : Channel R}
    (h : c.network.Outlines channel.key channel.path) {e : Fault R}
    (herror : (c.adaptPath channel).1 = .error e) :
    (c.adaptPath channel).2.network.Outlines channel.key channel.path := by
  unfold adaptPath at herror ⊢
  dsimp only at herror ⊢
  have hends : channel.source = channel.path.start ∧ channel.destination = channel.path.last :=
    ⟨rfl, rfl⟩
  rw [hends.1, hends.2] at herror ⊢
  rcases h.update hnet (picks_select c c.network) with
    ⟨changed, net', heq, hwalk⟩ | ⟨e', net', heq, houtlines⟩
  · rw [heq] at herror
    cases changed with
    | false => cases herror
    | true =>
      obtain ⟨p, hp⟩ := hwalk rfl
      dsimp only at herror
      rw [hp] at herror
      cases herror
  · rw [heq]
    exact houtlines

/-- A change of the bandwidth of a flow has failed for want of a path. It has been registered all
the same, and the flow may have lost entries from some node of its path on. Nothing else has
happened. -/
structure GivesUp (key : FlowKey) (bandwidth : R) (c c' : Controller R ε) : Prop where
  dynamic : c.settings.dynamicRouting = true
  live : (c.plane.channel? key).isSome = true
  rest : c' = { c with
    registry := { c.registry with flows := c'.registry.flows }
    plane := { c.plane with network := c.network.withForwarding c'.network.forwarding } }
  others : ∀ id, id ≠ key.flow → c'.registry.flow? id = c.registry.flow? id
  registered : ∀ f, c.registry.flow? key.flow = some f → c'.registry.flow? key.flow =
    some (if f.src = key.src ∧ f.dst = key.dst then { f with bandwidth } else f)
  entries : ∀ k, k ≠ key → ∀ n, c'.network.next? n k = c.network.next? n k
  outlines : ∀ p, c.plane.path? key = some p → c.network.Outlines key p → c'.network.Outlines key p

/-- A change of bandwidth that fails has not been begun, or it is given up. -/
theorem setBandwidth_contained {c : Controller R ε} (hnet : c.network.Built)
    (hreg : c.plane.Registered) {key : FlowKey} {bandwidth : R} {e : Fault R}
    (h : (c.setBandwidth key bandwidth).1 = .error e) :
    (c.setBandwidth key bandwidth).2 = c ∨
      GivesUp key bandwidth c.process (c.setBandwidth key bandwidth).2 := by
  refine (setBandwidth_error h).imp_right ?_
  rintro ⟨hdynamic, channel, hchannel, herror, heq⟩
  -- The failure comes from the search, after the new bandwidth was registered.
  obtain ⟨hregistered, hfabric⟩ :=
    (acts_process (P := fun _ _ => True) c).toRuns.registered (fun _ _ _ => trivial) hreg
  have hkey : channel.key = key := hregistered.key key channel hchannel
  let registered := c.process.registerBandwidth key bandwidth
  obtain ⟨net, htouches, hleft⟩ := adaptPath_error registered herror
  rw [hkey] at htouches
  have hbuilt : registered.network.Built := hfabric.built hnet
  rw [heq, hleft]
  refine ⟨?_, ?_, ?_, ?_, ?_, fun k hk n => htouches.others n k hk, ?_⟩
  · rw [(sameButReports_process c).settings]
    exact hdynamic
  · rw [hchannel]
    rfl
  · have hnetwork : net = c.process.network.withForwarding net.forwarding := htouches.rest
    show registered.withNetwork net =
      registered.withNetwork (c.process.network.withForwarding net.forwarding)
    rw [← hnetwork]
  · intro id hid
    exact Table.get?_modify_of_ne _ hid _
  · intro f hf
    exact (Table.get?_modify_self _ _ _).trans (congrArg (Option.map _) hf)
  · intro p hp houtlines
    obtain ⟨_, hchannel', rfl⟩ := DataPlane.path?_eq_some_iff.mp hp
    cases hchannel.symm.trans hchannel'
    have hoff := adaptPath_outlines (c := registered) hbuilt (hkey.symm ▸ houtlines) herror
    rw [hleft, hkey] at hoff
    exact hoff

/-- A flow that is not registered has no bandwidth to be changed. -/
theorem setFlowBandwidth_contained {c : Controller R ε} (hnet : c.network.Built)
    (hreg : c.plane.Registered) {flow : FlowId} {bandwidth : R} {e : Fault R}
    (h : (c.setFlowBandwidth flow bandwidth).1 = .error e) :
    (c.setFlowBandwidth flow bandwidth).2 = c ∨ ∃ f, c.registry.flow? flow = some f ∧
      GivesUp ⟨f.src, f.dst, flow⟩ bandwidth c.process (c.setFlowBandwidth flow bandwidth).2 := by
  unfold setFlowBandwidth at h ⊢
  cases hf : c.registry.flow? flow with
  | none => exact Or.inl rfl
  | some f =>
    rw [hf] at h
    exact (setBandwidth_contained hnet hreg h).imp_right fun hgives => ⟨f, rfl, hgives⟩

end Controller

namespace Topology

/-- Two edge switches and two hosts, not linked yet. -/
def forkNodes : Topology Exact :=
  ((((empty .tree).pushNode "wide" (.switch .edge) 1000).pushNode "narrow" (.switch .edge)
    1000).pushNode "sender" .host 1000).pushNode "receiver" .host 1000

/-- The sender is linked to both switches, and the receiver to the wide one only. -/
def fork : Topology Exact :=
  ((forkNodes.pushLink 0 2 0 1000 1000).pushLink 1 2 0 100 100).pushLink 0 3 0 1000 1000

theorem fork_constructed : fork.Constructed := by
  have hb : Admitted (1000 : Exact) := ⟨by decide, rfl⟩
  have hnarrow : Admitted (100 : Exact) := ⟨by decide, rfl⟩
  have hempty : (empty .tree : Topology Exact).Constructed := ⟨.tree, .refl⟩
  have hnodes : forkNodes.Constructed := by
    refine (((hempty.pushNode hb ?_ _).pushNode hb ?_ _).pushNode hb ?_ _).pushNode hb ?_ _ <;>
      simp [findNode?, pushNode, NodeKind.isHost, empty]
  have hwide := hnodes.pushLink (a := 0) (b := 2) ⟨by decide, by decide, by decide, hb, hb, rfl⟩ 0
  have hboth := hwide.pushLink (a := 1) (b := 2)
    ⟨by decide, by decide, by decide, hnarrow, hnarrow, rfl⟩ 0
  exact hboth.pushLink ⟨by decide, by decide, by decide, hb, hb, rfl⟩ 0

end Topology

namespace Journal

open Controller (Action GivesUp Orderly)

variable [Simulation R]

/-- At any point of a run, a change of bandwidth that fails leaves everything alone but what is
registered of the flow and, if paths are adapted and the flow has a channel, the entries of the
flow. -/
theorem failed_change_contained {net : Network R} (hnet : net.Built)
    (hload : net.load = Table.empty) (settings : Settings R) (actions : List (R × Action R ε))
    (time : R) {c : Controller R ε}
    (hc : ((start settings net).run actions).controller.setClock time = c) :
    (∀ key bandwidth e, (c.setBandwidth key bandwidth).1 = .error e →
      (c.setBandwidth key bandwidth).2 = c ∨
        GivesUp key bandwidth c.process (c.setBandwidth key bandwidth).2) ∧
    ∀ flow bandwidth e, (c.setFlowBandwidth flow bandwidth).1 = .error e →
      (c.setFlowBandwidth flow bandwidth).2 = c ∨ ∃ f, c.registry.flow? flow = some f ∧
        GivesUp ⟨f.src, f.dst, flow⟩ bandwidth c.process (c.setFlowBandwidth flow bandwidth).2 := by
  obtain ⟨hbuilt, hregistered⟩ := registered_start (ε := ε) hnet hload settings
  have hruns := runs_run (start settings net : Journal R ε) Controller.admits_anything
    fun a (_ : a ∈ actions) => a.2.brings_anything
  obtain ⟨hreg, hfabric⟩ := hruns.registered (fun _ _ _ => trivial) hregistered
  have hnetwork : c.network.Built := hc ▸ hfabric.built hbuilt
  have hplane : c.plane.Registered := hc ▸ hreg
  exact ⟨fun _ _ _ => Controller.setBandwidth_contained hnetwork hplane,
    fun _ _ _ => Controller.setFlowBandwidth_contained hnetwork hplane⟩

/-- As long as nothing disturbs a run, the entries of a flow outline the path of its channel. -/
theorem outlines_run {net : Network R} (hnet : net.Built) (hload : net.load = Table.empty)
    (hforwarding : net.forwarding = Table.empty) (settings : Settings R)
    {actions : List (R × Action R ε)} (hrun : (start settings net).Undisturbed actions) (time : R)
    {c : Controller R ε} (hc : ((start settings net).run actions).controller.setClock time = c)
    {key : FlowKey} {p : Path} (hp : c.process.plane.path? key = some p) :
    c.process.network.Outlines key p := by
  have horderly := orderly_run (orderly_start hnet hload hforwarding settings) hrun
  have hclock : Orderly c := hc ▸ horderly.same rfl rfl
  exact (hclock.process.agrees key).outlines hp

/-- Paths are adapted to the bandwidth that is left. -/
def adaptive : Settings Exact :=
  { Settings.default with dynamicRouting := true, selection := .bandwidthAllocation }

/-- A flow takes the wide way, and a packet without a flow takes all that is left there. -/
def crowd : List (Exact × Action Exact Unit) :=
  [(0, .addVm ⟨1, "sender", none⟩ 2), (0, .addVm ⟨2, "receiver", none⟩ 3),
    (0, .addFlow ⟨7, "flow", 1, 2, 10, none⟩), (0, .send ⟨⟨1, 1, 2, 7⟩, [], 1000, none, 1⟩),
    (0, .send ⟨⟨2, 1, 2, -1⟩, [], 1000, none, 1⟩)]

/-- The narrow way has more left then, but it is a dead end. -/
theorem crowd_failed_change_contained :
    let net : Network Exact := { Network.empty .tree with topology := Topology.fork }
    let c := ((start adaptive net).run crowd).controller.setClock 0
    let key : FlowKey := ⟨1, 2, 7⟩
    net.Built ∧ net.load = Table.empty ∧
      (c.setBandwidth key 20).1 = .error (.noRoute 1 3) ∧
      GivesUp key 20 c.process (c.setBandwidth key 20).2 ∧
      ∃ p, c.process.plane.path? key = some p ∧
        (c.setBandwidth key 20).2.network.Outlines key p := by
  intro net c key
  have hnet : net.Built := .of_constructed Topology.fork_constructed
  have herror : (c.setBandwidth key 20).1 = .error (.noRoute 1 3) := by decide +kernel
  have hbegun : (c.setBandwidth key 20).2 ≠ c := by
    intro heq
    have hlost : (c.setBandwidth key 20).2.network.next? 2 key = none := by decide +kernel
    have hset : c.network.next? 2 key = some 0 := by decide +kernel
    rw [heq, hset] at hlost
    cases hlost
  have hgives : GivesUp key 20 c.process (c.setBandwidth key 20).2 :=
    ((failed_change_contained hnet rfl adaptive crowd 0 rfl).1 key 20 _ herror).resolve_left hbegun
  -- The flow was in order, so that what is left of its entries is known, too.
  have hrun : (start adaptive net).Undisturbed crowd := by decide +kernel
  obtain ⟨p, hp⟩ := Option.isSome_iff_exists.mp
    (by decide +kernel : (c.process.plane.path? key).isSome = true)
  have houtlines := outlines_run hnet rfl rfl adaptive hrun 0 rfl hp
  exact ⟨hnet, rfl, herror, hgives, p, hp, hgives.outlines p hp houtlines⟩

/-- The new bandwidth is registered, while the channel goes on to ask for the old one, and there are
no entries any more on the path where the channel stays. -/
theorem crowd_change_half_done :
    let net : Network Exact := { Network.empty .tree with topology := Topology.fork }
    let c := ((start adaptive net).run crowd).controller
    let key : FlowKey := ⟨1, 2, 7⟩
    let c' := (c.setBandwidth key 20).2
    (c.setBandwidth key 20).1 = .error (.noRoute 1 3) ∧
      (c.process.registry.flow? 7).map Flow.bandwidth = some 10 ∧
      (c'.registry.flow? 7).map Flow.bandwidth = some 20 ∧
      (c'.plane.channel? key).map Channel.requested = some 10 ∧
      (c'.plane.path? key).map Path.nodes = some [2, 0, 3] ∧
      c.process.network.next? 2 key = some 0 ∧ c.process.network.next? 0 key = some 3 ∧
      c'.network.next? 2 key = none ∧ c'.network.next? 0 key = none := by
  intro net c key c'
  refine ⟨?_, ?_, ?_, ?_, ?_, ?_, ?_, ?_, ?_⟩ <;> decide +kernel

end Journal

end FlowFabric
