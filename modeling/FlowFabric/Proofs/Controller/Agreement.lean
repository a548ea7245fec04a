import FlowFabric.Proofs.Controller.Moves
import FlowFabric.Proofs.Network.Readback

namespace FlowFabric

variable {R ε : Type} [Quantity R] [Simulation R]

/-- A call does not end for want of a route, and it does return. -/
def Returns {α : Type} : Except (Fault R) α → Prop
  | .ok _ => True
  | .error e => e.isDeadEnd = false

instance {α : Type} (outcome : Except (Fault R) α) : Decidable (Returns outcome) :=
  match outcome with
  | .ok _ => isTrue trivial
  | .error e => inferInstanceAs (Decidable (e.isDeadEnd = false))

omit [Quantity R] in
omit [Simulation R] in
theorem returns_map {α β : Type} {f : α → β} {outcome : Except (Fault R) α} :
    Returns (outcome.map f) ↔ Returns outcome := by
  cases outcome <;> exact Iff.rfl

namespace Controller

open Network (Describes Lacks Reloads Touches Way build)

/-- The flow has neither entries nor a channel, or its entries are the hops of a way between the
present hosts of its machines. If it has a channel, this runs over the same way. -/
def Agrees (c : Controller R ε) (key : FlowKey) : Prop :=
  (c.network.Lacks key ∧ c.plane.path? key = none) ∨
    ∃ src dst p, c.hosts? key = some (src, dst) ∧ Way c.network.topology src dst p ∧
      c.network.Describes key p ∧ ∀ q, c.plane.path? key = some q → q = p

variable {c c' c'' : Controller R ε} {key : FlowKey}

omit [Quantity R] in
theorem Agrees.keep (h : c.Agrees key)
    (hhosts : ∀ ends, c.hosts? key = some ends → c'.hosts? key = some ends)
    (htopology : c'.network.topology = c.network.topology)
    (hentries : ∀ n, c'.network.next? n key = c.network.next? n key)
    (hpath : ∀ q, c'.plane.path? key = some q → c.plane.path? key = some q) : c'.Agrees key := by
  rcases h with ⟨hlacks, hnone⟩ | ⟨src, dst, p, hends, hway, hdescribes, hlive⟩
  · refine Or.inl ⟨fun n => (hentries n).trans (hlacks n), ?_⟩
    refine Option.eq_none_iff_forall_ne_some.mpr fun q hq => ?_
    cases hnone.symm.trans (hpath q hq)
  · refine Or.inr ⟨src, dst, p, hhosts _ hends, htopology ▸ hway, ?_,
      fun q hq => hlive q (hpath q hq)⟩
    intro n m
    rw [hentries n]
    exact hdescribes n m

omit [Quantity R] in
/-- A flow that has a channel has a way that its entries describe. -/
theorem Agrees.of_path (h : c.Agrees key) {q : Path} (hq : c.plane.path? key = some q) :
    ∃ src dst, c.hosts? key = some (src, dst) ∧ Way c.network.topology src dst q ∧
      c.network.Describes key q := by
  rcases h with ⟨_, hnone⟩ | ⟨src, dst, p, hends, hway, hdescribes, hlive⟩
  · cases hnone.symm.trans hq
  · obtain rfl := hlive q hq
    exact ⟨src, dst, hends, hway, hdescribes⟩

omit [Quantity R] in
/-- Between given hosts a flow has no entries, or a way that they describe. -/
theorem Agrees.between (h : c.Agrees key) {src dst : NodeId}
    (hends : c.hosts? key = some (src, dst)) :
    c.network.Lacks key ∨ ∃ p, Way c.network.topology src dst p ∧ c.network.Describes key p := by
  rcases h with ⟨hlacks, _⟩ | ⟨src', dst', p, hends', hway, hdescribes, _⟩
  · exact Or.inl hlacks
  · cases hends.symm.trans hends'
    exact Or.inr ⟨p, hway, hdescribes⟩

omit [Quantity R] in
theorem Spares.agrees {keys : List FlowKey} (hs : Spares keys c c') (hkey : key ∉ keys)
    (h : c.Agrees key) : c'.Agrees key :=
  h.keep (fun _ hends => (hs.hosts? key).trans hends) hs.topology (hs.entries key hkey)
    fun _ hq => (hs.path key hkey).symm.trans hq

/-- Machines and entries are where they were, and no channel has been added or moved. -/
structure Calm (c c' : Controller R ε) : Prop where
  placement : c'.placement = c.placement
  network : Reloads c.network c'.network
  path : ∀ k q, c'.plane.path? k = some q → c.plane.path? k = some q

namespace Calm

omit [Quantity R] in
theorem of_stays (hplacement : c'.placement = c.placement) (h : DataPlane.Stays c.plane c'.plane) :
    Calm c c' :=
  ⟨hplacement, h.network, fun k _ hq => (h.path k).symm.trans hq⟩

omit [Quantity R] in
theorem same (hplacement : c'.placement = c.placement) (hplane : c'.plane = c.plane) : Calm c c' :=
  .of_stays hplacement (hplane ▸ .refl c.plane)

omit [Quantity R] in
theorem agrees (h : Calm c c') (hkey : c.Agrees key) : c'.Agrees key :=
  hkey.keep (fun _ hends => (hosts?_congr h.placement key).trans hends) h.network.topology
    (fun n => h.network.next? n key) (h.path key)

end Calm

theorem picks_select (c : Controller R ε) (net : Network R) (entries : Forwarding) :
    Network.Picks c.select (net.withForwarding entries) :=
  Network.picks_select c.settings.selection _

/-- Actions on any flows whatsoever. -/
abbrev ActsFreely : Controller R ε → Controller R ε → Prop := Acts fun _ _ => True

/-- The network was built, its lanes know the channels, and machines run on hosts. -/
structure Housed (c : Controller R ε) : Prop where
  built : c.network.Built
  registered : c.plane.Registered
  hosted : ∀ v n, c.host? v = some n → c.network.topology.checkHost n = .ok ()

namespace Housed

theorem acts (h : Housed c) (ha : ActsFreely c c') : Housed c' := by
  obtain ⟨hregistered, hfabric⟩ := ha.toRuns.registered (fun _ _ _ => trivial) h.registered
  refine ⟨hfabric.built h.built, hregistered, fun v n hn => ?_⟩
  rw [hfabric.topology]
  exact h.hosted v n ((host?_congr ha.placement v).symm.trans hn)

/-- A machine may be placed on any host. -/
theorem place (h : Housed c) (hplane : c'.plane = c.plane) {vm : VmId} {host : NodeId}
    (hplaced : ∀ v, c'.host? v = if v = vm then some host else c.host? v)
    (hhost : c.network.topology.checkHost host = .ok ()) : Housed c' := by
  have hnet : c'.network = c.network := congrArg DataPlane.network hplane
  refine ⟨hnet ▸ h.built, hplane ▸ h.registered, fun v n hn => ?_⟩
  rw [hnet]
  rw [hplaced] at hn
  split at hn
  · cases hn
    exact hhost
  · exact h.hosted v n hn

theorem ends (h : Housed c) {src dst : NodeId} (hends : c.hosts? key = some (src, dst)) :
    c.network.topology.checkHost src = .ok () ∧ c.network.topology.checkHost dst = .ok () := by
  obtain ⟨hsrc, hdst⟩ := hosts?_eq_some_iff.mp hends
  exact ⟨h.hosted _ _ hsrc, h.hosted _ _ hdst⟩

/-- The channel and the entries of a flow may be given another way between its hosts. -/
theorem adopt (h : Housed c) {src dst : NodeId} (hends : c.hosts? key = some (src, dst))
    {net : Network R} (htouches : Touches key c.network net) {p : Path}
    (hway : Way c.network.topology src dst p) (hdescribes : net.Describes key p) :
    ActsFreely c (c.adopt net key p) ∧ Spares [key] c (c.adopt net key p) ∧
      (c.adopt net key p).Agrees key := by
  obtain ⟨hspares, hentries, hpath⟩ := spares_adopt h.registered htouches p
  refine ⟨(works_adopt c htouches hway.hops_ne_nil).acts, hspares, Or.inr ?_⟩
  refine ⟨src, dst, p, (hspares.hosts? key).trans hends, hspares.topology ▸ hway, ?_, ?_⟩
  · intro n m
    rw [hentries]
    exact hdescribes n m
  · intro q hq
    rw [hpath] at hq
    obtain ⟨_, _, heq⟩ := Option.map_eq_some_iff.mp hq
    exact heq.symm

end Housed

/-- Besides, what is known of every flow agrees. -/
structure Orderly (c : Controller R ε) : Prop extends Housed c where
  agrees : ∀ key, c.Agrees key

namespace Orderly

theorem calm (h : Orderly c) (hc : Calm c c') (hregistered : c'.plane.Registered) : Orderly c' := by
  refine ⟨⟨hc.network.sameFabric.built h.built, hregistered, fun v n hn => ?_⟩,
    fun key => hc.agrees (h.agrees key)⟩
  rw [hc.network.topology]
  exact h.hosted v n ((host?_congr hc.placement v).symm.trans hn)

/-- A change of neither places nor plane. -/
theorem same (h : Orderly c) (hplacement : c'.placement = c.placement)
    (hplane : c'.plane = c.plane) : Orderly c' :=
  h.calm (.same hplacement hplane) (hplane ▸ h.registered)

/-- A call that is about one flow has to see to no other one. -/
theorem spares (h : Orderly c) (ha : ActsFreely c c') (hs : Spares [key] c c')
    (hkey : c'.Agrees key) : Orderly c' := by
  refine ⟨h.toHoused.acts ha, fun k => ?_⟩
  by_cases hk : k = key
  · rw [hk]
    exact hkey
  · exact hs.agrees (fun hmem => hk (List.mem_singleton.mp hmem)) (h.agrees k)

theorem process (h : Orderly c) : Orderly c.process := by
  have ha : ActsFreely c c.process := acts_process c
  refine h.calm ⟨ha.placement, reloads_process h.registered, fun k q hq => ?_⟩
    (h.toHoused.acts ha).registered
  rw [plane_process] at hq
  split at hq
  · exact hq
  · rw [(DataPlane.moves_advance h.registered c.now).2] at hq
    split at hq
    · cases hq
    · exact hq

theorem scheduleUpdate (h : Orderly c) : Orderly c.scheduleUpdate := by
  have ha : ActsFreely c c.scheduleUpdate := acts_scheduleUpdate c
  exact h.same ha.placement (plane_scheduleUpdate c)

theorem scheduleTick (h : Orderly c) : Orderly c.scheduleTick := by
  have ha : ActsFreely c c.scheduleTick := acts_scheduleTick c
  exact h.same ha.placement (plane_scheduleTick c)

theorem handle (h : Orderly c) (what : Notice R ε) : Orderly (c.handle what) := by
  cases what with
  | update =>
    let woken : Controller R ε :=
      { c with pendingUpdate := none, stats := { c.stats with updates := c.stats.updates + 1 } }
    have hwoken : Orderly woken := h.same rfl rfl
    exact hwoken.process.scheduleUpdate
  | tick =>
    let woken : Controller R ε := { c with pendingTick := none }
    have hwoken : Orderly woken := h.same rfl rfl
    let sampled : Controller R ε :=
      { woken.process with
        telemetry := woken.process.telemetry.record woken.process.plane woken.process.now }
    have hsampled : Orderly sampled := hwoken.process.same rfl rfl
    show Orderly (if sampled.plane.channels.isEmpty then sampled
      else sampled.scheduleTick).scheduleUpdate
    split
    · exact hsampled.scheduleUpdate
    · exact hsampled.scheduleTick.scheduleUpdate
  | completed => exact h
  | failed => exact h
  | external => exact h

section Search

variable {src dst : NodeId}

/-- A path that is looked up is the way of the flow from then on.
The way of a live channel has to stay what it is. -/
theorem resolve (h : Orderly c) (hends : c.hosts? key = some (src, dst)) {dynamic : Bool}
    (hlive : dynamic = true → c.plane.path? key = none)
    (hreturns : Returns (c.resolve key src dst dynamic).1) :
    ∃ p, (c.resolve key src dst dynamic).1 = .ok p ∧ Way c.network.topology src dst p ∧
      (c.resolve key src dst dynamic).2.network.Describes key p ∧
      Orderly (c.resolve key src dst dynamic).2 := by
  obtain ⟨hsrc, hdst⟩ := h.ends hends
  have htouches := Network.touches_resolve c.select c.network key src dst dynamic
  have ha : ActsFreely c (c.resolve key src dst dynamic).2 :=
    (works_resolve c key src dst dynamic).acts
  unfold Controller.resolve at hreturns ha ⊢
  cases hpath : c.plane.path? key with
  | some q =>
    obtain ⟨src', dst', hends', hway, hdescribes⟩ := (h.agrees key).of_path hpath
    cases hends.symm.trans hends'
    -- The channel would fall behind if its entries were adapted here; they are read back as they
    -- are.
    have hstatic : dynamic = false := by
      cases dynamic with
      | false => rfl
      | true => cases hpath.symm.trans (hlive rfl)
    rw [hstatic, Network.resolve_of_way h.built hsrc hdst hway hdescribes]
    exact ⟨q, rfl, hway, hdescribes, h⟩
  | none =>
    rcases Network.resolve_way h.built (picks_select c c.network) hsrc hdst dynamic
      ((h.agrees key).between hends) with ⟨p, net, heq, hway, hdescribes⟩ | ⟨e, net, heq, hdead⟩
    · rw [heq] at htouches ha ⊢
      refine ⟨p, rfl, hway, hdescribes, h.spares ha (.withNetwork htouches) (Or.inr ?_)⟩
      refine ⟨src, dst, p, hends, ?_, hdescribes, fun q hq => ?_⟩
      · have htopology : net.topology = c.network.topology := htouches.topology
        exact htopology ▸ hway
      · cases hpath.symm.trans hq
    · rw [heq] at hreturns
      cases hdead.symm.trans hreturns

/-- Looking up a path without adapting it is safe for live channels, too. -/
theorem resolve_static (h : Orderly c) (hends : c.hosts? key = some (src, dst))
    (hreturns : Returns (c.resolve key src dst false).1) :
    Orderly (c.resolve key src dst false).2 := by
  have hlive : false = true → c.plane.path? key = none := fun hfalse => by cases hfalse
  obtain ⟨_, _, _, _, horderly⟩ := h.resolve hends hlive hreturns
  exact horderly

theorem deploy (h : Orderly c) (hreturns : Returns (c.deploy key).1) :
    Orderly (c.deploy key).2 := by
  rcases c.deploy_cases key with ⟨_, heq⟩ | ⟨src, dst, hends, heq⟩
  all_goals rw [heq] at hreturns ⊢
  · exact h
  · exact h.resolve_static hends (returns_map.mp hreturns)

theorem addFlow (h : Orderly c) (f : Flow R) (hreturns : Returns (c.addFlow f).1) :
    Orderly (c.addFlow f).2 := by
  have hdeploy : Returns (c.deploy f.key).1 → Orderly (c.deploy f.key).2 := h.deploy
  rcases c.addFlow_cases f with ⟨e, heq⟩ | ⟨e, c', _, hdeployed, heq⟩ | ⟨c', _, hdeployed, heq⟩
  · rw [heq]
    exact h
  · rw [hdeployed] at hdeploy
    rw [heq] at hreturns ⊢
    exact hdeploy hreturns
  · rw [hdeployed] at hdeploy
    rw [heq]
    exact (hdeploy trivial).same rfl rfl

theorem addChain (h : Orderly c) (chain : ServiceChain R) : Orderly (c.addChain chain).2 := by
  unfold Controller.addChain
  split
  · exact h
  · exact h.same rfl rfl

theorem latency (h : Orderly c) (hreturns : Returns (c.latency key).1) :
    Orderly (c.latency key).2 := by
  rcases c.latency_cases key with ⟨channel, _, heq⟩ | ⟨e, _, heq⟩ | ⟨src, dst, hfound, heq⟩
  all_goals rw [heq] at hreturns ⊢
  · exact h
  · exact h
  · exact h.resolve_static (hosts?_of_findHosts hfound) (returns_map.mp hreturns)

/-- A channel may be added over the way that the entries describe. -/
theorem add (h : Orderly c) (hends : c.hosts? key = some (src, dst)) {p : Path}
    (hway : Way c.network.topology src dst p) (hdescribes : c.network.Describes key p)
    (requested : R) (discipline : Discipline) (timeout : Option R) :
    Orderly { c with
      plane := c.plane.add (Channel.create key p requested discipline timeout) c.now } := by
  obtain ⟨hnet, hpath⟩ :=
    h.registered.moves_add (c := Channel.create key p requested discipline timeout) rfl c.now
  refine h.spares (.perform c c.now (.add key p requested discipline timeout) fun _ => ?_)
    ⟨rfl, rfl, hnet.topology, fun k _ n => hnet.next? n k, fun k hk => (hpath k).trans (if_neg ?_)⟩
    (Or.inr ⟨src, dst, p, hends, hnet.topology ▸ hway, fun n m => ?_, fun q hq => ?_⟩)
  · let f : Flow R := ⟨key.flow, "", key.src, key.dst, requested, none⟩
    exact ⟨hway.hops_ne_nil, Or.inr (Or.inr ⟨f.id, f, trivial, rfl⟩)⟩
  · exact fun heq => hk (List.mem_singleton.mpr heq)
  · let channel := Channel.create key p requested discipline timeout
    show (c.plane.add channel c.now).network.next? n key = some m ↔ _
    rw [hnet.next? n key]
    exact hdescribes n m
  · exact Option.some.inj (hq.symm.trans ((hpath key).trans (if_pos rfl)))

theorem openChannel (h : Orderly c) (hreturns : Returns (c.openChannel key).1) :
    Orderly (c.openChannel key).2 := by
  -- A flow without a channel may be looked up either way.
  have hlive {dynamic : Bool} (hnone : c.plane.channel? key = none) :
      dynamic = true → c.plane.path? key = none := by
    intro _
    unfold DataPlane.path?
    rw [hnone]
    rfl
  rcases c.openChannel_cases key with ⟨channel, _, heq⟩ | ⟨e, _, heq⟩ |
    ⟨src, dst, e, c', hnone, hhosts, hfound, heq⟩ | ⟨src, dst, path, c', hnone, hhosts, hfound, heq⟩
  · rw [heq]
    exact h
  · rw [heq]
    exact h
  · have hreturned : Returns (c.resolve key src dst c.settings.dynamicRouting).1 := by
      rw [heq] at hreturns
      rw [hfound]
      exact hreturns
    obtain ⟨p, hp, _⟩ := h.resolve (hosts?_of_findHosts hhosts) (hlive hnone) hreturned
    cases (congrArg Prod.fst hfound).symm.trans hp
  · have hends := hosts?_of_findHosts hhosts
    have hreturned : Returns (c.resolve key src dst c.settings.dynamicRouting).1 := by
      rw [hfound]
      trivial
    have htouches :=
      Network.touches_resolve c.select c.network key src dst c.settings.dynamicRouting
    have htopology : (c.resolve key src dst c.settings.dynamicRouting).2.network.topology =
        c.network.topology := htouches.topology
    obtain ⟨p, hp, hway, hdescribes, horderly⟩ := h.resolve hends (hlive hnone) hreturned
    have hends' : (c.resolve key src dst c.settings.dynamicRouting).2.hosts? key =
        some (src, dst) :=
      hends
    rw [hfound] at hp htopology hdescribes horderly hends'
    cases hp
    have hadded := horderly.add hends' (htopology ▸ hway) hdescribes (c.requested key.flow)
      c'.plane.discipline c'.plane.defaultTimeout
    rw [heq]
    exact hadded.same rfl rfl

theorem send (h : Orderly c) (packet : Packet R) (hreturns : Returns (c.send packet).1) :
    Orderly (c.send packet).2 := by
  have hopen : Returns (c.process.openChannel (c.effective packet).key).1 →
      Orderly (c.process.openChannel (c.effective packet).key).2 := h.process.openChannel
  rcases c.send_cases packet with ⟨e, heq⟩ | ⟨e, c', hopened, heq⟩ | ⟨c', _, hopened, heq⟩
  · rw [heq]
    exact h
  · rw [hopened] at hopen
    rw [heq] at hreturns ⊢
    exact hopen hreturns
  · rw [hopened] at hopen
    have h' : Orderly c' := hopen trivial
    let t := Transmission.ofPacket (c.effective packet) c'.now
    let sent : Controller R ε :=
      { c' with plane := (c'.plane.send (c.effective packet).key t c'.now).2 }
    have hstays := h'.registered.stays_send (c.effective packet).key t c'.now
    have hsent : Orderly sent := h'.calm (.of_stays rfl hstays)
      (h'.registered.perform c'.now (.send (c.effective packet).key t))
    rw [heq]
    exact hsent.scheduleUpdate.scheduleTick

theorem adaptPath (h : Orderly c) {channel : Channel R} (hc : c.plane.channel? key = some channel)
    (hreturns : Returns (c.adaptPath channel).1) : Orderly (c.adaptPath channel).2 := by
  have hpath : c.plane.path? key = some channel.path :=
    DataPlane.path?_eq_some_iff.mpr ⟨channel, hc, rfl⟩
  obtain ⟨src, dst, hends, hway, hdescribes⟩ := (h.agrees key).of_path hpath
  obtain ⟨hsrc, hdst⟩ := h.ends hends
  have htouches := Network.touches_update c.select c.network key src dst
  -- The channel runs over the way of its flow, so that its ends are the hosts of the machines.
  have hkey : channel.key = key := h.registered.key key channel hc
  have hsource : channel.source = src := hway.start
  have hdestination : channel.destination = dst := hway.last
  unfold Controller.adaptPath at hreturns ⊢
  rw [hkey, hsource, hdestination] at hreturns ⊢
  dsimp only at hreturns ⊢
  rcases Network.update_ends h.built (picks_select c c.network) hsrc hdst
      (fun hne => hway.traced hne hdescribes) with
    heq | ⟨p, net, heq, hway', hdescribes'⟩ | ⟨e, net, heq, hdead, _⟩
  · rw [heq]
    exact h
  · rw [heq] at htouches ⊢
    have htopology : net.topology = c.network.topology := htouches.topology
    have hwalk : net.walk key src dst = .ok p :=
      Network.walk_eq (htopology ▸ h.built.routed.1)
        (htopology ▸ Network.lt_size_of_checkHost hsrc) (htopology ▸ hway') hdescribes'
    dsimp only
    rw [hwalk]
    obtain ⟨ha, hspares, hagrees⟩ := h.toHoused.adopt hends htouches hway' hdescribes'
    exact h.spares ha hspares hagrees
  · rw [heq] at hreturns
    cases hdead.symm.trans hreturns

theorem setBandwidth (h : Orderly c) (key : FlowKey) (bandwidth : R)
    (hreturns : Returns (c.setBandwidth key bandwidth).1) :
    Orderly (c.setBandwidth key bandwidth).2 := by
  -- What is registered of a flow has no say in where it runs.
  have hregistered : Orderly (c.registerBandwidth key bandwidth) := h.same rfl rfl
  have hprocessed := hregistered.process
  generalize hc : (c.registerBandwidth key bandwidth).process = c' at hprocessed
  rcases c.setBandwidth_cases key bandwidth hc with ⟨e, heq⟩ | ⟨_, _, heq⟩ |
    ⟨channel, e, c'', _, hchannel, _, hadapted, heq⟩ | ⟨channel, c'', _, hchannel, hadapted, heq⟩
  all_goals rw [heq] at hreturns ⊢
  · exact h
  · exact hprocessed
  · have hadapt : Returns (c'.adaptPath channel).1 → Orderly (c'.adaptPath channel).2 :=
      hprocessed.adaptPath hchannel
    rw [hadapted] at hadapt
    exact hadapt hreturns
  · have h'' : Orderly c'' := by
      rcases hadapted with rfl | hadapted
      · exact hprocessed
      · have hadapt : Returns (c'.adaptPath channel).1 → Orderly (c'.adaptPath channel).2 :=
          hprocessed.adaptPath hchannel
        rw [hadapted] at hadapt
        exact hadapt trivial
    let changed : Controller R ε :=
      { c'' with plane := (c''.plane.setRequested key bandwidth c''.now).2 }
    have hstays := h''.registered.stays_setRequested key bandwidth c''.now
    have hchanged : Orderly changed := h''.calm (.of_stays rfl hstays)
      (h''.registered.perform c''.now (.setRequested key bandwidth))
    exact hchanged.scheduleUpdate

theorem setFlowBandwidth (h : Orderly c) (flow : FlowId) (bandwidth : R)
    (hreturns : Returns (c.setFlowBandwidth flow bandwidth).1) :
    Orderly (c.setFlowBandwidth flow bandwidth).2 := by
  unfold Controller.setFlowBandwidth at hreturns ⊢
  split
  · exact h
  · rename_i f hf
    rw [hf] at hreturns
    exact h.setBandwidth _ bandwidth hreturns

end Search

end Orderly

section Place

variable {vm : VmId} {old new : NodeId}

/-- The flow has no channel unless its machines have hosts. -/
def Anchored (c : Controller R ε) (key : FlowKey) : Prop :=
  ∀ q, c.plane.path? key = some q → ∃ ends, c.hosts? key = some ends

omit [Quantity R] in
theorem Agrees.anchored (h : c.Agrees key) : c.Anchored key := by
  intro q hq
  obtain ⟨src, dst, hends, _⟩ := h.of_path hq
  exact ⟨(src, dst), hends⟩

/-- A flow is moved to a way between the present hosts of its machines, or it leaves the network for
want of a host, or there is a dead end. -/
theorem Housed.moveFlow (h : Housed c) (hold : c.network.topology.containsNode old = true)
    (hkey : c.Anchored key) :
    (∃ c', c.moveFlow vm old key = (.ok (), c') ∧ Housed c' ∧ Spares [key] c c' ∧ c'.Agrees key) ∨
    ∃ e c', c.moveFlow vm old key = (.error e, c') ∧ e.isDeadEnd = true := by
  have hstart : ∀ src dst, c.hosts? key = some (src, dst) →
      c.network.topology.containsNode (if key.src = vm then old else src) = true := by
    intro src dst hends
    split
    · exact hold
    · exact decide_eq_true (Network.lt_size_of_checkHost (h.ends hends).1)
  -- Each outcome of the search is one of the ways in which the move can end.
  have hhoused : Housed (c.moveFlow vm old key).2 := h.acts (works_moveFlow c vm old key).acts
  have hcleared := Touches.clear c.network key
  have hlacks := Network.lacks_clear c.network key
  have hsearch {src dst : NodeId} (hends : c.hosts? key = some (src, dst)) :=
    Network.build_way (hcleared.sameFabric.built h.built) (picks_select c (c.network.clear key).2)
      (h.ends hends).1 (h.ends hends).2 hlacks
  rcases moveFlow_ends hstart with ⟨hnone, hmoved⟩ | ⟨src, dst, p, net, hends, hbuild, hmoved⟩ |
    ⟨src, dst, e, net, hends, hbuild, hmoved⟩
  · rw [hmoved] at hhoused ⊢
    refine Or.inl ⟨_, rfl, hhoused, .withNetwork hcleared, Or.inl ⟨hlacks, ?_⟩⟩
    -- There is no channel either, for the machines would then have hosts.
    refine Option.eq_none_iff_forall_ne_some.mpr fun q hq => ?_
    obtain ⟨ends, hends⟩ := hkey q hq
    cases hnone.symm.trans hends
  · obtain ⟨p', net', hbuild', hway, hdescribes⟩ := (hsearch hends).resolve_right
      fun ⟨_, _, herror, _⟩ => by cases hbuild.symm.trans herror
    cases hbuild.symm.trans hbuild'
    have htouches := hcleared.trans
      (Network.touches_build c.select (c.network.clear key).2 key src dst)
    rw [hbuild] at htouches
    obtain ⟨_, hspares, hagrees⟩ := h.adopt hends htouches hway hdescribes
    rw [hmoved] at hhoused ⊢
    exact Or.inl ⟨_, rfl, hhoused, hspares, hagrees⟩
  · obtain ⟨e', net', hbuild', hdead⟩ := (hsearch hends).resolve_left
      fun ⟨_, _, hok, _⟩ => by cases hbuild.symm.trans hok
    cases hbuild.symm.trans hbuild'
    exact Or.inr ⟨e, _, hmoved, hdead⟩

/-- A dead end shows in the outcome, whatever becomes of the flows that come after it. -/
theorem not_returns_moveFlows {rest : List FlowKey} {e : Fault R}
    (heq : c.moveFlow vm old key = (.error e, c')) (hdead : e.isDeadEnd = true) :
    ¬ Returns (moveFlows vm old (key :: rest) c).1 := by
  have hstuck : ¬ Returns (.error e : Except (Fault R) Unit) := fun hreturns => by
    cases hdead.symm.trans hreturns
  unfold moveFlows
  rw [heq]
  dsimp only
  split
  · exact hstuck
  · split
    · exact hstuck
    · split
      · rename_i hbreach
        intro hreturns
        cases (Fault.isDeadEnd_of_isBreach hbreach).symm.trans hreturns
      · exact hstuck

/-- Flows that are to be moved need not agree before it is their turn. -/
theorem Housed.moveFlows {keys : List FlowKey} (h : Housed c)
    (hold : c.network.topology.containsNode old = true)
    (hkeys : ∀ key, c.Agrees key ∨ (key ∈ keys ∧ c.Anchored key))
    (hreturns : Returns (moveFlows vm old keys c).1) :
    Orderly (Controller.moveFlows vm old keys c).2 := by
  -- By induction on the flows to come: each of the others agrees, or its turn is still to come.
  induction keys generalizing c with
  | nil => exact ⟨h, fun key => (hkeys key).resolve_right fun hrest => by cases hrest.1⟩
  | cons key rest ih =>
    have hkey : c.Anchored key := (hkeys key).elim Agrees.anchored And.right
    rcases h.moveFlow hold hkey with ⟨c', heq, hhoused, hspares, hagrees⟩ | ⟨e, c', heq, hdead⟩
    · unfold Controller.moveFlows at hreturns ⊢
      rw [heq] at hreturns ⊢
      refine ih hhoused (hspares.topology ▸ hold) (fun k => ?_) hreturns
      by_cases hk : k = key
      · exact Or.inl (hk ▸ hagrees)
      · have hapart : k ∉ [key] := fun hmem => hk (List.mem_singleton.mp hmem)
        rcases hkeys k with hagrees' | ⟨hmem, hanchored⟩
        · exact Or.inl (hspares.agrees hapart hagrees')
        · refine Or.inr ⟨(List.mem_cons.mp hmem).resolve_left hk, fun q hq => ?_⟩
          rw [hspares.hosts?]
          exact hanchored q ((hspares.path k hapart).symm.trans hq)
    · exact absurd hreturns (not_returns_moveFlows heq hdead)

/-- When a machine has been placed anew,
the flows that it takes along are the only ones that may not agree. -/
theorem Orderly.relocate (h : Orderly c) (vm : VmId)
    (hnew : c.network.topology.checkHost new = .ok ()) :
    Housed (c.relocate vm new) ∧ ∀ key, (c.relocate vm new).Agrees key ∨
      (key ∈ (c.relocate vm new).flowsToMove vm ∧ (c.relocate vm new).Anchored key) := by
  have hprocessed := h.process
  have hhost (v : VmId) : (c.relocate vm new).host? v =
      if v = vm then some new else c.process.host? v := by
    rw [host?_relocate, host?_congr (sameButReports_process c).placement]
  have hkept {v : VmId} {n : NodeId} (hn : c.process.host? v = some n) :
      ∃ m, (c.relocate vm new).host? v = some m := by
    rw [hhost]
    split
    · exact ⟨new, rfl⟩
    · exact ⟨n, hn⟩
  have hnew' : c.process.network.topology.checkHost new = .ok () := by
    rw [(reloads_process h.registered).topology]
    exact hnew
  refine ⟨hprocessed.toHoused.place rfl hhost hnew', fun key => ?_⟩
  rcases hprocessed.agrees key with hnone | ⟨src, dst, p, hends, hway, hdescribes, hlive⟩
  · exact Or.inl (Or.inl hnone)
  · obtain ⟨hsrc, hdst⟩ := hosts?_eq_some_iff.mp hends
    cases htouches : key.touches vm with
    | true =>
      -- The flow has entries, so that it is among those that the machine takes along.
      have hknows : (c.relocate vm new).Knows key := Or.inr (Or.inr ⟨src, hway.next? hdescribes⟩)
      obtain ⟨src', hsrc'⟩ := hkept hsrc
      obtain ⟨dst', hdst'⟩ := hkept hdst
      exact Or.inr ⟨mem_flowsToMove.mpr ⟨htouches, hknows⟩,
        fun _ _ => ⟨(src', dst'), hosts?_eq_some_iff.mpr ⟨hsrc', hdst'⟩⟩⟩
    | false =>
      obtain ⟨hsrcNe, hdstNe⟩ : key.src ≠ vm ∧ key.dst ≠ vm := by
        simpa [FlowKey.touches] using htouches
      have hsame : (c.relocate vm new).hosts? key = some (src, dst) := by
        refine hosts?_eq_some_iff.mpr ⟨?_, ?_⟩
        · rw [hhost, if_neg hsrcNe, hsrc]
        · rw [hhost, if_neg hdstNe, hdst]
      exact Or.inl (Or.inr ⟨src, dst, p, hsame, hway, hdescribes, hlive⟩)

/-- A migration brings all flows of the machine between their present hosts. -/
theorem Orderly.migrate (h : Orderly c) (hreturns : Returns (c.migrate vm old new).1) :
    Orderly (c.migrate vm old new).2 := by
  rcases c.migrate_cases vm old new with ⟨e, _, heq⟩ | ⟨hcheck, heq⟩
  · rw [heq]
    exact h
  · rw [heq] at hreturns ⊢
    obtain ⟨hold, hnew⟩ := checkMove_ok hcheck
    obtain ⟨hhoused, hkeys⟩ := h.relocate vm hnew
    have hold' : (c.relocate vm new).network.topology.containsNode old = true := by
      show c.process.network.topology.containsNode old = true
      rw [(reloads_process h.registered).topology]
      exact hold
    have hmoved := hhoused.moveFlows hold' hkeys hreturns
    let moved := (moveFlows vm old ((c.relocate vm new).flowsToMove vm) (c.relocate vm new)).2
    let counted : Controller R ε :=
      { moved with stats := { moved.stats with migrations := moved.stats.migrations + 1 } }
    have hcounted : Orderly counted := hmoved.same rfl rfl
    exact hcounted.scheduleUpdate

/-- A machine may be added if it does not run on another host. -/
theorem Orderly.addVm (h : Orderly c) (machine : Vm) (host : NodeId)
    (hstays : c.host? machine.id = none ∨
      (c.addVm machine host).2.host? machine.id = c.host? machine.id) :
    Orderly (c.addVm machine host).2 := by
  unfold Controller.addVm at hstays ⊢
  split
  · exact h
  · rename_i hcheck
    rw [hcheck] at hstays
    let added : Controller R ε :=
      { c with
        placement := c.placement.place machine.id (some host)
        registry := c.registry.addVm machine }
    have hhost (v : VmId) : added.host? v = if v = machine.id then some host else c.host? v :=
      c.placement.host?_place machine.id host v
    -- No way ends at a machine without a host, so that none depends on where that one goes.
    have hkept {v : VmId} {n : NodeId} (hn : c.host? v = some n) : added.host? v = some n := by
      by_cases hv : v = machine.id
      · rw [hv] at hn ⊢
        rcases hstays with hnone | hsame
        · cases hnone.symm.trans hn
        · exact hsame.trans hn
      · rw [hhost, if_neg hv]
        exact hn
    refine ⟨h.toHoused.place rfl hhost hcheck, fun key => (h.agrees key).keep ?_ rfl
      (fun _ => rfl) fun _ hq => hq⟩
    rintro ⟨src, dst⟩ hends
    obtain ⟨hsrc, hdst⟩ := hosts?_eq_some_iff.mp hends
    exact hosts?_eq_some_iff.mpr ⟨hkept hsrc, hkept hdst⟩

end Place

/-- What keeps the flows in order: a machine that has a host is not added on another one, nobody
else places machines, and calls that look for paths return and find routes. -/
def Action.Passes (c : Controller R ε) : Action R ε → Prop
  | .addVm vm host =>
    c.host? vm.id = none ∨ (c.addVm vm host).2.host? vm.id = c.host? vm.id
  | .addFlow flow => Returns (c.addFlow flow).1
  | .send packet => Returns (c.send packet).1
  | .setBandwidth key bandwidth => Returns (c.setBandwidth key bandwidth).1
  | .setFlowBandwidth flow bandwidth => Returns (c.setFlowBandwidth flow bandwidth).1
  | .migrate vm old new => Returns (c.migrate vm old new).1
  | .latency key => Returns (c.latency key).1
  | .revise _ placement => placement = c.placement
  | _ => True

instance (c : Controller R ε) (a : Action R ε) : Decidable (a.Passes c) :=
  match a with
  | .addVm vm host =>
    inferInstanceAs
      (Decidable (c.host? vm.id = none ∨ (c.addVm vm host).2.host? vm.id = c.host? vm.id))
  | .addFlow flow => inferInstanceAs (Decidable (Returns (c.addFlow flow).1))
  | .send packet => inferInstanceAs (Decidable (Returns (c.send packet).1))
  | .setBandwidth key bandwidth =>
    inferInstanceAs (Decidable (Returns (c.setBandwidth key bandwidth).1))
  | .setFlowBandwidth flow bandwidth =>
    inferInstanceAs (Decidable (Returns (c.setFlowBandwidth flow bandwidth).1))
  | .migrate vm old new => inferInstanceAs (Decidable (Returns (c.migrate vm old new).1))
  | .latency key => inferInstanceAs (Decidable (Returns (c.latency key).1))
  | .revise _ placement => inferInstanceAs (Decidable (placement = c.placement))
  | .addChain _ => isTrue trivial
  | .deliver _ => isTrue trivial
  | .plan _ _ => isTrue trivial

end Controller

namespace Journal

open Controller (Action Orderly)

/-- All steps of a run keep the flows in order, each where it is taken. -/
def Undisturbed (j : Journal R ε) : List (R × Action R ε) → Prop
  | [] => True
  | (time, a) :: rest =>
    a.Passes (j.controller.setClock time) ∧ (j.act time a).Undisturbed rest

def decidableUndisturbed : (j : Journal R ε) → (actions : List (R × Action R ε)) →
    Decidable (j.Undisturbed actions)
  | _, [] => isTrue trivial
  | j, (time, a) :: rest =>
    have := decidableUndisturbed (j.act time a) rest
    inferInstanceAs
      (Decidable (a.Passes (j.controller.setClock time) ∧ (j.act time a).Undisturbed rest))

instance (j : Journal R ε) (actions : List (R × Action R ε)) : Decidable (j.Undisturbed actions) :=
  decidableUndisturbed j actions

variable {j : Journal R ε}

theorem orderly_act (h : Orderly j.controller) (time : R) {a : Action R ε}
    (ha : a.Passes (j.controller.setClock time)) : Orderly (j.act time a).controller := by
  have hc : Orderly (j.controller.setClock time) := h.same rfl rfl
  cases a with
  | addVm vm host => exact hc.addVm vm host ha
  | addFlow flow => exact hc.addFlow flow ha
  | addChain chain => exact hc.addChain chain
  | send packet => exact hc.send packet ha
  | setBandwidth key bandwidth => exact hc.setBandwidth key bandwidth ha
  | setFlowBandwidth flow bandwidth => exact hc.setFlowBandwidth flow bandwidth ha
  | migrate vm old new => exact hc.migrate ha
  | latency key => exact hc.latency ha
  | deliver id =>
    unfold Journal.act
    dsimp only
    split
    · exact hc
    · rename_i e _
      let taken : Controller R ε :=
        { j.controller.setClock time with
          agenda := Simulation.cancel (j.controller.setClock time).agenda e.id }
      have htaken : Orderly taken := hc.same rfl rfl
      exact htaken.handle e.what
  | plan delay what => exact hc.same rfl rfl
  | revise registry placement => exact hc.same ha rfl

theorem orderly_run (h : Orderly j.controller) {actions : List (R × Action R ε)}
    (hrun : j.Undisturbed actions) : Orderly (j.run actions).controller := by
  induction actions generalizing j with
  | nil => exact h
  | cons a rest ih => exact ih (orderly_act h a.1 hrun.1) hrun.2

/-- In the beginning there is no flow that could be out of order. -/
theorem orderly_start {net : Network R} (hnet : net.Built) (hload : net.load = Table.empty)
    (hforwarding : net.forwarding = Table.empty) (settings : Settings R) :
    Orderly (start settings net : Journal R ε).controller := by
  obtain ⟨hbuilt, hregistered⟩ := registered_start (ε := ε) hnet hload settings
  refine ⟨⟨hbuilt, hregistered, fun v n hn => by cases hn⟩, fun key => Or.inl ⟨fun n => ?_, rfl⟩⟩
  obtain ⟨built, hplane, _, _, hforwarding', _⟩ := plane_start (ε := ε) settings net
  have hnetwork : (start settings net : Journal R ε).controller.network = built :=
    congrArg DataPlane.network hplane
  rw [hnetwork]
  unfold Network.next?
  rw [hforwarding', hforwarding]
  rfl

/-- At any point of a run that nothing has disturbed, placement, entries and channels agree. -/
theorem flows_agree {net : Network R} (hnet : net.Built) (hload : net.load = Table.empty)
    (hforwarding : net.forwarding = Table.empty) (settings : Settings R)
    {actions : List (R × Action R ε)} (h : (start settings net).Undisturbed actions)
    (key : FlowKey) : ((start settings net).run actions).controller.Agrees key :=
  (orderly_run (orderly_start hnet hload hforwarding settings) h).agrees key

/-- The receiver of the errand moves to the host of the sender,
and the packet in flight stays there. -/
theorem errand_flows_agree :
    let net : Network Exact := { Network.empty .tree with topology := Topology.rack }
    let actions := errand ++ [(1, .migrate 2 1 0)]
    net.Built ∧ rack.Undisturbed actions ∧
      (rack.run actions).controller.plane.path? ⟨1, 2, -1⟩ = some ⟨0, [⟨⟨0, .up⟩, 0⟩]⟩ ∧
      ∀ key, (rack.run actions).controller.Agrees key := by
  intro net actions
  have hnet : net.Built := .of_constructed Topology.rack_constructed
  have hrun : rack.Undisturbed actions := by decide +kernel
  exact ⟨hnet, hrun, by decide +kernel, flows_agree hnet rfl rfl Settings.default hrun⟩

/-- A machine that was only known by number is placed by a migration. It is then added, for the
first time, on another host, and its flow goes on to lead to the host where it was. -/
theorem added_machine_misleads_flow :
    let machine : Vm := ⟨2, "receiver", none⟩
    let first := (rack.run [(0, .addVm ⟨1, "sender", none⟩ 0)]).controller
    let actions : List (Exact × Action Exact Unit) := [(0, .addVm ⟨1, "sender", none⟩ 0),
      (0, .revise (first.registry.addVm machine) first.placement), (0, .migrate 2 1 1),
      (0, .send ⟨⟨1, 1, 2, -1⟩, [], 500, none, 1⟩)]
    let c := (rack.run actions).controller
    rack.Undisturbed actions ∧ Returns (c.addVm machine 0).1 ∧
      (c.addVm machine 0).2.hosts? ⟨1, 2, -1⟩ = some (0, 0) ∧
      (c.addVm machine 0).2.plane.path? ⟨1, 2, -1⟩ =
        some ⟨0, [⟨⟨2, .up⟩, 2⟩, ⟨⟨3, .down⟩, 1⟩]⟩ ∧
      ¬ (c.addVm machine 0).2.Agrees ⟨1, 2, -1⟩ := by
  intro machine first actions c
  have hhosts : (c.addVm machine 0).2.hosts? ⟨1, 2, -1⟩ = some (0, 0) := by decide +kernel
  have hpath : (c.addVm machine 0).2.plane.path? ⟨1, 2, -1⟩ =
      some ⟨0, [⟨⟨2, .up⟩, 2⟩, ⟨⟨3, .down⟩, 1⟩]⟩ := by decide +kernel
  refine ⟨by decide +kernel, by decide +kernel, hhosts, hpath, fun hagrees => ?_⟩
  obtain ⟨src, dst, hends, hway, _⟩ := hagrees.of_path hpath
  cases hhosts.symm.trans hends
  cases hway.last

end Journal

end FlowFabric
