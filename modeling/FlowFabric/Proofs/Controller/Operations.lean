import FlowFabric.Proofs.Controller.Journal
import FlowFabric.Proofs.Network.Entries
import FlowFabric.Proofs.Quantity.Bandwidth

namespace FlowFabric

variable {R ε : Type} [Quantity R]

namespace DataPlane

/-- The second plane is the first one after operations that meet a condition, at any times. -/
abbrev Reaches (Q : Operation R → Prop) : DataPlane R → DataPlane R → Prop :=
  Relation.ReflTransGen fun dp dp' => ∃ time op, Q op ∧ dp' = dp.perform time op

namespace Reaches

variable {Q : Operation R → Prop} {dp dp' : DataPlane R}

theorem one (dp : DataPlane R) (time : R) (op : Operation R) (hop : Q op) :
    Reaches Q dp (dp.perform time op) :=
  .single ⟨time, op, hop, rfl⟩

/-- What each of the operations keeps holds in the end. -/
theorem keeps {P : DataPlane R → Prop}
    (hstep : ∀ dp time op, Q op → P dp → P (dp.perform time op)) (h : Reaches Q dp dp')
    (hp : P dp) : P dp' := by
  induction h with
  | refl => exact hp
  | tail _ hone ih =>
    obtain ⟨time, op, hop, rfl⟩ := hone
    exact hstep _ time op hop ih

end Reaches

end DataPlane

namespace Controller

open DataPlane (Operation Reaches)

/-- A condition on flows and their numbers that flows meet when they are registered, and that they
go on to meet when the bandwidth that they ask for is changed. -/
structure Admits (P : FlowId → Flow R → Prop) : Prop where
  added : ∀ f, checkRequest f.bandwidth = .ok () → P f.id f
  changed : ∀ id f bandwidth, P id f → checkRequest bandwidth = .ok () → P id { f with bandwidth }

theorem admits_anything : Admits fun (_ : FlowId) (_ : Flow R) => True :=
  ⟨fun _ _ => trivial, fun _ _ _ _ _ => trivial⟩

/-- The flows of a registry meet a condition. -/
def Registers (P : FlowId → Flow R → Prop) (registry : Registry R) : Prop :=
  ∀ id f, registry.flow? id = some f → P id f

/-- A bandwidth that is asked for is none, or it is not refused,
or a flow that meets a condition asks for it. -/
def Asked (P : FlowId → Flow R → Prop) (bandwidth : R) : Prop :=
  bandwidth = 0 ∨ checkRequest bandwidth = .ok () ∨ ∃ id f, P id f ∧ f.bandwidth = bandwidth

theorem isFinite_of_checkRequest {bandwidth : R} (h : checkRequest bandwidth = .ok ()) :
    Quantity.isFinite bandwidth = true := by
  unfold checkRequest at h
  split at h
  · cases h
  · rename_i hadmitted
    rw [Bool.or_eq_true, not_or, Bool.not_eq_true', Bool.not_eq_false] at hadmitted
    exact hadmitted.1

theorem Asked.isFinite [BandwidthLaws R] {P : FlowId → Flow R → Prop} {bandwidth : R}
    (h : Asked P bandwidth) (hP : ∀ id f, P id f → Quantity.isFinite f.bandwidth = true) :
    Quantity.isFinite bandwidth = true := by
  obtain rfl | hchecked | ⟨id, f, hf, rfl⟩ := h
  · exact BandwidthLaws.finite_zero
  · exact isFinite_of_checkRequest hchecked
  · exact hP id f hf

/-- The operations that a controller uses if its flows meet a condition: paths have hops, bandwidths
are asked for, and what is sent is a packet of an admitted size, of which nothing has been sent
yet. -/
def Issues (P : FlowId → Flow R → Prop) : Operation R → Prop
  | .add _ path requested _ _ => path.hops ≠ [] ∧ Asked P requested
  | .setRequested _ requested => Asked P requested
  | .reroute _ path => path.hops ≠ []
  | .send _ t => ∃ p time, checkSize p.size = .ok () ∧ t = Transmission.ofPacket p time
  | _ => True

/-- The second controller has the settings of the first one. As long as the flows meet a condition
they go on to do so, and the plane changes by operations. -/
structure Runs [Simulation R] (P : FlowId → Flow R → Prop) (c c' : Controller R ε) : Prop where
  settings : c'.settings = c.settings
  registers : Registers P c.registry → Registers P c'.registry
  plane : Registers P c.registry → Reaches (Issues P) c.plane c'.plane

variable [Simulation R]

namespace Runs

variable {P : FlowId → Flow R → Prop} {c c' c'' : Controller R ε}

/-- A change of neither settings nor registry nor plane. -/
theorem same (hsettings : c'.settings = c.settings) (hregistry : c'.registry = c.registry)
    (hplane : c'.plane = c.plane) : Runs P c c' :=
  ⟨hsettings, fun h => hregistry ▸ h, fun _ => hplane ▸ .refl⟩

theorem refl (c : Controller R ε) : Runs P c c := .same rfl rfl rfl

theorem trans (h : Runs P c c') (h' : Runs P c' c'') : Runs P c c'' :=
  ⟨h'.settings.trans h.settings, fun ha => h'.registers (h.registers ha),
    fun ha => (h.plane ha).trans (h'.plane (h.registers ha))⟩

end Runs

/-- To put in a network with other entries is an operation of the plane. -/
theorem plane_withNetwork {c : Controller R ε} {key : FlowKey} {net : Network R}
    (h : Network.Touches key c.network net) (time : R) :
    (c.withNetwork net).plane = c.plane.perform time (.forward net.forwarding) := by
  show { c.plane with network := net } =
    { c.plane with network := c.network.withForwarding net.forwarding }
  rw [← h.rest]

/-- Besides, the second controller knows the same places. -/
structure Acts (P : FlowId → Flow R → Prop) (c c' : Controller R ε) : Prop extends Runs P c c' where
  placement : c'.placement = c.placement

namespace Acts

variable {P : FlowId → Flow R → Prop} {c c' c'' : Controller R ε}

theorem same (hsettings : c'.settings = c.settings) (hplacement : c'.placement = c.placement)
    (hregistry : c'.registry = c.registry) (hplane : c'.plane = c.plane) : Acts P c c' :=
  ⟨.same hsettings hregistry hplane, hplacement⟩

theorem refl (c : Controller R ε) : Acts P c c := ⟨.refl c, rfl⟩

theorem trans (h : Acts P c c') (h' : Acts P c' c'') : Acts P c c'' :=
  ⟨h.toRuns.trans h'.toRuns, h'.placement.trans h.placement⟩

theorem perform (c : Controller R ε) (time : R) (op : Operation R)
    (hop : Registers P c.registry → Issues P op) :
    Acts P c { c with plane := c.plane.perform time op } :=
  ⟨⟨rfl, id, fun h => .one c.plane time op (hop h)⟩, rfl⟩

end Acts

/-- What is done to a plane once its channels have been looked at: other forwarding entries are put
in, a channel is moved, or one is added that is like the plane wants them. -/
inductive Lays (P : FlowId → Flow R → Prop) (time : R) (dp : DataPlane R) : DataPlane R → Prop where
  | forward (entries : Table (NodeId × FlowKey) NodeId) :
    Lays P time dp (dp.perform time (.forward entries))
  | reroute (key : FlowKey) {path : Path} (h : path.hops ≠ []) :
    Lays P time dp (dp.perform time (.reroute key path))
  | add (key : FlowKey) {path : Path} (h : path.hops ≠ []) {requested : R}
    (ha : Asked P requested) :
    Lays P time dp (dp.perform time (.add key path requested dp.discipline dp.defaultTimeout))

omit [Simulation R] in
theorem Lays.issues {P : FlowId → Flow R → Prop} {time : R} {dp dp' : DataPlane R}
    (h : Lays P time dp dp') : ∃ op, Issues P op ∧ dp' = dp.perform time op := by
  cases h with
  | forward entries => exact ⟨.forward entries, trivial, rfl⟩
  | reroute key h => exact ⟨.reroute key _, h, rfl⟩
  | add key h ha => exact ⟨.add key _ _ _ _, ⟨h, ha⟩, rfl⟩

/-- The second controller is the first one with other counts and after such work on its plane at the
present. Nothing has been entered in the agenda, and nothing taken back. -/
structure Works (P : FlowId → Flow R → Prop) (c c' : Controller R ε) : Prop where
  settings : c'.settings = c.settings
  placement : c'.placement = c.placement
  registry : c'.registry = c.registry
  agenda : c'.agenda = c.agenda
  update : c'.pendingUpdate = c.pendingUpdate
  tick : c'.pendingTick = c.pendingTick
  plane : Registers P c.registry → Relation.ReflTransGen (Lays P c.now) c.plane c'.plane

namespace Works

variable {P : FlowId → Flow R → Prop} {c c' c'' : Controller R ε}

theorem refl (c : Controller R ε) : Works P c c := ⟨rfl, rfl, rfl, rfl, rfl, rfl, fun _ => .refl⟩

theorem now (h : Works P c c') : c'.now = c.now := congrArg Simulation.clock h.agenda

theorem trans (h : Works P c c') (h' : Works P c' c'') : Works P c c'' where
  settings := h'.settings.trans h.settings
  placement := h'.placement.trans h.placement
  registry := h'.registry.trans h.registry
  agenda := h'.agenda.trans h.agenda
  update := h'.update.trans h.update
  tick := h'.tick.trans h.tick
  plane ha := by
    have hrest := h'.plane (h.registry ▸ ha)
    rw [h.now] at hrest
    exact (h.plane ha).trans hrest

theorem one {plane : DataPlane R} (h : Registers P c.registry → Lays P c.now c.plane plane) :
    Works P c { c with plane } :=
  ⟨rfl, rfl, rfl, rfl, rfl, rfl, fun ha => .single (h ha)⟩

theorem withNetwork {key : FlowKey} {net : Network R} (h : Network.Touches key c.network net) :
    Works P c (c.withNetwork net) :=
  .one fun _ => by
    have hforward : Lays P c.now c.plane (c.plane.perform c.now (.forward net.forwarding)) :=
      .forward net.forwarding
    rwa [← plane_withNetwork h c.now] at hforward

theorem acts (h : Works P c c') : Acts P c c' := by
  refine ⟨⟨h.settings, fun ha => h.registry ▸ ha, fun ha => ?_⟩, h.placement⟩
  refine Relation.ReflTransGen.mono (fun dp dp' hlays => ?_) _ _ (h.plane ha)
  obtain ⟨op, hop, rfl⟩ := hlays.issues
  exact ⟨c.now, op, hop, rfl⟩

end Works

section Calls

variable {P : FlowId → Flow R → Prop} (c : Controller R ε)

/-- The channels are advanced, if there are any. -/
theorem plane_process : c.process.plane =
    if c.plane.channels.isEmpty then c.plane else (c.plane.advance c.now).2 := by
  unfold process
  split
  · rfl
  · dsimp only
    rw [foldl_report plane reportFailed (fun _ _ => rfl),
      foldl_report plane reportCompleted (fun _ _ => rfl)]

/-- The next update waits for the least of all predictions, if this is a time. -/
theorem nextUpdate?_eq : c.nextUpdate? =
    if c.plane.channels.isEmpty then none
    else
      let next := Quantity.min
        (Quantity.minimum (c.plane.channels.values.map fun d => d.queue.nextFinish))
        c.plane.nextTimeout
      if Quantity.isFinite next then some next else none := by
  unfold nextUpdate? DataPlane.nextFinish
  by_cases hempty : c.plane.channels.isEmpty = true
  · rw [if_pos hempty, if_pos hempty]
  · rw [if_neg hempty, if_neg hempty]

/-- A report changes counts and the agenda and nothing else. -/
structure SameButReports (c c' : Controller R ε) : Prop where
  settings : c'.settings = c.settings
  placement : c'.placement = c.placement
  registry : c'.registry = c.registry
  pending : c'.pendingUpdate = c.pendingUpdate

omit [Quantity R] in
theorem foldl_sameButReports {report : Controller R ε → Departure R → Controller R ε}
    (hreport : ∀ c d, SameButReports c (report c d)) (ds : List (Departure R))
    (c : Controller R ε) : SameButReports c (ds.foldl report c) := by
  induction ds generalizing c with
  | nil => exact ⟨rfl, rfl, rfl, rfl⟩
  | cons d rest ih =>
    have hone := hreport c d
    have hrest := ih (report c d)
    exact ⟨hrest.settings.trans hone.settings, hrest.placement.trans hone.placement,
      hrest.registry.trans hone.registry, hrest.pending.trans hone.pending⟩

theorem sameButReports_process : SameButReports c c.process := by
  unfold process
  split
  · exact ⟨rfl, rfl, rfl, rfl⟩
  · let report := (c.plane.advance c.now).1
    let advanced : Controller R ε := { c with plane := (c.plane.advance c.now).2 }
    have h := foldl_sameButReports (c := advanced) (fun c d => (⟨rfl, rfl, rfl, rfl⟩ :
      SameButReports c (c.reportCompleted d))) report.completed
    have h' := foldl_sameButReports (c := report.completed.foldl reportCompleted advanced)
      (fun c d => (⟨rfl, rfl, rfl, rfl⟩ : SameButReports c (c.reportFailed d))) report.failed
    exact ⟨h'.settings.trans h.settings, h'.placement.trans h.placement,
      h'.registry.trans h.registry, h'.pending.trans h.pending⟩

theorem acts_process : Acts P c c.process := by
  have hsame := sameButReports_process c
  refine ⟨⟨hsame.settings, fun h => hsame.registry ▸ h, fun _ => ?_⟩, hsame.placement⟩
  rw [plane_process]
  split
  · exact .refl
  · exact .one c.plane c.now .advance trivial

theorem acts_scheduleUpdate : Acts P c c.scheduleUpdate := by
  have hcancel : Acts P c c.cancelUpdate := by
    unfold cancelUpdate
    split <;> exact .same rfl rfl rfl rfl
  refine hcancel.trans ?_
  unfold scheduleUpdate
  dsimp only
  split <;> exact .same rfl rfl rfl rfl

theorem acts_scheduleTick : Acts P c c.scheduleTick := by
  unfold scheduleTick
  split <;> exact .same rfl rfl rfl rfl

theorem works_resolve (key : FlowKey) (src dst : NodeId) (dynamic : Bool) :
    Works P c (c.resolve key src dst dynamic).2 :=
  .withNetwork (Network.touches_resolve c.select c.network key src dst dynamic)

theorem acts_deploy (key : FlowKey) : Acts P c (c.deploy key).2 := by
  rcases c.deploy_cases key with ⟨_, heq⟩ | ⟨src, dst, _, heq⟩
  all_goals rw [heq]
  · exact .refl c
  · exact (works_resolve c key src dst false).acts

theorem acts_addFlow (hP : Admits P) (f : Flow R) : Acts P c (c.addFlow f).2 := by
  have hdeploy := acts_deploy (P := P) c f.key
  rcases c.addFlow_cases f with ⟨e, heq⟩ | ⟨e, c', _, hdeployed, heq⟩ |
    ⟨c', hrequest, hdeployed, heq⟩
  · rw [heq]
    exact .refl c
  · rw [hdeployed] at hdeploy
    rw [heq]
    exact hdeploy
  · rw [hdeployed] at hdeploy
    rw [heq]
    refine hdeploy.trans ⟨⟨rfl, fun h id g hg => ?_, fun _ => .refl⟩, rfl⟩
    have hget : (c'.registry.flows.insert f.id f).get? id = some g := hg
    by_cases hid : id = f.id
    · rw [hid, Table.get?_insert_self] at hget
      cases hget
      exact hid ▸ hP.added f hrequest
    · rw [Table.get?_insert_of_ne _ hid] at hget
      exact h id g hget

theorem acts_addChain (chain : ServiceChain R) : Acts P c (c.addChain chain).2 := by
  unfold addChain
  split
  · exact .refl c
  · exact ⟨⟨rfl, fun h => h, fun _ => .refl⟩, rfl⟩

theorem acts_latency (key : FlowKey) : Acts P c (c.latency key).2 := by
  rcases c.latency_cases key with ⟨channel, _, heq⟩ | ⟨e, _, heq⟩ | ⟨src, dst, _, heq⟩
  all_goals rw [heq]
  · exact .refl c
  · exact .refl c
  · exact (works_resolve c key src dst false).acts

/-- What a channel asks for when it is opened is nothing or what its flow asks for. -/
theorem asked_requested {c : Controller R ε} (h : Registers P c.registry) (id : FlowId) :
    Asked P (c.requested id) := by
  unfold requested
  split
  · exact Or.inl rfl
  · split
    · rename_i f hf
      exact Or.inr (Or.inr ⟨id, f, h id f hf, rfl⟩)
    · exact Or.inl rfl

theorem works_openChannel (key : FlowKey) : Works P c (c.openChannel key).2 := by
  have hresolve (src dst : NodeId) := works_resolve (P := P) c key src dst c.settings.dynamicRouting
  rcases c.openChannel_cases key with ⟨channel, _, heq⟩ | ⟨e, _, heq⟩ |
    ⟨src, dst, e, c', _, _, hfound, heq⟩ | ⟨src, dst, path, c', _, _, hfound, heq⟩
  · rw [heq]
    exact .refl c
  · rw [heq]
    exact .refl c
  · have hresolved := hresolve src dst
    rw [hfound] at hresolved
    rw [heq]
    exact hresolved
  · have hresolved := hresolve src dst
    rw [hfound] at hresolved
    rw [heq]
    have hpath : path.hops ≠ [] := Network.hops_ne_nil_of_resolve (congrArg Prod.fst hfound)
    have hadd : Works P c' { c' with plane := c'.plane.perform c'.now (.add key path
        (c.requested key.flow) c'.plane.discipline c'.plane.defaultTimeout) } :=
      .one fun h => .add key hpath (asked_requested (hresolved.registry ▸ h) key.flow)
    exact (hresolved.trans hadd).trans ⟨rfl, rfl, rfl, rfl, rfl, rfl, fun _ => .refl⟩

/-- A channel that cannot be opened leaves nothing behind but what
the search did to the entries of its flow. -/
theorem openChannel_error {key : FlowKey} {e : Fault R} (h : (c.openChannel key).1 = .error e) :
    ∃ net, Network.Touches key c.network net ∧ (c.openChannel key).2 = c.withNetwork net := by
  rcases c.openChannel_cases key with ⟨channel, _, heq⟩ | ⟨e', _, heq⟩ |
    ⟨src, dst, e', c', _, _, hfound, heq⟩ | ⟨src, dst, path, c', _, _, _, heq⟩
  · rw [heq] at h
    cases h
  · rw [heq]
    exact ⟨c.network, .refl key c.network, rfl⟩
  · rw [heq]
    exact ⟨_, Network.touches_resolve c.select c.network key src dst c.settings.dynamicRouting,
      (congrArg Prod.snd hfound).symm⟩
  · rw [heq] at h
    cases h

theorem acts_send (p : Packet R) : Acts P c (c.send p).2 := by
  have hopen := (acts_process (P := P) c).trans
    (works_openChannel c.process (c.effective p).key).acts
  rcases c.send_cases p with ⟨e, heq⟩ | ⟨e, c', hopened, heq⟩ | ⟨c', hsize, hopened, heq⟩
  · rw [heq]
    exact .refl c
  · rw [hopened] at hopen
    rw [heq]
    exact hopen
  · rw [hopened] at hopen
    rw [heq]
    have hsize' : (c.effective p).size = p.size := by
      unfold effective
      split <;> rfl
    have hsent := hopen.trans (.perform c' c'.now
      (.send (c.effective p).key (Transmission.ofPacket (c.effective p) c'.now))
      fun _ => ⟨_, _, hsize' ▸ hsize, rfl⟩)
    exact (hsent.trans (acts_scheduleUpdate _)).trans (acts_scheduleTick _)

/-- To adopt a path is to put in entries and to move a channel. -/
theorem works_adopt {key : FlowKey} {net : Network R} (h : Network.Touches key c.network net)
    {path : Path} (hpath : path.hops ≠ []) : Works P c (c.adopt net key path) := by
  have hnet : Works P c (c.withNetwork net) := .withNetwork h
  have hmoved : Works P (c.withNetwork net) (c.adopt net key path) :=
    .one fun _ => .reroute key hpath
  exact hnet.trans hmoved

theorem works_adaptPath (channel : Channel R) : Works P c (c.adaptPath channel).2 := by
  have htouches := Network.touches_update c.select c.network channel.key channel.source
    channel.destination
  rcases c.adaptPath_cases channel with ⟨e, net, hupdate, heq⟩ | ⟨net, hupdate, heq⟩ |
    ⟨net, hupdate, ⟨e, _, heq⟩ | ⟨path, hwalk, heq⟩⟩
  all_goals
    rw [hupdate] at htouches
    rw [heq]
  · exact .withNetwork htouches
  · exact .withNetwork htouches
  · exact .withNetwork htouches
  · exact works_adopt c htouches (Network.walk_ok hwalk).2.2

/-- A channel for which no path is found stays where it is,
whatever has become of the entries of its flow. -/
theorem adaptPath_error {channel : Channel R} {e : Fault R}
    (h : (c.adaptPath channel).1 = .error e) :
    ∃ net, Network.Touches channel.key c.network net ∧
      (c.adaptPath channel).2 = c.withNetwork net := by
  have htouches := Network.touches_update c.select c.network channel.key channel.source
    channel.destination
  rcases c.adaptPath_cases channel with ⟨e, net, hupdate, heq⟩ | ⟨net, hupdate, heq⟩ |
    ⟨net, hupdate, ⟨e, _, heq⟩ | ⟨path, _, heq⟩⟩
  · rw [hupdate] at htouches
    rw [heq]
    exact ⟨net, htouches, rfl⟩
  · rw [heq] at h
    cases h
  · rw [hupdate] at htouches
    rw [heq]
    exact ⟨net, htouches, rfl⟩
  · rw [heq] at h
    cases h

theorem acts_registerBandwidth (hP : Admits P) {bandwidth : R}
    (hb : checkRequest bandwidth = .ok ()) (key : FlowKey) :
    Acts P c (c.registerBandwidth key bandwidth) := by
  refine ⟨⟨rfl, fun h id g hg => ?_, fun _ => .refl⟩, rfl⟩
  unfold registerBandwidth Registry.modifyFlow Registry.flow? at hg
  by_cases hid : id = key.flow
  · rw [hid, Table.get?_modify_self, Option.map_eq_some_iff] at hg
    obtain ⟨f, hf, rfl⟩ := hg
    rw [hid]
    split
    · exact hP.changed key.flow f bandwidth (h key.flow f hf) hb
    · exact h key.flow f hf
  · rw [Table.get?_modify_of_ne _ hid] at hg
    exact h id g hg

theorem acts_setBandwidth (hP : Admits P) (key : FlowKey) (bandwidth : R) :
    Acts P c (c.setBandwidth key bandwidth).2 := by
  generalize hc : (c.registerBandwidth key bandwidth).process = c'
  have hprocessed (hrequest : checkRequest bandwidth = .ok ()) : Acts P c c' := by
    rw [← hc]
    exact (acts_registerBandwidth c hP hrequest key).trans (acts_process _)
  rcases c.setBandwidth_cases key bandwidth hc with ⟨e, heq⟩ | ⟨hrequest, _, heq⟩ |
    ⟨channel, e, c'', hrequest, _, _, hadapted, heq⟩ | ⟨channel, c'', hrequest, _, hadapted, heq⟩
  all_goals rw [heq]
  · exact .refl c
  · exact hprocessed hrequest
  · have hworks := works_adaptPath (P := P) c' channel
    rw [hadapted] at hworks
    exact (hprocessed hrequest).trans hworks.acts
  · have hkept : Acts P c' c'' := by
      rcases hadapted with rfl | hadapted
      · exact .refl _
      · have hworks := works_adaptPath (P := P) c' channel
        rw [hadapted] at hworks
        exact hworks.acts
    have hchanged := ((hprocessed hrequest).trans hkept).trans
      (.perform c'' c''.now (.setRequested key bandwidth) fun _ => Or.inr (Or.inl hrequest))
    exact hchanged.trans (acts_scheduleUpdate _)

theorem acts_setFlowBandwidth (hP : Admits P) (flow : FlowId) (bandwidth : R) :
    Acts P c (c.setFlowBandwidth flow bandwidth).2 := by
  unfold setFlowBandwidth
  split
  · exact .refl c
  · exact acts_setBandwidth c hP _ bandwidth

theorem works_moveFlow (vm : VmId) (old : NodeId) (key : FlowKey) :
    Works P c (c.moveFlow vm old key).2 := by
  rcases c.moveFlow_cases key vm old with ⟨_, heq⟩ | ⟨src, dst, _, hends⟩
  · rw [heq]
    exact .withNetwork (Network.Touches.clear c.network key)
  · generalize (if key.src = vm then old else src) = start at hends
    have htouches := Network.touches_rebuild c.select c.network key start src dst
    rcases hends with ⟨e, net, hrebuild, heq⟩ | ⟨p, net, hrebuild, heq⟩
    all_goals
      rw [hrebuild] at htouches
      rw [heq]
    · exact .withNetwork htouches
    · have hpath : p.hops ≠ [] := by
        unfold Network.rebuild at hrebuild
        split at hrebuild
        · exact (Network.build_ok hrebuild).1.hops_ne_nil
        · cases hrebuild
      exact works_adopt c htouches hpath

theorem works_moveFlows (vm : VmId) (old : NodeId) (keys : List FlowKey) (c : Controller R ε) :
    Works P c (moveFlows vm old keys c).2 :=
  moveFlows_keeps vm old keys (fun c' key h => h.trans (works_moveFlow c' vm old key)) (.refl c)

/-- A machine that moves is placed anew before its flows are moved. -/
theorem migrate_acts (vm : VmId) (old new : NodeId) :
    (c.migrate vm old new).2 = c ∨ Acts P (c.relocate vm new) (c.migrate vm old new).2 := by
  rcases c.migrate_cases vm old new with ⟨e, _, heq⟩ | ⟨_, heq⟩
  · rw [heq]
    exact Or.inl rfl
  · rw [heq]
    let placed := c.relocate vm new
    have hmoved := (works_moveFlows (P := P) vm old (placed.flowsToMove vm) placed).acts
    let moved := (moveFlows vm old (placed.flowsToMove vm) placed).2
    let counted : Controller R ε :=
      { moved with stats := { moved.stats with migrations := moved.stats.migrations + 1 } }
    have hcounted : Acts P moved counted := .same rfl rfl rfl rfl
    exact Or.inr ((hmoved.trans hcounted).trans (acts_scheduleUpdate counted))

theorem runs_migrate (vm : VmId) (old new : NodeId) : Runs P c (c.migrate vm old new).2 := by
  rcases migrate_acts (P := P) c vm old new with hsame | hmoved
  · rw [hsame]
    exact .refl c
  · have hplaced : Runs P c.process (c.relocate vm new) := .same rfl rfl rfl
    exact ((acts_process c).toRuns.trans hplaced).trans hmoved.toRuns

theorem runs_addVm (vm : Vm) (host : NodeId) : Runs P c (c.addVm vm host).2 := by
  unfold addVm
  split
  · exact .refl c
  · exact ⟨rfl, fun h => h, fun _ => .refl⟩

theorem acts_handle (what : Notice R ε) : Acts P c (c.handle what) := by
  cases what with
  | update =>
    let woken : Controller R ε :=
      { c with pendingUpdate := none, stats := { c.stats with updates := c.stats.updates + 1 } }
    have hwoken : Acts P c woken := .same rfl rfl rfl rfl
    exact (hwoken.trans (acts_process woken)).trans (acts_scheduleUpdate woken.process)
  | tick =>
    let woken : Controller R ε := { c with pendingTick := none }
    have hwoken : Acts P c woken := .same rfl rfl rfl rfl
    have hprocessed := hwoken.trans (acts_process woken)
    let sampled : Controller R ε :=
      { woken.process with
        telemetry := woken.process.telemetry.record woken.process.plane woken.process.now }
    have hsampled : Acts P woken.process sampled := .same rfl rfl rfl rfl
    have hall := hprocessed.trans hsampled
    show Acts P c ((if sampled.plane.channels.isEmpty then sampled
      else sampled.scheduleTick).scheduleUpdate)
    split
    · exact hall.trans (acts_scheduleUpdate sampled)
    · exact (hall.trans (acts_scheduleTick sampled)).trans (acts_scheduleUpdate _)
  | completed => exact .refl c
  | failed => exact .refl c
  | external => exact .refl c

end Calls

/-- The flows of the registry that an action brings, if any, meet a condition. -/
def Action.Brings (P : FlowId → Flow R → Prop) : Action R ε → Prop
  | .revise registry _ => Registers P registry
  | _ => True

omit [Quantity R] [Simulation R] in
theorem Action.brings_anything (a : Action R ε) : a.Brings fun _ _ => True := by
  cases a with
  | revise => exact fun _ _ _ => trivial
  | _ => trivial

end Controller

namespace Journal

open Controller (Issues)
open DataPlane (Reaches)

/-- A run starts on an empty plane over the network, whose routing tables may have been built. -/
theorem plane_start [Simulation R] (settings : Settings R) (net : Network R) :
    ∃ built : Network R, (start settings net : Journal R ε).controller.plane =
        DataPlane.create built settings.discipline settings.timeout ∧
      built.topology = net.topology ∧ built.load = net.load ∧ built.forwarding = net.forwarding ∧
      (net.Built → built.Built) := by
  refine ⟨if net.routed then net else net.buildRoutes, rfl, ?_⟩
  split
  · exact ⟨rfl, rfl, rfl, id⟩
  · refine ⟨?_, ?_, ?_, .buildRoutes⟩ <;> unfold Network.buildRoutes <;> rfl

open Controller (Action Admits Runs)

variable [Simulation R] {P : FlowId → Flow R → Prop} (j : Journal R ε)

/-- One step of a run changes the plane by operations and leaves the settings alone. -/
theorem runs_act (hP : Admits P) (time : R) {a : Action R ε} (ha : a.Brings P) :
    Runs P j.controller (j.act time a).controller := by
  have hclock : Runs P j.controller (j.controller.setClock time) := .same rfl rfl rfl
  refine hclock.trans ?_
  cases a with
  | addVm vm host => exact Controller.runs_addVm _ vm host
  | addFlow flow => exact (Controller.acts_addFlow _ hP flow).toRuns
  | addChain chain => exact (Controller.acts_addChain _ chain).toRuns
  | send packet => exact (Controller.acts_send _ packet).toRuns
  | setBandwidth key bandwidth => exact (Controller.acts_setBandwidth _ hP key bandwidth).toRuns
  | setFlowBandwidth flow bandwidth =>
    exact (Controller.acts_setFlowBandwidth _ hP flow bandwidth).toRuns
  | migrate vm old new => exact Controller.runs_migrate _ vm old new
  | latency key => exact (Controller.acts_latency _ key).toRuns
  | deliver id =>
    unfold Journal.act
    dsimp only
    split
    · exact .refl _
    · rename_i e _
      let taken : Controller R ε :=
        { j.controller.setClock time with
          agenda := Simulation.cancel (j.controller.setClock time).agenda e.id }
      have htaken : Runs P (j.controller.setClock time) taken := .same rfl rfl rfl
      exact htaken.trans (Controller.acts_handle taken e.what).toRuns
  | plan delay what => exact .same rfl rfl rfl
  | revise registry placement => exact ⟨rfl, fun _ => ha, fun _ => .refl⟩

theorem runs_run (hP : Admits P) {actions : List (R × Action R ε)}
    (hactions : ∀ a ∈ actions, a.2.Brings P) : Runs P j.controller (j.run actions).controller := by
  induction actions generalizing j with
  | nil => exact .refl _
  | cons a rest ih =>
    have hone := runs_act j hP a.1 (hactions a List.mem_cons_self)
    exact hone.trans (ih (j.act a.1 a.2) fun b hb => hactions b (List.mem_cons_of_mem _ hb))

/-- A run from the start leads to a plane that operations reach from an empty one. -/
theorem reaches_run (hP : Admits P) (settings : Settings R) (net : Network R)
    {actions : List (R × Action R ε)} (hactions : ∀ a ∈ actions, a.2.Brings P) :
    Reaches (Issues P) (start settings net : Journal R ε).controller.plane
      ((start settings net).run actions).controller.plane :=
  (runs_run (start settings net) hP hactions).plane fun _ _ hf => by cases hf

end Journal

end FlowFabric
