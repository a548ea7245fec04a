import FlowFabric.Proofs.Controller.Operations
import FlowFabric.Proofs.DataPlane.Paths

namespace FlowFabric

variable {R ε : Type}

theorem Placement.host?_place (p : Placement) (vm : VmId) (host : NodeId) (v : VmId) :
    (p.place vm (some host)).host? v = if v = vm then some host else p.host? v := by
  show (p.insert vm host).get? v = _
  split
  · rename_i hv
    rw [hv, Table.get?_insert_self]
  · rename_i hv
    exact Table.get?_insert_of_ne _ hv host

namespace Controller

section Keys

theorem mem_appendNew {k : FlowKey} {keys more : List FlowKey} :
    k ∈ appendNew keys more ↔ k ∈ keys ∨ k ∈ more := by
  induction more generalizing keys with
  | nil => simp [appendNew]
  | cons key rest ih =>
    show k ∈ appendNew (if key ∈ keys then keys else keys ++ [key]) rest ↔ _
    rw [ih, List.mem_cons]
    split
    · rename_i hold
      refine ⟨fun h => h.imp_right Or.inr, ?_⟩
      rintro (h | rfl | h)
      · exact Or.inl h
      · exact Or.inl hold
      · exact Or.inr h
    · rw [List.mem_append, List.mem_singleton, or_assoc]

/-- The flow is registered, or it has a channel or a forwarding entry. -/
def Knows [Simulation R] (c : Controller R ε) (key : FlowKey) : Prop :=
  (∃ id f, c.registry.flow? id = some f ∧ f.key = key) ∨
    (∃ channel, c.plane.channel? key = some channel) ∨
    ∃ n m, c.network.next? n key = some m

theorem mem_flowsToMove [Simulation R] {c : Controller R ε} {vm : VmId} {k : FlowKey} :
    k ∈ c.flowsToMove vm ↔ k.touches vm = true ∧ c.Knows k := by
  have hregistered : k ∈ (c.registry.flowsOf vm).map Flow.key ↔
      k.touches vm = true ∧ ∃ id f, c.registry.flow? id = some f ∧ f.key = k := by
    constructor
    · intro hk
      obtain ⟨f, hf, rfl⟩ := List.mem_map.mp hk
      obtain ⟨hvalue, htouches⟩ := List.mem_filter.mp hf
      obtain ⟨id, hid⟩ := Table.exists_of_mem_values hvalue
      exact ⟨htouches, id, f, hid, rfl⟩
    · rintro ⟨htouches, id, f, hf, rfl⟩
      have hvalue : f ∈ c.registry.flows.values :=
        List.mem_map.mpr ⟨(id, f), Table.get?_eq_some_iff.mp hf, rfl⟩
      exact List.mem_map.mpr ⟨f, List.mem_filter.mpr ⟨hvalue, htouches⟩, rfl⟩
  have hlive : k ∈ c.plane.channelsOf vm ↔
      k.touches vm = true ∧ ∃ channel, c.plane.channel? k = some channel := by
    unfold DataPlane.channelsOf DataPlane.channel?
    rw [List.mem_filter, ← Table.contains_iff_mem_keys, Table.contains, Option.isSome_iff_exists]
    exact and_comm
  have hinstalled : k ∈ c.network.installedFlows vm ↔
      k.touches vm = true ∧ ∃ n m, c.network.next? n k = some m := by
    unfold Network.installedFlows Network.next?
    rw [FlowKey.mem_sortDistinct, List.mem_filter, and_comm, List.mem_map]
    refine and_congr_right fun _ => ⟨?_, ?_⟩
    · rintro ⟨⟨n, k'⟩, he, rfl⟩
      rw [← Table.contains_iff_mem_keys, Table.contains, Option.isSome_iff_exists] at he
      exact ⟨n, he⟩
    · rintro ⟨n, m, hm⟩
      refine ⟨(n, k), ?_, rfl⟩
      rw [← Table.contains_iff_mem_keys, Table.contains, hm]
      rfl
  unfold flowsToMove Knows
  rw [mem_appendNew, List.mem_append, hregistered, hlive, hinstalled, ← and_or_left, ← and_or_left]

end Keys

section Hosts

variable [Simulation R] {c c' : Controller R ε}

theorem host?_congr (h : c'.placement = c.placement) (v : VmId) : c'.host? v = c.host? v := by
  unfold host?
  rw [h]

theorem hosts?_congr (h : c'.placement = c.placement) (key : FlowKey) :
    c'.hosts? key = c.hosts? key := by
  unfold hosts?
  rw [host?_congr h, host?_congr h]

theorem hosts?_eq_some_iff {key : FlowKey} {src dst : NodeId} :
    c.hosts? key = some (src, dst) ↔ c.host? key.src = some src ∧ c.host? key.dst = some dst := by
  unfold hosts?
  cases c.host? key.src <;> cases c.host? key.dst <;> simp

theorem hosts?_of_findHosts {key : FlowKey} {src dst : NodeId}
    (h : c.findHosts key = .ok (src, dst)) : c.hosts? key = some (src, dst) := by
  have hfound {vm : VmId} {host : NodeId} (h : c.findHost vm = .ok host) :
      c.host? vm = some host := by
    unfold findHost at h
    split at h
    · cases h
    · cases h
    · rename_i hhost
      split at h
      · cases h
        exact hhost
      · cases h
  unfold findHosts at h
  obtain ⟨_, hsrc, h⟩ := Topology.bind_ok h
  obtain ⟨_, hdst, h⟩ := Topology.bind_ok h
  cases h
  exact hosts?_eq_some_iff.mpr ⟨hfound hsrc, hfound hdst⟩

end Hosts

variable [Quantity R] [Simulation R]

open Network (build)

/-- The second controller differs from the first one in the entries and the paths of some flows, in
the load and in its counts. -/
structure Spares (keys : List FlowKey) (c c' : Controller R ε) : Prop where
  settings : c'.settings = c.settings
  placement : c'.placement = c.placement
  topology : c'.network.topology = c.network.topology
  entries : ∀ k, k ∉ keys → ∀ n, c'.network.next? n k = c.network.next? n k
  path : ∀ k, k ∉ keys → c'.plane.path? k = c.plane.path? k

namespace Spares

variable {keys keys' : List FlowKey} {c c' c'' : Controller R ε}

omit [Quantity R] in
theorem same (hsettings : c'.settings = c.settings) (hplacement : c'.placement = c.placement)
    (hplane : c'.plane = c.plane) : Spares [] c c' := by
  have hnet : c'.network = c.network := congrArg DataPlane.network hplane
  exact ⟨hsettings, hplacement, hnet ▸ rfl, fun _ _ _ => hnet ▸ rfl, fun _ _ => hplane ▸ rfl⟩

omit [Quantity R] in
theorem trans (h : Spares keys c c') (h' : Spares keys' c' c'') : Spares (keys ++ keys') c c'' where
  settings := h'.settings.trans h.settings
  placement := h'.placement.trans h.placement
  topology := h'.topology.trans h.topology
  entries k hk n := by
    rw [List.mem_append, not_or] at hk
    exact (h'.entries k hk.2 n).trans (h.entries k hk.1 n)
  path k hk := by
    rw [List.mem_append, not_or] at hk
    exact (h'.path k hk.2).trans (h.path k hk.1)

omit [Quantity R] in
theorem withNetwork {key : FlowKey} {net : Network R} (h : Network.Touches key c.network net) :
    Spares [key] c (c.withNetwork net) where
  settings := rfl
  placement := rfl
  topology := h.topology
  entries k hk n := h.others n k fun heq => hk (List.mem_singleton.mpr heq)
  path _ _ := rfl

omit [Quantity R] in
theorem hosts? (h : Spares keys c c') (key : FlowKey) : c'.hosts? key = c.hosts? key :=
  hosts?_congr h.placement key

end Spares

/-- A run of calls keeps lanes and channels in line,
and nodes, links and routing tables what they are. -/
theorem Runs.registered {P : FlowId → Flow R → Prop} {c c' : Controller R ε} (h : Runs P c c')
    (hP : Registers P c.registry) (hreg : c.plane.Registered) :
    c'.plane.Registered ∧ Network.SameFabric c.network c'.network :=
  (h.plane hP).keeps (P := fun dp => dp.Registered ∧ Network.SameFabric c.network dp.network)
    (fun _ time op _ h => ⟨h.1.perform time op, h.2.trans (h.1.sameFabric_perform time op)⟩)
    ⟨hreg, .refl _⟩

variable {c : Controller R ε} {vm : VmId} {old : NodeId} {key : FlowKey}

/-- The flow gets the entries and its channel gets the path. -/
theorem spares_adopt (hreg : c.plane.Registered) {net : Network R}
    (h : Network.Touches key c.network net) (p : Path) :
    Spares [key] c (c.adopt net key p) ∧
      (∀ n, (c.adopt net key p).network.next? n key = net.next? n key) ∧
      (c.adopt net key p).plane.path? key = (c.plane.path? key).map fun _ => p := by
  have hregistered : (c.withNetwork net).plane.Registered := by
    rw [plane_withNetwork h c.now]
    exact hreg.perform c.now _
  obtain ⟨hnet, hpath⟩ := hregistered.moves_reroute key p c.now
  refine ⟨⟨rfl, rfl, hnet.topology.trans h.topology, ?_, ?_⟩, fun n => hnet.next? n key,
    (hpath key).trans (if_pos rfl)⟩
  · intro k hk n
    exact (hnet.next? n k).trans (h.others n k fun heq => hk (List.mem_singleton.mpr heq))
  · intro k hk
    exact (hpath k).trans (if_neg fun heq => hk (List.mem_singleton.mpr heq))

/-- A flow loses its entries for want of a host. Otherwise it is searched for in a network without
its entries, provided that the search starts at a node. -/
theorem moveFlow_ends (hold : ∀ src dst, c.hosts? key = some (src, dst) →
      c.network.topology.containsNode (if key.src = vm then old else src) = true) :
    (c.hosts? key = none ∧
      c.moveFlow vm old key = (.ok (), c.withNetwork (c.network.clear key).2)) ∨
    (∃ src dst p net, c.hosts? key = some (src, dst) ∧
      build c.select (c.network.clear key).2 key src dst = (.ok p, net) ∧
      c.moveFlow vm old key = (.ok (), c.adopt net key p)) ∨
    (∃ src dst e net, c.hosts? key = some (src, dst) ∧
      build c.select (c.network.clear key).2 key src dst = (.error e, net) ∧
      c.moveFlow vm old key = (.error e, c.withNetwork net)) := by
  rcases c.moveFlow_cases key vm old with hnone | ⟨src, dst, hhosts, hsearch⟩
  · exact Or.inl hnone
  · rw [Network.rebuild_eq (hold src dst hhosts)] at hsearch
    rcases hsearch with ⟨e, net, hbuild, heq⟩ | ⟨p, net, hbuild, heq⟩
    · exact Or.inr (Or.inr ⟨src, dst, e, net, hhosts, hbuild, heq⟩)
    · exact Or.inr (Or.inl ⟨src, dst, p, net, hhosts, hbuild, heq⟩)

theorem reloads_process (hreg : c.plane.Registered) :
    Network.Reloads c.network c.process.network := by
  unfold network
  rw [plane_process]
  split
  · exact .refl _
  · exact (DataPlane.moves_advance hreg c.now).1

/-- A machine is at its new host, and the others are where they were. -/
theorem host?_relocate (c : Controller R ε) (vm : VmId) (new : NodeId) (v : VmId) :
    (c.relocate vm new).host? v = if v = vm then some new else c.host? v := by
  show (c.process.placement.place vm (some new)).host? v = _
  rw [(sameButReports_process c).placement]
  exact c.placement.host?_place vm new v

/-- A migration that is not refused moves the flows of the machine. -/
theorem migrate_of_ok {new : NodeId} (h : c.checkMove vm old new = .ok ()) :
    ∃ stats, c.migrate vm old new =
      let moved := moveFlows vm old ((c.relocate vm new).flowsToMove vm) (c.relocate vm new)
      (moved.1, scheduleUpdate { moved.2 with stats }) := by
  rcases c.migrate_cases vm old new with ⟨e, herror, _⟩ | ⟨_, heq⟩
  · cases h.symm.trans herror
  · exact ⟨_, heq⟩

omit [Quantity R] in
theorem checkMove_ok {new : NodeId} (h : c.checkMove vm old new = .ok ()) :
    c.network.topology.containsNode old = true ∧ c.network.topology.checkHost new = .ok () := by
  unfold checkMove at h
  obtain ⟨_, _, h⟩ := Topology.bind_ok h
  obtain ⟨_, hold, h⟩ := Topology.bind_ok h
  obtain ⟨_, _, hnew⟩ := Topology.bind_ok h
  exact ⟨decide_eq_true (Topology.checkNode_ok hold), hnew⟩

end Controller

namespace Journal

variable [Quantity R] [Simulation R]

/-- A run starts on a network that is built, and no lane knows of a channel yet. -/
theorem registered_start {net : Network R} (hnet : net.Built) (hload : net.load = Table.empty)
    (settings : Settings R) :
    (start settings net : Journal R ε).controller.network.Built ∧
      (start settings net : Journal R ε).controller.plane.Registered := by
  obtain ⟨built, hplane, _, hload', _, hbuilt⟩ := plane_start (ε := ε) settings net
  have hnetwork : (start settings net : Journal R ε).controller.network = built :=
    congrArg DataPlane.network hplane
  refine ⟨hnetwork ▸ hbuilt hnet, ?_⟩
  rw [hplane]
  exact .create (hload'.trans hload) settings.discipline settings.timeout

end Journal

end FlowFabric
