import FlowFabric.Proofs.Controller.Moves
import FlowFabric.Proofs.DataPlane.Fixpoint
import FlowFabric.Proofs.DataPlane.OwnLoad
import FlowFabric.Proofs.Network.Outcomes

namespace FlowFabric

variable {R ε : Type}

namespace Controller

section Keys

theorem nodup_appendNew {keys : List FlowKey} (h : keys.Nodup) (more : List FlowKey) :
    (appendNew keys more).Nodup := by
  induction more generalizing keys with
  | nil => exact h
  | cons key rest ih =>
    apply ih
    dsimp only
    split
    · exact h
    · rename_i hnew
      exact List.nodup_append.mpr ⟨h, List.pairwise_singleton _ _, fun a ha b hb hab =>
        hnew (List.mem_singleton.mp hb ▸ hab ▸ ha)⟩

/-- A flow is registered under its own number, and it asks for a finite bandwidth. -/
def proper [Quantity R] (id : FlowId) (f : Flow R) : Prop :=
  f.id = id ∧ Quantity.isFinite f.bandwidth = true

theorem admits_proper [Quantity R] : Admits (proper (R := R)) where
  added _ h := ⟨rfl, isFinite_of_checkRequest h⟩
  changed _ _ _ hf h := ⟨hf.1, isFinite_of_checkRequest h⟩

theorem nodup_flowsToMove [Quantity R] [Simulation R] {c : Controller R ε}
    (h : Registers proper c.registry) (vm : VmId) : (c.flowsToMove vm).Nodup := by
  apply nodup_appendNew
  -- The key of a flow contains its number.
  apply List.Nodup.of_map FlowKey.flow
  rw [List.map_map]
  have hids : c.registry.flows.values.map Flow.id = c.registry.flows.keys := by
    unfold Table.values Table.keys
    rw [List.map_map]
    exact List.map_congr_left fun e he => (h e.1 e.2 (Table.get?_eq_some_iff.mpr he)).1
  have hall : (c.registry.flows.values.map Flow.id).Nodup := hids ▸ c.registry.flows.keys_nodup
  exact hall.sublist (List.filter_sublist.map Flow.id)

end Keys

variable [Quantity R] [Simulation R]

open Network (Describes Lacks Route build)

/-- What the search for the path between the present hosts of a flow ends with, if it has both. The
old entries of the flow are gone by then. -/
def search? (c : Controller R ε) (key : FlowKey) : Option (Except (Fault R) Path) :=
  (c.hosts? key).map fun ends =>
    (build c.select (c.network.clear key).2 key ends.1 ends.2).1

/-- The searches that are made for flows as they are moved one after the other. -/
def searches (vm : VmId) (old : NodeId) :
    List FlowKey → Controller R ε → List (FlowKey × Option (Except (Fault R) Path))
  | [], _ => []
  | key :: rest, c => (key, c.search? key) :: searches vm old rest (c.moveFlow vm old key).2

theorem map_fst_searches (vm : VmId) (old : NodeId) (keys : List FlowKey) (c : Controller R ε) :
    (searches vm old keys c).map Prod.fst = keys := by
  induction keys generalizing c with
  | nil => rfl
  | cons key rest ih =>
    unfold searches
    rw [List.map_cons, ih]

/-- The fault that a search ends with, if any. -/
def fault? : Option (Except (Fault R) Path) → Option (Fault R)
  | some (.error e) => some e
  | _ => none

/-- Success unless there is a fault. -/
def verdict : Option (Fault R) → Except (Fault R) Unit
  | some e => .error e
  | none => .ok ()

variable {c : Controller R ε} {vm : VmId} {old : NodeId} {key : FlowKey}

/-- The flow runs between the present hosts of its machines over the path that was found for it. Its
entries are the hops of this path, and a channel that it had runs over it. -/
structure Arrived (c c' : Controller R ε) (key : FlowKey) (p : Path) : Prop where
  route : ∃ src dst, c'.hosts? key = some (src, dst) ∧ Route c'.network.topology src dst p
  follows : ∀ s ∈ p.steps, Path.Follows c'.network.topology s.1 s.2
  entries : c'.network.Describes key p
  path : c'.plane.path? key = (c.plane.path? key).map fun _ => p

/-- The flow has no entries, and a channel that it had stays where it was. -/
structure Stranded (c c' : Controller R ε) (key : FlowKey) : Prop where
  entries : c'.network.Lacks key
  path : c'.plane.path? key = c.plane.path? key

/-- Where a flow ends up after its search. -/
def EndsUp (c c' : Controller R ε) (key : FlowKey) : Option (Except (Fault R) Path) → Prop
  | some (.ok p) => Arrived c c' key p
  | _ => Stranded c c' key

section EndsUp

omit [Quantity R]

variable {keys : List FlowKey} {c' c'' : Controller R ε} {result : Option (Except (Fault R) Path)}

theorem EndsUp.later (h : EndsUp c c' key result) (hs : Spares keys c' c'') (hk : key ∉ keys) :
    EndsUp c c'' key result := by
  have hstranded (h : Stranded c c' key) : Stranded c c'' key :=
    ⟨fun n => (hs.entries key hk n).trans (h.entries n), (hs.path key hk).trans h.path⟩
  match result with
  | some (.ok p) =>
    have harrived : Arrived c c' key p := h
    refine ⟨?_, ?_, ?_, (hs.path key hk).trans harrived.path⟩
    · rw [hs.hosts?, hs.topology]
      exact harrived.route
    · rw [hs.topology]
      exact harrived.follows
    · intro n m
      rw [hs.entries key hk n]
      exact harrived.entries n m
  | some (.error e) => exact hstranded h
  | none => exact hstranded h

theorem EndsUp.earlier (h : EndsUp c' c'' key result)
    (hpath : c'.plane.path? key = c.plane.path? key) : EndsUp c c'' key result := by
  have hstranded (h : Stranded c' c'' key) : Stranded c c'' key :=
    ⟨h.entries, h.path.trans hpath⟩
  match result with
  | some (.ok p) =>
    have harrived : Arrived c' c'' key p := h
    exact ⟨harrived.route, harrived.follows, harrived.entries, hpath ▸ harrived.path⟩
  | some (.error e) => exact hstranded h
  | none => exact hstranded h

end EndsUp

/-- The searches that a migration makes. -/
def migrationSearches (c : Controller R ε) (vm : VmId) (old new : NodeId) :
    List (FlowKey × Option (Except (Fault R) Path)) :=
  searches vm old ((c.relocate vm new).flowsToMove vm) (c.relocate vm new)

/-- Flows have been moved, each to where its search ended, without prejudice to others and to what
is in flight, and the first fault has been kept. -/
structure Moved (keys : List FlowKey) (results : List (FlowKey × Option (Except (Fault R) Path)))
    (c c' : Controller R ε) (outcome : Except (Fault R) Unit) : Prop where
  spares : Spares keys c c'
  traffic : c'.plane.traffic = c.plane.traffic
  sought : ∀ s ∈ results, s.2.isSome = (c.hosts? s.1).isSome
  ends : ∀ s ∈ results, EndsUp c c' s.1 s.2
  first : outcome = verdict (results.findSome? fun s => fault? s.2)
  returned : ∀ e, outcome = .error e → e.isBreach = false

namespace Moved

variable {c' c'' : Controller R ε}

omit [Quantity R] in
/-- One flow has been moved to where its search ended. -/
theorem one {result : Option (Except (Fault R) Path)} (hspares : Spares [key] c c')
    (htraffic : c'.plane.traffic = c.plane.traffic)
    (hsought : result.isSome = (c.hosts? key).isSome) (hends : EndsUp c c' key result)
    (hbreach : ∀ e, fault? result = some e → e.isBreach = false) :
    Moved [key] [(key, result)] c c' (verdict (fault? result)) where
  spares := hspares
  traffic := htraffic
  sought s hs := by
    rw [List.mem_singleton.mp hs]
    exact hsought
  ends s hs := by
    rw [List.mem_singleton.mp hs]
    exact hends
  first := by
    rw [List.findSome?_cons, List.findSome?_nil]
    cases fault? result <;> rfl
  returned e he := by
    cases hfault : fault? result with
    | none =>
      rw [hfault] at he
      cases he
    | some e' =>
      rw [hfault] at he
      cases he
      exact hbreach e hfault

omit [Quantity R] in
theorem verdict_one {result : Option (Except (Fault R) Path)} {outcome : Except (Fault R) Unit}
    (h : Moved [key] [(key, result)] c c' outcome) : outcome = verdict (fault? result) := by
  rw [h.first, List.findSome?_cons, List.findSome?_nil]
  cases fault? result <;> rfl

omit [Quantity R] in
/-- What has become of a flow is not touched when other flows are moved. -/
theorem cons {keys : List FlowKey} {result : Option (Except (Fault R) Path)}
    {results : List (FlowKey × Option (Except (Fault R) Path))}
    {outcome outcome' : Except (Fault R) Unit} (hone : Moved [key] [(key, result)] c c' outcome)
    (hrest : Moved keys results c' c'' outcome') (hkeys : results.map Prod.fst = keys)
    (hnew : key ∉ keys) :
    Moved (key :: keys) ((key, result) :: results) c c''
      (verdict (fault? result <|> results.findSome? fun s => fault? s.2)) where
  spares := hone.spares.trans hrest.spares
  traffic := hrest.traffic.trans hone.traffic
  sought s hs := by
    rcases List.mem_cons.mp hs with rfl | hs
    · exact hone.sought _ (List.mem_singleton_self _)
    · rw [hrest.sought s hs, hone.spares.hosts?]
  ends s hs := by
    rcases List.mem_cons.mp hs with rfl | hs
    · exact (hone.ends _ (List.mem_singleton_self _)).later hrest.spares hnew
    · have hmem : s.1 ∈ keys := hkeys ▸ List.mem_map_of_mem hs
      refine (hrest.ends s hs).earlier (hone.spares.path s.1 fun hk => hnew ?_)
      exact List.mem_singleton.mp hk ▸ hmem
  first := by
    rw [List.findSome?_cons]
    cases fault? result <;> rfl
  returned e he := by
    cases hfault : fault? result with
    | none =>
      rw [hfault] at he
      exact hrest.returned e (hrest.first.trans he)
    | some e' =>
      have hfirst := hone.verdict_one
      rw [hfault] at he hfirst
      exact hone.returned e (hfirst.trans he)

end Moved

end Controller

section Exact

open Quantity (isFinite)

/-- Capacities are finite and not negative, and all bandwidths of channels are finite. -/
def DataPlane.measured : Standard Exact :=
  .bandwidths (fun bandwidth => isFinite bandwidth = true ∧ 0 ≤ bandwidth)
    (fun bandwidth => isFinite bandwidth = true) fun bandwidth => isFinite bandwidth = true

namespace DataPlane

theorem sustained_measured : Sustained measured where
  zero := rfl
  target h hc := Channel.finite_target h.capacity (h.channel _ _ hc).requested
  unfinished _ := trivial

/-- The bandwidth to spare on a link is finite. -/
theorem Meets.finite_spare {dp : DataPlane Exact} (h : Meets measured dp) (here : NodeId)
    (key : FlowKey) (l : LinkId) : isFinite (Selection.spare dp.network here key l) = true := by
  have hload : dp.network.FinitelyLoaded :=
    h.registered.finitelyLoaded fun k c hc => (h.channel k c hc).allocated
  exact hload.finite_spare (fun lane => (h.capacity lane).1) here key l

end DataPlane

namespace Controller

open Network (Answers build)
open DataPlane (measured)

theorem brings_measured {op : DataPlane.Operation Exact} (h : Issues proper op) :
    op.Brings measured := by
  cases op with
  | add _ path requested => exact ⟨trivial, h.2.isFinite fun _ _ hf => hf.2⟩
  | setRequested _ requested =>
    have hasked : Asked proper requested := h
    exact hasked.isFinite fun _ _ hf => hf.2
  | _ => trivial

variable [Simulation Exact]

/-- A network that was built, proper flows and finite bandwidths:
what the selections need in order to answer. -/
structure Fit (c : Controller Exact ε) : Prop where
  built : c.network.Built
  registers : Registers proper c.registry
  meets : DataPlane.Meets measured c.plane

theorem Fit.runs {c c' : Controller Exact ε} (h : Fit c) (hr : Runs proper c c') : Fit c' := by
  have hkept := (hr.plane h.registers).keeps
    (P := fun dp => dp.network.Built ∧ DataPlane.Meets measured dp)
    (fun dp time op hop h => ⟨(h.2.registered.sameFabric_perform time op).built h.1,
      DataPlane.sustained_measured.perform h.2 time (brings_measured hop)⟩)
    ⟨h.built, h.meets⟩
  exact ⟨hkept.1, hr.registers h.registers, hkept.2⟩

theorem Fit.answers {c : Controller Exact ε} (h : Fit c) (entries : Forwarding) :
    Answers c.select (c.network.withForwarding entries) :=
  Network.answers_select c.settings.selection fun here key l => h.meets.finite_spare here key l

/-- Besides, all queues have been advanced to the present. -/
structure Ready (c : Controller Exact ε) : Prop extends Fit c where
  quiet : c.plane.Quiet c.now
  present : c.now ≤ c.now

variable {c : Controller Exact ε} {vm : VmId} {old : NodeId}

/-- A search for the path of a flow without entries finds one that its entries then describe, or it
fails without a breach and leaves no entries. -/
theorem Fit.search (h : Fit c) (key : FlowKey) (src dst : NodeId) :
    (∃ p net, build c.select (c.network.clear key).2 key src dst = (.ok p, net) ∧
      Network.Touches key c.network net ∧ net.Describes key p ∧
      Network.Route c.network.topology src dst p ∧
      ∀ s ∈ p.steps, Path.Follows c.network.topology s.1 s.2) ∨
    ∃ e net, build c.select (c.network.clear key).2 key src dst = (.error e, net) ∧
      Network.Touches key c.network net ∧ net.Lacks key ∧ e.isBreach = false := by
  have hcleared := Network.Touches.clear c.network key
  have hlacks := Network.lacks_clear c.network key
  have htouches := hcleared.trans
    (Network.touches_build c.select (c.network.clear key).2 key src dst)
  rcases Network.build_ends (hcleared.sameFabric.built h.built)
    (fun entries => (h.answers entries).picks) key src dst with
    ⟨p, net, hbuild, hfollows⟩ | ⟨e, net, hbuild, hbreach, _⟩
  · rw [hbuild] at htouches
    obtain ⟨hroute, hdescribes⟩ := Network.build_ok hbuild
    exact Or.inl ⟨p, net, hbuild, htouches, hdescribes hlacks, hroute, hfollows⟩
  · rw [hbuild] at htouches
    have hgoes : e.isBreach = false := by
      by_contra hbreaks
      obtain ⟨entries, hsilent⟩ := hbreach (eq_true_of_ne_false hbreaks)
      exact hsilent (h.answers entries)
    exact Or.inr ⟨e, net, hbuild, htouches, Network.build_error hbuild hlacks, hgoes⟩

theorem Ready.moveFlow (h : Ready c) {key : FlowKey}
    (hold : ∀ src dst, c.hosts? key = some (src, dst) →
      c.network.topology.containsNode (if key.src = vm then old else src) = true) :
    Ready (c.moveFlow vm old key).2 ∧
      Moved [key] [(key, c.search? key)] c (c.moveFlow vm old key).2 (c.moveFlow vm old key).1 := by
  have hfit := h.toFit.runs (works_moveFlow c vm old key).acts.toRuns
  have hsought : (c.search? key).isSome = (c.hosts? key).isSome := Option.isSome_map
  have hsearch : c.search? key = (c.hosts? key).map fun ends =>
      (build c.select (c.network.clear key).2 key ends.1 ends.2).1 := rfl
  rcases moveFlow_ends hold with ⟨hhosts, hmoved⟩ | ⟨src, dst, p, net, hhosts, hbuild, hmoved⟩ |
    ⟨src, dst, e, net, hhosts, hbuild, hmoved⟩
  -- Without both hosts nothing is searched for.
  · rw [hhosts] at hsearch
    rw [hmoved] at hfit ⊢
    rw [hsearch] at hsought ⊢
    refine ⟨⟨hfit, h.quiet, h.present⟩, .one (.withNetwork (.clear c.network key)) rfl hsought
      ⟨Network.lacks_clear c.network key, rfl⟩ fun e he => ?_⟩
    cases he
  -- The path that was found is what the entries describe and where the channel goes.
  · rw [hhosts, Option.map_some, hbuild] at hsearch
    obtain ⟨_, _, hbuild', htouches, hdescribes, hroute, hfollows⟩ :=
      (h.toFit.search key src dst).resolve_right fun ⟨_, _, herror, _⟩ => by
        cases hbuild.symm.trans herror
    cases hbuild.symm.trans hbuild'
    obtain ⟨hspares, hentries, hpath⟩ := spares_adopt h.meets.registered htouches p
    have htopology := hspares.topology
    have hquiet : (c.withNetwork net).plane.Quiet c.now := h.quiet
    obtain ⟨hquiet', htraffic⟩ := hquiet.reroute h.present key p
    have harrived : Arrived c (c.adopt net key p) key p := by
      refine ⟨⟨src, dst, hhosts, htopology ▸ hroute⟩, htopology ▸ hfollows, fun n m => ?_, hpath⟩
      rw [hentries]
      exact hdescribes n m
    rw [hmoved] at hfit ⊢
    rw [hsearch] at hsought ⊢
    refine ⟨⟨hfit, hquiet', h.present⟩, .one hspares htraffic hsought harrived fun e he => ?_⟩
    cases he
  -- A search that failed has left no entries, and the channel was not looked at.
  · rw [hhosts, Option.map_some, hbuild] at hsearch
    obtain ⟨_, _, hbuild', htouches, hlacks, hbreach⟩ :=
      (h.toFit.search key src dst).resolve_left fun ⟨_, _, hok, _⟩ => by
        cases hbuild.symm.trans hok
    cases hbuild.symm.trans hbuild'
    rw [hmoved] at hfit ⊢
    rw [hsearch] at hsought ⊢
    refine ⟨⟨hfit, h.quiet, h.present⟩, .one (.withNetwork htouches) rfl hsought ⟨hlacks, rfl⟩
      fun e' he => ?_⟩
    cases he
    exact hbreach

/-- Flows are moved each in its turn, and a fault that is no breach stops none of them. -/
theorem moveFlows_cons (vm : VmId) (old : NodeId) (key : FlowKey) (rest : List FlowKey)
    {first : Option (Fault Exact)} (hfirst : (c.moveFlow vm old key).1 = verdict first)
    (hbreach : ∀ e, (c.moveFlow vm old key).1 = .error e → e.isBreach = false)
    (hrest : ∀ e, (moveFlows vm old rest (c.moveFlow vm old key).2).1 = .error e →
      e.isBreach = false) {later : Option (Fault Exact)}
    (hlater : (moveFlows vm old rest (c.moveFlow vm old key).2).1 = verdict later) :
    moveFlows vm old (key :: rest) c =
      (verdict (first <|> later), (moveFlows vm old rest (c.moveFlow vm old key).2).2) := by
  rw [moveFlows]
  generalize c.moveFlow vm old key = moved at *
  obtain ⟨outcome, c'⟩ := moved
  dsimp only at hfirst hbreach hrest hlater ⊢
  cases hresult : moveFlows vm old rest c' with
  | mk outcome' c'' =>
    rw [hresult] at hrest hlater
    cases first with
    | none =>
      obtain rfl : outcome = .ok () := hfirst
      dsimp only
      rw [hresult]
      exact Prod.ext hlater rfl
    | some e =>
      obtain rfl : outcome = .error e := hfirst
      -- The fault is kept, whatever the others end with.
      have hgo : ¬ e.isBreach = true := by
        rw [hbreach e rfl]
        exact Bool.false_ne_true
      dsimp only
      rw [if_neg hgo, hresult]
      cases later with
      | none =>
        obtain rfl : outcome' = .ok () := hlater
        rfl
      | some e' =>
        obtain rfl : outcome' = .error e' := hlater
        dsimp only
        rw [hrest e' rfl]
        rfl

theorem Ready.moveFlows (h : Ready c) {keys : List FlowKey} (hnodup : keys.Nodup)
    (hold : ∀ key ∈ keys, ∀ src dst, c.hosts? key = some (src, dst) →
      c.network.topology.containsNode (if key.src = vm then old else src) = true) :
    Ready (moveFlows vm old keys c).2 ∧
      Moved keys (searches vm old keys c) c (Controller.moveFlows vm old keys c).2
        (Controller.moveFlows vm old keys c).1 := by
  induction keys generalizing c with
  | nil =>
    refine ⟨h, .same rfl rfl rfl, rfl, ?_, ?_, rfl, ?_⟩
    · intro s hs
      cases hs
    · intro s hs
      cases hs
    · intro e he
      cases he
  | cons key rest ih =>
    obtain ⟨hnew, hrestNodup⟩ := List.nodup_cons.mp hnodup
    obtain ⟨hready, hone⟩ := h.moveFlow (hold key List.mem_cons_self)
    obtain ⟨hready', hrest⟩ := ih hready hrestNodup fun k hk src dst hhosts => by
      rw [hone.spares.topology]
      exact hold k (List.mem_cons_of_mem _ hk) src dst (hone.spares.hosts? k ▸ hhosts)
    have heq := moveFlows_cons vm old key rest hone.verdict_one hone.returned hrest.returned
      hrest.first
    rw [heq]
    exact ⟨hready', hone.cons hrest (map_fst_searches vm old rest _) hnew⟩

/-- Once the books are right, a controller is ready to move flows
as soon as a machine has been placed anew. -/
theorem Fit.ready_relocate [SimulationLaws Exact] (h : Fit c)
    {accepted : Multiset (Packet Exact × Exact)} {delivered : List (Notice Exact ε)}
    (hsound : Sound accepted delivered c)
    (hpresent : c.now ≤ c.now) (vm : VmId) (new : NodeId) : Ready (c.relocate vm new) := by
  obtain ⟨hcurrent, hprocessed⟩ := hsound.process hpresent
  refine ⟨(h.runs (acts_process c).toRuns).runs (.same rfl rfl rfl), hcurrent.quiet, ?_⟩
  show c.process.now ≤ c.process.now
  rw [hprocessed]
  exact hpresent

/-- The old entries of a flow start at a node if all other machines are placed on nodes. -/
theorem Fit.containsNode_start (h : Fit c) {new : NodeId} (hcheck : c.checkMove vm old new = .ok ())
    (hsited : ∀ v n, v ≠ vm → c.host? v = some n → c.network.topology.containsNode n = true)
    {key : FlowKey} {src dst : NodeId} (hhosts : (c.relocate vm new).hosts? key = some (src, dst)) :
    (c.relocate vm new).network.topology.containsNode
      (if key.src = vm then old else src) = true := by
  have htopology : (c.relocate vm new).network.topology = c.network.topology :=
    (reloads_process h.meets.registered).topology
  rw [htopology]
  split
  · exact (checkMove_ok hcheck).1
  · rename_i hsrc
    have hplaced : (c.relocate vm new).host? key.src = some src := (hosts?_eq_some_iff.mp hhosts).1
    rw [host?_relocate, if_neg hsrc] at hplaced
    exact hsited key.src src hsrc hplaced

end Controller

namespace Journal

open Controller (Action EndsUp Fit Knows Ready fault? proper verdict)

/-- A machine has moved. Each of its flows has been looked at once and has ended up where its search
did, and lanes know the channels that run over them. Other flows and what is in flight have been
left alone. The outcome is that of the first search that failed. -/
structure Migrated [Quantity R] [Simulation R] (vm : VmId) (c c' : Controller R ε)
    (results : List (FlowKey × Option (Except (Fault R) Path)))
    (outcome : Except (Fault R) Unit) : Prop where
  once : (results.map Prod.fst).Nodup
  flows : ∀ key, key ∈ results.map Prod.fst ↔ key.touches vm = true ∧ c.process.Knows key
  sought : ∀ s ∈ results, s.2.isSome = (c'.hosts? s.1).isSome
  ends : ∀ s ∈ results, EndsUp c.process c' s.1 s.2
  lanes : ∀ lane key, key ∈ (c'.network.shares lane).keys ↔
    ∃ p, c'.plane.path? key = some p ∧ lane ∈ p.lanes
  others : ∀ key, key.touches vm = false →
    (∀ n, c'.network.next? n key = c.network.next? n key) ∧
      c'.plane.path? key = c.process.plane.path? key
  traffic : c'.plane.traffic = c.process.plane.traffic
  first : outcome = verdict (results.findSome? fun s => fault? s.2)
  returned : ∀ e, outcome = .error e → e.isBreach = false

section Run

variable [Simulation Exact]

/-- At any point of a run the network, the flows and the bandwidths are as they should be. -/
theorem fit_run {net : Network Exact} (hnet : net.Built) (hfresh : net.load = Table.empty)
    (settings : Settings Exact) {actions : List (Exact × Action Exact ε)}
    (hactions : ∀ a ∈ actions, a.2.Brings proper) :
    Fit ((start settings net).run actions).controller := by
  obtain ⟨built, hplane, htopology, hload, _, hbuilt⟩ := plane_start (ε := ε) settings net
  have hcap (lane : Lane) : DataPlane.measured.capacity (built.capacity lane) := by
    unfold Network.capacity
    rw [htopology]
    exact hnet.routed.1.wellFormed.capacity_induction (P := DataPlane.measured.capacity)
      ⟨rfl, Exact.fin_le_fin.mpr le_rfl⟩ (fun _ hb => ⟨hb.2, BandwidthLaws.le_of_lt hb.1⟩) lane
  have hstart : Fit (start settings net : Journal Exact ε).controller := by
    refine ⟨?_, (fun _ _ hf => by cases hf), ?_⟩
    · show (start settings net : Journal Exact ε).controller.plane.network.Built
      rw [hplane]
      exact hbuilt hnet
    · rw [hplane]
      exact .create hcap (hload.trans hfresh) settings.discipline settings.timeout
  exact hstart.runs (runs_run (start settings net) Controller.admits_proper hactions)

/-- Whatever has been asked of a controller before, a machine that moves takes its flows with it, as
far as paths are found for them, provided that all other machines are placed on nodes of the
network. -/
theorem migration_moves_flows [SimulationLaws Exact] {net : Network Exact} (hnet : net.Built)
    (hfresh : net.load = Table.empty) (settings : Settings Exact)
    {actions : List (Exact × Action Exact ε)} (hactions : ∀ a ∈ actions, a.2.Brings proper)
    {time : Exact} (htimes : (0 :: (actions.map Prod.fst ++ [time])).IsChain (· ≤ ·))
    {c : Controller Exact ε} (hc : ((start settings net).run actions).controller.setClock time = c)
    {vm : VmId} {old new : NodeId} (hcheck : c.checkMove vm old new = .ok ())
    (hsited : ∀ v n, v ≠ vm → c.host? v = some n → c.network.topology.containsNode n = true) :
    Migrated vm c (c.migrate vm old new).2 (c.migrationSearches vm old new)
      (c.migrate vm old new).1 := by
  obtain ⟨hsound, hchain⟩ := (Sound.start settings net).run_append actions [time]
    ((now_start settings net).symm ▸ htimes)
  have htime := (List.isChain_cons_cons.mp hchain).1
  have hnow : c.now = time := hc ▸ Controller.now_setClock _ time
  have hpresent : c.now ≤ c.now := hnow ▸ OrderLaws.le_self_of_le htime
  have hclock := hc ▸ Controller.Sound.setClock hsound htime
  have hfit : Fit c := by
    rw [← hc]
    exact (fit_run hnet hfresh settings hactions).runs (.same rfl rfl rfl)
  -- The machine is at its new host before the first of its flows is moved.
  let placed := c.relocate vm new
  have hready : Ready placed := hfit.ready_relocate hclock hpresent vm new
  have hreloads := Controller.reloads_process hfit.meets.registered
  have hnodup := Controller.nodup_flowsToMove hready.registers vm
  obtain ⟨hready', hmoved⟩ := hready.moveFlows hnodup fun _ _ _ _ hhosts =>
    hfit.containsNode_start hcheck hsited hhosts
  obtain ⟨stats, heq⟩ := Controller.migrate_of_ok hcheck
  rw [heq]
  let moved := (Controller.moveFlows vm old (placed.flowsToMove vm) placed).2
  let counted : Controller Exact ε := { moved with stats }
  -- What comes after the last flow touches neither channels nor entries.
  have hacts := Controller.acts_scheduleUpdate (P := proper) counted
  have hplane : counted.scheduleUpdate.plane = moved.plane :=
    Controller.plane_scheduleUpdate counted
  have hend : Controller.Spares [] moved counted.scheduleUpdate :=
    .same hacts.settings hacts.placement hplane
  refine ⟨?_, ?_, ?_, ?_, ?_, ?_, ?_, hmoved.first, hmoved.returned⟩
  · unfold Controller.migrationSearches
    rw [Controller.map_fst_searches]
    exact hnodup
  · intro key
    unfold Controller.migrationSearches
    rw [Controller.map_fst_searches]
    exact Controller.mem_flowsToMove
  · intro s hs
    rw [hend.hosts?, hmoved.spares.hosts?]
    exact hmoved.sought s hs
  · intro s hs
    exact ((hmoved.ends s hs).later hend List.not_mem_nil).earlier rfl
  · intro lane key
    show key ∈ (counted.scheduleUpdate.plane.network.shares lane).keys ↔
      ∃ p, counted.scheduleUpdate.plane.path? key = some p ∧ lane ∈ p.lanes
    rw [hplane]
    exact hready'.meets.registered.mem_lane lane key
  · intro key hkey
    have hnot : key ∉ placed.flowsToMove vm := fun hmem =>
      absurd (Controller.mem_flowsToMove.mp hmem).1 (by rw [hkey]; exact Bool.false_ne_true)
    refine ⟨fun n => ?_, ?_⟩
    · rw [hend.entries key List.not_mem_nil, hmoved.spares.entries key hnot]
      exact hreloads.next? n key
    · rw [hend.path key List.not_mem_nil, hmoved.spares.path key hnot]
      rfl
  · show counted.scheduleUpdate.plane.traffic = c.process.plane.traffic
    rw [hplane]
    exact hmoved.traffic

end Run

/-- A machine moves to the host of another one while a packet is in flight between them. -/
theorem errand_migration_moves_flows :
    let net : Network Exact := { Network.empty .tree with topology := Topology.rack }
    let c := (rack.run errand).controller.setClock 1
    net.Built ∧ (∀ a ∈ errand, a.2.Brings proper) ∧
      (0 :: (errand.map Prod.fst ++ [1])).IsChain (· ≤ ·) ∧ c.checkMove 2 1 0 = .ok () ∧
      (∀ v n, v ≠ 2 → c.host? v = some n → c.network.topology.containsNode n = true) ∧
      ((c.migrationSearches 2 1 0).map fun s => (s.1, fault? s.2 |>.isNone)) =
        [(⟨1, 2, -1⟩, true)] ∧
      Migrated 2 c (c.migrate 2 1 0).2 (c.migrationSearches 2 1 0) (c.migrate 2 1 0).1 := by
  intro net c
  have hnet : net.Built := .of_constructed Topology.rack_constructed
  have hactions : ∀ a ∈ errand, a.2.Brings proper := by
    simp [errand, Action.Brings]
  have horder : (0 :: (errand.map Prod.fst ++ [1])).IsChain (· ≤ ·) := by
    unfold errand
    simp only [List.map_cons, List.map_nil, List.cons_append, List.nil_append,
      List.isChain_cons_cons, List.IsChain.singleton, and_true]
    decide
  have hcheck : c.checkMove 2 1 0 = .ok () := by
    have hok : (c.checkMove 2 1 0).toOption = some () := by decide +kernel
    cases heq : c.checkMove 2 1 0 with
    | ok _ => rfl
    | error e =>
      rw [heq] at hok
      cases hok
  have hsited : ∀ v n, v ≠ 2 → c.host? v = some n → c.network.topology.containsNode n = true := by
    have hall : ∀ e ∈ c.placement.entries, c.network.topology.containsNode e.2 = true := by
      decide +kernel
    intro v n _ hv
    exact hall (v, n) (Table.get?_eq_some_iff.mp hv)
  exact ⟨hnet, hactions, horder, hcheck, hsited, by decide +kernel,
    migration_moves_flows hnet rfl Settings.default hactions horder rfl hcheck hsited⟩

/-- A machine that sends to the one that moves is said to be on a node that does not exist. The
migration breaks off where the search for a path would only have failed, and the entries stay. -/
theorem lost_sender_breaks_migration :
    let j := rack.run [(0, .addVm ⟨1, "receiver", none⟩ 0), (0, .addVm ⟨2, "sender", none⟩ 1),
      (0, .addFlow ⟨3, "flow", 2, 1, 10, none⟩)]
    let placement := j.controller.placement.place 2 (some 99)
    let c := (j.act 0 (.revise j.controller.registry placement)).controller
    let key : FlowKey := ⟨2, 1, 3⟩
    c.checkMove 1 0 1 = .ok () ∧ c.hosts? key = some (99, 0) ∧
      (c.migrate 1 0 1).1 = .error (.breach .outOfRange) ∧
      (Network.build c.select (c.network.clear key).2 key 99 1).1 = .error (.unknownNode 99) ∧
      (c.migrate 1 0 1).2.network.next? 1 key = some 2 := by
  refine ⟨rfl, rfl, ?_, ?_, ?_⟩
  · rfl
  · rfl
  · rfl

end Journal

end Exact

end FlowFabric
