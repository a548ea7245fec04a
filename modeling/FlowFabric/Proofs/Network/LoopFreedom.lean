import FlowFabric.Network.Forwarding
import FlowFabric.Proofs.Routing.Candidates
import FlowFabric.Proofs.Topology.Links

namespace FlowFabric

namespace Path

/-- The hops of a path that starts at a node, each with the node that it leaves. -/
def stepsFrom : NodeId → List Hop → List (NodeId × Hop)
  | _, [] => []
  | here, h :: rest => (here, h) :: stepsFrom h.target rest

/-- The hops of a path, each with the node that it leaves. -/
def steps (p : Path) : List (NodeId × Hop) := stepsFrom p.start p.hops

theorem stepsFrom_append (here : NodeId) (hops : List Hop) (h : Hop) :
    stepsFrom here (hops ++ [h]) = stepsFrom here hops ++
      [((here :: hops.map Hop.target).getLast (List.cons_ne_nil _ _), h)] := by
  induction hops generalizing here with
  | nil => rfl
  | cons first rest ih =>
    simp only [List.cons_append, stepsFrom, ih, List.map_cons]
    rw [List.getLast_cons (List.cons_ne_nil first.target (rest.map Hop.target))]

@[simp] theorem steps_push (p : Path) (h : Hop) : (p.push h).steps = p.steps ++ [(p.last, h)] :=
  stepsFrom_append p.start p.hops h

theorem forall_steps_push {P : NodeId × Hop → Prop} {p : Path} {h : Hop} (hold : ∀ s ∈ p.steps, P s)
    (hlast : P (p.last, h)) : ∀ s ∈ (p.push h).steps, P s := by
  rw [steps_push]
  intro s hs
  rcases List.mem_append.mp hs with hs | hs
  · exact hold s hs
  · rwa [List.mem_singleton.mp hs]

theorem forall_nodes_push {P : NodeId → Prop} {p : Path} {h : Hop} (hold : ∀ n ∈ p.nodes, P n)
    (hlast : P h.target) : ∀ n ∈ (p.push h).nodes, P n := by
  rw [nodes_push]
  intro n hn
  rcases List.mem_append.mp hn with hn | hn
  · exact hold n hn
  · rwa [List.mem_singleton.mp hn]

theorem nodup_push {p : Path} {h : Hop} (hp : p.nodes.Nodup) (hnew : h.target ∉ p.nodes) :
    (p.push h).nodes.Nodup := by
  rw [nodes_push, List.nodup_append]
  refine ⟨hp, List.pairwise_singleton _ _, ?_⟩
  intro a ha b hb hab
  rw [List.mem_singleton.mp hb] at hab
  exact hnew (hab ▸ ha)

variable {R : Type}

/-- The hop takes a link between the node and its target, in the direction of travel. -/
def Follows (t : Topology R) (here : NodeId) (h : Hop) : Prop :=
  ∃ link, t.link? h.lane.link = some link ∧ link.connects here h.target = true ∧
    h.lane.direction = link.directionFrom here

/-- A path without a node that occurs twice, which climbs first and then never again, and which
stays in a tier only between switches that pass hosts on. -/
structure ValleyFree (t : Topology R) (p : Path) : Prop where
  simple : p.nodes.Nodup
  follows : ∀ s ∈ p.steps, Follows t s.1 s.2
  valley : ∃ ups rest, p.steps = ups ++ rest ∧ (∀ s ∈ ups, t.rankOf s.2.target < t.rankOf s.1) ∧
    ∀ s ∈ rest, t.rankOf s.1 ≤ t.rankOf s.2.target
  within : ∀ s ∈ p.steps, t.rankOf s.2.target = t.rankOf s.1 →
    Routes.propagates t s.1 = true ∧ Routes.propagates t s.2.target = true

end Path

namespace Topology

variable {R : Type} {t t' : Topology R} {n : NodeId}

theorem Extends.propagates (h : t.Extends t') (hn : n < t.nodes.size) :
    Routes.propagates t' n = Routes.propagates t n := by
  obtain ⟨node, hnode⟩ := node?_of_lt hn
  obtain ⟨more, hmore⟩ := h.node hnode
  unfold Routes.propagates
  rw [hmore, hnode, h.kind]

theorem Extends.size_le (h : t.Extends t') : t.nodes.size ≤ t'.nodes.size := by
  by_contra hlt
  obtain ⟨node, hnode⟩ := node?_of_lt (Nat.lt_of_not_le hlt)
  obtain ⟨more, hmore⟩ := h.node hnode
  exact Nat.lt_irrefl _ (lt_size_of_node? hmore)

end Topology

namespace Network

variable {R : Type} [Quantity R]

/-- A network in which nodes and links were added and routing
tables built in any order, under any traffic. -/
inductive Built : Network R → Prop where
  | empty (kind : FabricKind) : Built (Network.empty kind)
  | grow {net : Network R} {t : Topology R} (h : Built net) (hs : net.topology.Step t)
      (routed : Bool) :
      Built { net with topology := t, routed }
  | buildRoutes {net : Network R} (h : Built net) : Built net.buildRoutes
  | traffic {net : Network R} (h : Built net) (load : Load R) (forwarding : Forwarding) :
      Built { net with load, forwarding }

/-- The routing tables are those of a well-formed part of the topology. -/
structure Routed (net : Network R) (t : Topology R) : Prop where
  wellFormed : t.WellFormed
  extends_ : t.Extends net.topology
  routes : net.routes = Routes.ofTopology t

theorem Built.grows {net : Network R} (h : net.Built) {t : Topology R} (hg : net.topology.Grows t) :
    Built { net with topology := t } := by
  induction hg with
  | refl => exact h
  | tail _ hs ih => exact ih.grow hs net.routed

theorem Built.of_constructed {t : Topology R} (h : t.Constructed) :
    ({ Network.empty t.kind with topology := t } : Network R).Built := by
  obtain ⟨kind, hg⟩ := h
  rw [show t.kind = kind from hg.extends.kind]
  exact (Built.empty kind).grows hg

omit [Quantity R] in
theorem topology_buildRoutes (net : Network R) : net.buildRoutes.topology = net.topology := by
  unfold Network.buildRoutes
  dsimp only

omit [Quantity R] in
theorem routes_buildRoutes (net : Network R) :
    net.buildRoutes.routes = Routes.ofTopology net.topology := by
  unfold Network.buildRoutes
  dsimp only

/-- The tables that a network has were built for a topology
out of which the present one has grown. -/
theorem Built.routed {net : Network R} (h : net.Built) :
    net.topology.Constructed ∧ ∃ t, net.Routed t := by
  induction h with
  | empty kind =>
    refine ⟨⟨kind, .refl⟩, Topology.empty kind, .empty kind, .refl _, ?_⟩
    exact (Routes.ofTopology_empty kind).symm
  | grow _ hs _ ih =>
    obtain ⟨⟨kind, hg⟩, t, hr⟩ := ih
    exact ⟨⟨kind, hg.tail hs⟩, t, hr.wellFormed, hr.extends_.trans hs.extends, hr.routes⟩
  | @buildRoutes net _ ih =>
    rw [topology_buildRoutes]
    refine ⟨ih.1, net.topology, ih.1.wellFormed, ?_, routes_buildRoutes net⟩
    rw [topology_buildRoutes]
    exact .refl _
  | traffic _ _ _ ih =>
    obtain ⟨hc, t, hr⟩ := ih
    exact ⟨hc, t, hr.wellFormed, hr.extends_, hr.routes⟩

section Choice

variable {select : Selection R} {net : Network R} {here dst : NodeId} {key : FlowKey}

/-- In a network, the selection takes one of the links that it is offered. -/
def Answers (select : Selection R) (net : Network R) : Prop :=
  ∀ here dst key cs, cs ≠ [] → ∃ l ∈ cs, select net here dst key cs = some l

omit [Quantity R] in
theorem answers_first (net : Network R) : Answers Selection.first net := by
  intro here dst key cs hcs
  obtain ⟨c, rest, rfl⟩ := List.exists_cons_of_ne_nil hcs
  exact ⟨c, List.mem_cons_self, rfl⟩

/-- In a network, the selection takes none but the links that it is offered. -/
def Picks (select : Selection R) (net : Network R) : Prop :=
  ∀ here dst key cs, cs ≠ [] → ∀ l, select net here dst key cs = some l → l ∈ cs

omit [Quantity R] in
theorem Answers.picks (h : Answers select net) : Picks select net := by
  intro here dst key cs hcs l hl
  obtain ⟨l', hl', heq⟩ := h here dst key cs hcs
  exact Option.some.inj (heq.symm.trans hl) ▸ hl'

omit [Quantity R] in
/-- A selection takes one of the links that the table has for the host,
if there are any, or it does not answer. -/
theorem choose?_cases (key : FlowKey) (hsel : Picks select net)
    (hlinks : ∀ l ∈ (net.routing here).route dst, (net.topology.link? l).isSome = true) :
    (net.choose? select here dst key = .ok none ∧ (net.routing here).route dst = []) ∨
      (∃ l ∈ (net.routing here).route dst, ∃ hop, Path.hop? net.topology here l = some hop ∧
        net.choose? select here dst key = .ok (some hop)) ∨
      (net.choose? select here dst key = .error (.breach .outOfRange) ∧ ¬ Answers select net) := by
  unfold choose?
  cases hr : (net.routing here).route dst with
  | nil => exact Or.inl ⟨rfl, rfl⟩
  | cons c cs =>
    have hcs := List.cons_ne_nil c cs
    cases hs : select net here dst key (c :: cs) with
    | none =>
      refine Or.inr (Or.inr ⟨?_, fun hanswers => ?_⟩)
      · dsimp only
        rw [hs, Option.bind_none]
      · obtain ⟨l, _, hl⟩ := hanswers here dst key (c :: cs) hcs
        cases hs.symm.trans hl
    | some l =>
      have hl := hsel here dst key (c :: cs) hcs l hs
      obtain ⟨link, hlink⟩ := Option.isSome_iff_exists.mp (hlinks l (hr ▸ hl))
      have hhop : Path.hop? net.topology here l =
          some ⟨⟨l, link.directionFrom here⟩, link.otherEnd here⟩ := by
        unfold Path.hop?
        rw [hlink]
        rfl
      refine Or.inr (Or.inl ⟨l, hl, _, hhop, ?_⟩)
      dsimp only
      rw [hs, Option.bind_some, hhop]

end Choice

/-- What the hop that is taken at a node does: it follows a link,
makes progress, and climbs as long as the host is not known. -/
structure Progress (net : Network R) (t : Topology R) (dst here : NodeId) (h : Hop) : Prop where
  follows : Path.Follows net.topology here h
  target : h.target < net.topology.nodes.size
  remaining : Routes.remaining t dst h.target < Routes.remaining t dst here
  rank :
    (¬ (net.routing here).knows dst = true ∧
      net.topology.rankOf h.target < net.topology.rankOf here) ∨
    ((net.routing h.target).knows dst = true ∧
      net.topology.rankOf here ≤ net.topology.rankOf h.target)
  within : net.topology.rankOf h.target = net.topology.rankOf here →
    Routes.propagates net.topology here = true ∧ Routes.propagates net.topology h.target = true

namespace Routed

variable {net : Network R} {t : Topology R} {here dst : NodeId} {l : LinkId}

theorem lt_of_mem_route (h : net.Routed t) (hl : l ∈ (net.routing here).route dst) :
    here < t.nodes.size := by
  by_contra hge
  have hempty : net.routing here = RoutingTable.empty := by
    unfold routing
    apply Routes.table_of_size_le
    rw [h.routes, Routes.size_ofTopology]
    exact Nat.le_of_not_lt hge
  rw [hempty] at hl
  cases hl

theorem rankOf (h : net.Routed t) (hn : here < t.nodes.size) :
    net.topology.rankOf here = t.rankOf here := by
  obtain ⟨node, hnode⟩ := Topology.node?_of_lt hn
  exact h.extends_.rankOf hnode

theorem routing_eq (h : net.Routed t) (n : NodeId) :
    net.routing n = (Routes.ofTopology t).table n := by
  unfold routing
  rw [h.routes]

theorem progress (h : net.Routed t) (hne : dst ≠ here) (hl : l ∈ (net.routing here).route dst) :
    ∃ hop, Path.hop? net.topology here l = some hop ∧ net.Progress t dst here hop := by
  have hn := h.lt_of_mem_route hl
  rw [h.routing_eq] at hl
  obtain ⟨hmem, hcand⟩ := Routes.candidate_of_mem_route h.wellFormed hn hne hl
  have hb := Routes.neighbour_lt h.wellFormed hmem
  obtain ⟨link, hlink, hconnects, hother⟩ := h.wellFormed.connects hmem
  -- Links never change, so the link is still what it was when the tables were built.
  have hlink' := h.extends_.link hlink
  refine ⟨⟨⟨l, link.directionFrom here⟩, link.otherEnd here⟩, ?_, ⟨link, hlink', hconnects, rfl⟩,
    ?_, ?_, ?_, ?_⟩
  · unfold Path.hop?
    rw [hlink']
    rfl
  · exact hother ▸ Nat.lt_of_lt_of_le hb h.extends_.size_le
  · exact hother ▸ Routes.remaining_neighbour_lt h.wellFormed hn hmem hcand
  · show (_ ∧ net.topology.rankOf (link.otherEnd here) < _) ∨
      ((net.routing (link.otherEnd here)).knows dst = true ∧
        _ ≤ net.topology.rankOf (link.otherEnd here))
    rw [← hother, h.rankOf hn, h.rankOf hb, h.routing_eq, h.routing_eq]
    cases hcand with
    | up hknows hr => exact Or.inl ⟨hknows, hr⟩
    | down _ hdown => exact Or.inr ⟨hdown.2, Nat.le_of_lt hdown.1⟩
    | across hp hr hnear _ =>
      exact Or.inr ⟨Routes.knows_neighbour_of_near h.wellFormed hn hmem hp hr hnear,
        Nat.le_of_eq hr.symm⟩
  · intro heq
    have heq' : t.rankOf (t.neighbour here l) = t.rankOf here := by
      rw [← h.rankOf hn, ← h.rankOf hb, hother]
      exact heq
    -- Only a link learned from peers stays within the tier.
    have hp : Routes.propagates t here = true := by
      cases hcand with
      | up _ hr => exact absurd heq' (Nat.ne_of_lt hr)
      | down _ hdown => exact absurd heq' (Nat.ne_of_gt hdown.1)
      | across hp _ _ _ => exact hp
    show _ ∧ Routes.propagates net.topology (link.otherEnd here) = true
    rw [← hother, h.extends_.propagates hn, h.extends_.propagates hb,
      Routes.propagates_congr hn hb heq']
    exact ⟨hp, hp⟩

end Routed

/-- The invariant of a path that is being laid. What remains is least at its end, and a path whose
end does not know the host has only climbed. -/
structure Laid (net : Network R) (t : Topology R) (dst : NodeId) (p : Path) : Prop extends
    Path.ValleyFree net.topology p where
  bound : ∀ n ∈ p.nodes, n < net.topology.nodes.size
  progress : ∀ s ∈ p.steps, net.Progress t dst s.1 s.2
  least : ∀ n ∈ p.nodes, Routes.remaining t dst p.last ≤ Routes.remaining t dst n
  climbing : ¬ (net.routing p.last).knows dst = true → ∀ s ∈ p.steps,
    net.topology.rankOf s.2.target < net.topology.rankOf s.1

namespace Laid

variable {net : Network R} {t : Topology R} {dst : NodeId} {p : Path}

omit [Quantity R] in
theorem start (n : NodeId) (hn : n < net.topology.nodes.size) : net.Laid t dst ⟨n, []⟩ where
  simple := List.pairwise_singleton _ n
  follows _ hs := by cases hs
  valley := ⟨[], [], rfl, (fun _ hs => by cases hs), (fun _ hs => by cases hs)⟩
  within _ hs := by cases hs
  bound m hm := List.mem_singleton.mp hm ▸ hn
  progress _ hs := by cases hs
  least m hm := by
    rw [List.mem_singleton.mp hm]
    exact le_refl _
  climbing _ _ hs := by cases hs

omit [Quantity R] in
/-- A hop that makes progress does not lead back onto the path. -/
theorem not_mem (h : net.Laid t dst p) {hop : Hop} (hp : net.Progress t dst p.last hop) :
    hop.target ∉ p.nodes := by
  intro hm
  exact absurd hp.remaining (not_lt_of_ge (h.least _ hm))

omit [Quantity R] in
theorem push (h : net.Laid t dst p) {hop : Hop} (hp : net.Progress t dst p.last hop) :
    net.Laid t dst (p.push hop) := by
  refine ⟨⟨Path.nodup_push h.simple (h.not_mem hp), Path.forall_steps_push h.follows hp.follows, ?_,
    Path.forall_steps_push h.within hp.within⟩, Path.forall_nodes_push h.bound hp.target,
    Path.forall_steps_push h.progress hp, ?_, ?_⟩
  -- As long as the host is unknown all hops climb; from then on none does.
  · rw [Path.steps_push]
    rcases hp.rank with ⟨hunknown, hr⟩ | ⟨_, hr⟩
    · refine ⟨p.steps ++ [(p.last, hop)], [], (List.append_nil _).symm, ?_, fun _ hs => by cases hs⟩
      rw [← Path.steps_push]
      exact Path.forall_steps_push (h.climbing hunknown) hr
    · obtain ⟨ups, rest, he, hups, hrest⟩ := h.valley
      refine ⟨ups, rest ++ [(p.last, hop)], by rw [he, List.append_assoc], hups, ?_⟩
      intro s hs
      rcases List.mem_append.mp hs with hs | hs
      · exact hrest s hs
      · rwa [List.mem_singleton.mp hs]
  · rw [Path.last_push]
    exact Path.forall_nodes_push (fun n hn => le_trans hp.remaining.le (h.least n hn)) (le_refl _)
  · rw [Path.last_push]
    intro hunknown
    rcases hp.rank with ⟨hhere, hr⟩ | ⟨hknown, _⟩
    · exact Path.forall_steps_push (h.climbing hhere) hr
    · exact absurd hknown hunknown

omit [Quantity R] in
theorem length_le (h : net.Laid t dst p) : p.nodes.length ≤ net.topology.nodes.size :=
  Routes.length_le_of_nodup h.simple h.bound

end Laid

section Lay

variable {select : Selection R} {key : FlowKey} {dst : NodeId} {budget : Nat} {net : Network R}
    {laid : List NodeId}
  {p : Path}

omit [Quantity R] in
theorem lay_of_arrived (h : p.last = dst) :
    lay select key dst budget net laid p = (.ok p, net) := by
  unfold lay
  rw [if_pos h]

omit [Quantity R] in
theorem lay_of_no_route (h : p.last ≠ dst) (hc : net.choose? select p.last dst key = .ok none) :
    lay select key dst budget net laid p =
    (.error (.noRoute p.last dst), net.dropAll key laid) := by
  unfold lay
  rw [if_neg h, hc]

omit [Quantity R] in
theorem lay_of_error (h : p.last ≠ dst) {e : Fault R}
    (hc : net.choose? select p.last dst key = .error e) :
    lay select key dst budget net laid p = (.error e, net.dropAll key laid) := by
  unfold lay
  rw [if_neg h, hc]

omit [Quantity R] in
theorem lay_of_loop (h : p.last ≠ dst) {hop : Hop}
    (hc : net.choose? select p.last dst key = .ok (some hop))
    (hloop : budget = 0 ∨ hop.target ∈ p.nodes) :
    lay select key dst budget net laid p =
    (.error (.routingLoop hop.target key), net.dropAll key laid) := by
  unfold lay
  rw [if_neg h, hc]
  cases budget with
  | zero => rfl
  | succ budget => exact if_pos (hloop.resolve_left (Nat.succ_ne_zero budget))

omit [Quantity R] in
theorem lay_of_hop (h : p.last ≠ dst) {hop : Hop}
    (hc : net.choose? select p.last dst key = .ok (some hop)) (hnew : hop.target ∉ p.nodes) :
    lay select key dst (budget + 1) net laid p =
      lay select key dst budget (net.setNext p.last key hop.target) (laid ++ [p.last])
        (p.push hop) := by
  conv => lhs; unfold lay
  rw [if_neg h, hc]
  dsimp only
  rw [if_neg hnew]

/-- A condition on networks that setting an entry of the flow keeps. It fixes topology and tables,
and as long as it holds, the selection takes none but the links that it is offered. -/
structure Steers (select : Selection R) (key : FlowKey) (base : Network R)
    (I : Network R → Prop) : Prop where
  topology : ∀ {net}, I net → net.topology = base.topology
  routes : ∀ {net}, I net → net.routes = base.routes
  picks : ∀ {net}, I net → Picks select net
  setNext : ∀ {net}, I net → ∀ n m, I (net.setNext n key m)

omit [Quantity R] in
/-- Networks that differ in their entries only have all that a search needs to make progress. -/
theorem steers_entries {select : Selection R} {net : Network R}
    (hsel : ∀ entries, Picks select (net.withForwarding entries)) (key : FlowKey) :
    Steers select key net fun net' => net' = net.withForwarding net'.forwarding where
  topology h := by
    rw [h]
    rfl
  routes h := by
    rw [h]
    rfl
  picks h := h ▸ hsel _
  setNext h n m := by
    rw [h]
    rfl

/-- Laying a path ends where there is no route, or where the selection does not answer, or at the
destination with the path laid. -/
theorem lay_ends (laid : List NodeId) {base : Network R} {I : Network R → Prop}
    (hI : Steers select key base I) (hnet : I net) {t : Topology R} (hbase : base.Routed t)
    (hp : base.Laid t dst p) (hbudget : base.topology.nodes.size < budget + p.nodes.length) :
    (∃ p', (lay select key dst budget net laid p).1 = .ok p' ∧ base.Laid t dst p' ∧
      p'.start = p.start ∧ p'.last = dst) ∨
    (∃ here, (lay select key dst budget net laid p).1 = .error (.noRoute here dst) ∧
      here < base.topology.nodes.size ∧ here ≠ dst ∧ (base.routing here).route dst = []) ∨
    ((lay select key dst budget net laid p).1 = .error (.breach .outOfRange) ∧
      ∃ net', I net' ∧ ¬ Answers select net') := by
  induction budget generalizing net laid p with
  | zero =>
    -- The path would have more nodes than there are.
    have hle := hp.length_le
    omega
  | succ budget ih =>
    by_cases harrived : p.last = dst
    · rw [lay_of_arrived harrived]
      exact Or.inl ⟨p, rfl, hp, rfl, harrived⟩
    · have hne : dst ≠ p.last := Ne.symm harrived
      -- The entries laid so far have changed the network, but neither its topology nor its tables.
      have hrouting : net.routing p.last = base.routing p.last := by
        unfold routing
        rw [hI.routes hnet]
      have hprogress : ∀ l ∈ (net.routing p.last).route dst,
          ∃ hop, Path.hop? net.topology p.last l = some hop ∧ base.Progress t dst p.last hop := by
        intro l hl
        rw [hI.topology hnet]
        exact hbase.progress hne (hrouting ▸ hl)
      have hlinks : ∀ l ∈ (net.routing p.last).route dst, (net.topology.link? l).isSome = true := by
        intro l hl
        obtain ⟨hop, hhop, _⟩ := hprogress l hl
        obtain ⟨link, hlink, _⟩ := Option.map_eq_some_iff.mp hhop
        rw [hlink]
        rfl
      rcases choose?_cases key (hI.picks hnet) hlinks with
        ⟨hc, hnone⟩ | ⟨l, hl, hop, hhop, hc⟩ | ⟨hc, hsilent⟩
      · have hlast : p.last < base.topology.nodes.size := hp.bound _ (List.getLast_mem _)
        rw [lay_of_no_route harrived hc]
        exact Or.inr (Or.inl ⟨p.last, rfl, hlast, harrived, hrouting ▸ hnone⟩)
      · obtain ⟨hop', hhop', hgood⟩ := hprogress l hl
        obtain rfl : hop' = hop := Option.some.inj (hhop'.symm.trans hhop)
        rw [lay_of_hop harrived hc (hp.not_mem hgood)]
        have hlen : base.topology.nodes.size < budget + (p.push hop').nodes.length := by
          rw [Path.nodes_push, List.length_append, List.length_singleton]
          omega
        exact ih _ (hI.setNext hnet p.last hop'.target) (hp.push hgood) hlen
      · rw [lay_of_error harrived hc]
        exact Or.inr (Or.inr ⟨rfl, net, hnet, hsilent⟩)

/-- A selection that answers in the network, whatever its entries,
leads to the destination or to a node without a route. -/
theorem lay_cases (key : FlowKey) (laid : List NodeId)
    (hsel : ∀ entries, Answers select (net.withForwarding entries)) {t : Topology R}
    (hnet : net.Routed t) (hp : net.Laid t dst p)
    (hbudget : budget + p.nodes.length = net.topology.nodes.size + 1) :
    (∃ p', (lay select key dst budget net laid p).1 = .ok p' ∧ net.Laid t dst p' ∧
      p'.start = p.start ∧ p'.last = dst) ∨
    ∃ here, (lay select key dst budget net laid p).1 = .error (.noRoute here dst) ∧
      here < net.topology.nodes.size ∧ here ≠ dst ∧ (net.routing here).route dst = [] := by
  have hself : net = net.withForwarding net.forwarding := rfl
  have hlt : net.topology.nodes.size < budget + p.nodes.length := by omega
  have hsteers := steers_entries (fun entries => (hsel entries).picks) key
  rcases lay_ends laid hsteers hself hnet hp hlt with hok | hnone | ⟨_, net', hnet', hsilent⟩
  · exact Or.inl hok
  · exact Or.inr hnone
  · exact absurd (hnet' ▸ hsel _) hsilent

end Lay

/-- Whatever a selection takes out of the candidates, the search between two hosts ends where there
is no route, or with a path that goes up first and then down, never to the same node twice. The
selection has to answer in this network only, whatever entries the search has set so far. -/
theorem build_valley_free {select : Selection R} {net : Network R}
    (hsel : ∀ entries, Answers select (net.withForwarding entries)) (hnet : net.Built)
    (key : FlowKey) {src dst : NodeId} (hsrc : net.topology.isHost src = true)
    (hdst : net.topology.isHost dst = true) (hne : src ≠ dst) :
    (∃ p, (build select net key src dst).1 = .ok p ∧ p.start = src ∧ p.last = dst ∧
      p.ValleyFree net.topology) ∨
    ∃ here, (build select net key src dst).1 = .error (.noRoute here dst) := by
  have hcheck {n : NodeId} (hn : net.topology.isHost n = true) :
      net.topology.checkHost n = .ok () ∧ n < net.topology.nodes.size := by
    unfold Topology.isHost at hn
    split at hn
    · rename_i node hnode
      unfold Topology.checkHost
      rw [hnode]
      dsimp only
      rw [if_pos hn]
      exact ⟨rfl, Topology.lt_size_of_node? hnode⟩
    · cases hn
  obtain ⟨hsrcOk, hsrcLt⟩ := hcheck hsrc
  obtain ⟨hdstOk, _⟩ := hcheck hdst
  obtain ⟨_, t, hrouted⟩ := hnet.routed
  have hbuild : build select net key src dst = layFrom select net key dst ⟨src, []⟩ := by
    unfold build
    rw [hsrcOk, hdstOk]
    dsimp only
    rw [if_neg hne]
  rw [hbuild]
  have hlen : net.topology.nodes.size + (Path.mk src []).nodes.length =
      net.topology.nodes.size + 1 := rfl
  rcases lay_cases key [] hsel hrouted (Laid.start src hsrcLt) hlen with
    ⟨p, hok, hlaid, hstart, hlast⟩ | ⟨here, herror, _⟩
  · exact Or.inl ⟨p, hok, hstart, hlast, hlaid.toValleyFree⟩
  · exact Or.inr ⟨here, herror⟩

/-- Between the two hosts below a switch. -/
theorem rack_build_valley_free :
    let net : Network Exact :=
      ({ Network.empty .tree with topology := Topology.rack } : Network Exact).buildRoutes
    let key : FlowKey := ⟨1, 2, 7⟩
    (∀ entries, Answers Selection.first (net.withForwarding entries)) ∧ net.Built ∧
      net.topology.isHost 0 = true ∧ net.topology.isHost 1 = true ∧ (0 : NodeId) ≠ 1 ∧
      ((∃ p, (build Selection.first net key 0 1).1 = .ok p ∧ p.start = 0 ∧ p.last = 1 ∧
        p.ValleyFree net.topology) ∨
        ∃ here, (build Selection.first net key 0 1).1 = .error (.noRoute here 1)) := by
  intro net key
  have hgrows : (Network.empty .tree : Network Exact).topology.Grows Topology.rack := by
    obtain ⟨kind, hg⟩ := Topology.rack_constructed
    have hkind : kind = .tree := hg.extends.kind.symm
    rw [hkind] at hg
    exact hg
  have hnet : net.Built := ((Built.empty .tree).grows hgrows).buildRoutes
  have h0 : net.topology.isHost 0 = true := rfl
  have h1 : net.topology.isHost 1 = true := rfl
  have hsel (entries : Forwarding) := answers_first (net.withForwarding entries)
  exact ⟨hsel, hnet, h0, h1, by decide, build_valley_free hsel hnet key h0 h1 (by decide)⟩

example :
    let net : Network Exact :=
      ({ Network.empty .tree with topology := Topology.rack } : Network Exact).buildRoutes
    ((build Selection.first net ⟨1, 2, 7⟩ 0 1).1.map Path.nodes).toOption = some [0, 2, 1] := by rfl

end Network

end FlowFabric
