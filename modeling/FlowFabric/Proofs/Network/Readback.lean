import FlowFabric.Proofs.Network.Outcomes

namespace FlowFabric

namespace Path

/-- The path with more hops. -/
def extend (p : Path) (more : List Hop) : Path := { p with hops := p.hops ++ more }

@[simp] theorem extend_nil (p : Path) : p.extend [] = p := by
  unfold extend
  rw [List.append_nil]

theorem extend_cons (p : Path) (h : Hop) (more : List Hop) :
    p.extend (h :: more) = (p.push h).extend more := by
  unfold extend push
  rw [List.append_assoc]
  rfl

theorem nodes_extend (p : Path) (more : List Hop) :
    (p.extend more).nodes = p.nodes ++ more.map Hop.target := by
  unfold extend nodes
  rw [List.map_append, List.cons_append]

theorem steps_extend (p : Path) (more : List Hop) :
    (p.extend more).steps = p.steps ++ stepsFrom p.last more := by
  induction more generalizing p with
  | nil => rw [extend_nil, stepsFrom, List.append_nil]
  | cons h rest ih =>
    rw [extend_cons, ih, steps_push, last_push, List.append_assoc]
    rfl

theorem map_fst_stepsFrom (here : NodeId) (hops : List Hop) :
    (stepsFrom here hops).map Prod.fst = (here :: hops.map Hop.target).dropLast := by
  induction hops generalizing here with
  | nil => rfl
  | cons h rest ih =>
    rw [stepsFrom, List.map_cons, ih, List.map_cons,
      List.dropLast_cons_of_ne_nil (List.cons_ne_nil _ _)]

theorem length_stepsFrom (here : NodeId) (hops : List Hop) :
    (stepsFrom here hops).length = hops.length := by
  induction hops generalizing here with
  | nil => rfl
  | cons h rest ih => rw [stepsFrom, List.length_cons, List.length_cons, ih]

theorem map_fst_steps_append_last (p : Path) : p.steps.map Prod.fst ++ [p.last] = p.nodes := by
  have hfst : p.steps.map Prod.fst = p.nodes.dropLast := map_fst_stepsFrom p.start p.hops
  rw [hfst]
  exact List.dropLast_append_getLast (List.cons_ne_nil p.start (p.hops.map Hop.target))

theorem map_snd_stepsFrom (here : NodeId) (hops : List Hop) :
    (stepsFrom here hops).map Prod.snd = hops := by
  induction hops generalizing here with
  | nil => rfl
  | cons h rest ih => rw [stepsFrom, List.map_cons, ih]

/-- A path visits its start and the nodes that its hops lead to. -/
theorem mem_nodes {p : Path} {n : NodeId} (h : n ∈ p.nodes) :
    n = p.start ∨ ∃ s ∈ p.steps, s.2.target = n := by
  rcases List.mem_cons.mp h with hstart | hmem
  · exact Or.inl hstart
  · obtain ⟨hop, hhop, rfl⟩ := List.mem_map.mp hmem
    rw [← map_snd_stepsFrom p.start p.hops] at hhop
    obtain ⟨s, hs, rfl⟩ := List.mem_map.mp hhop
    exact Or.inr ⟨s, hs, rfl⟩

theorem eq_extend (p : Path) : p = (⟨p.start, []⟩ : Path).extend p.hops := rfl

variable {R : Type} [Quantity R] {t : Topology R} {here : NodeId} {hop hop' : Hop}

/-- A hop between two nodes is the one over the link between them. -/
theorem Follows.hopBetween? (h : Follows t here hop) (ht : t.Constructed)
    (hne : here ≠ hop.target) : Path.hopBetween? t here hop.target = some hop := by
  obtain ⟨link, hlink, hc, hdirection⟩ := h
  unfold Path.hopBetween?
  rw [ht.linkBetween?_eq hne hlink hc, Option.bind_some, hlink, Option.map_some, ← hdirection]

theorem Follows.lt_size (h : Follows t here hop) (ht : t.WellFormed) :
    hop.target < t.nodes.size := by
  obtain ⟨link, hlink, hc, _⟩ := h
  obtain ⟨hhigh, hlow⟩ := ht.ends hlink
  rcases Link.connects_iff.mp hc with ⟨_, heq⟩ | ⟨heq, _⟩
  · exact heq ▸ hlow
  · exact heq ▸ hhigh

end Path

namespace Network

variable {R : Type} {net : Network R} {key : FlowKey} {p : Path} {more : List Hop}

/-- The entries of a flow over all nodes are the ones of some steps. -/
def Lists (net : Network R) (key : FlowKey) (steps : List (NodeId × Hop)) : Prop :=
  ∀ n m, net.next? n key = some m ↔ ∃ hop, (n, hop) ∈ steps ∧ hop.target = m

/-- At every node that a path leaves,
the entry of the flow leads along it. There may be other entries. -/
def Guides (net : Network R) (key : FlowKey) (p : Path) : Prop :=
  ∀ s ∈ p.steps, net.next? s.1 key = some s.2.target

theorem Describes.guides (h : net.Describes key p) : net.Guides key p :=
  fun s hs => (h s.1 s.2.target).mpr ⟨s.2, hs, rfl⟩

/-- At a node of a path its entry leads to the next one, and there is no entry at the end. -/
theorem Describes.next?_last (h : net.Describes key (p.extend more))
    (hp : (p.extend more).nodes.Nodup) :
    net.next? p.last key = more.head?.map Hop.target := by
  cases more with
  | nil =>
    rw [Path.extend_nil] at h hp
    refine Option.eq_none_iff_forall_ne_some.mpr fun m hm => ?_
    obtain ⟨hop, hmem, _⟩ := (h p.last m).mp hm
    exact Path.source_ne_last hp hmem rfl
  | cons hop rest =>
    refine (h p.last hop.target).mpr ⟨hop, ?_, rfl⟩
    rw [Path.steps_extend]
    exact List.mem_append_right _ List.mem_cons_self

section Remove

/-- An entry that is dropped is the one of its step if no other step starts at the node. -/
theorem Lists.dropNext {kept rest : List (NodeId × Hop)} {here : NodeId} {hop : Hop}
    (h : net.Lists key (kept ++ (here, hop) :: rest)) (hkept : here ∉ kept.map Prod.fst)
    (hrest : here ∉ rest.map Prod.fst) : (net.dropNext here key).Lists key (kept ++ rest) := by
  intro n m
  by_cases hn : n = here
  · subst hn
    rw [next?_dropNext_self]
    constructor
    · intro hm
      cases hm
    · rintro ⟨hop', hmem, _⟩
      rcases List.mem_append.mp hmem with hold | hlater
      · exact absurd (List.mem_map_of_mem hold) hkept
      · exact absurd (List.mem_map_of_mem hlater) hrest
  · have hne : (n, key) ≠ (here, key) := fun heq => hn (Prod.mk.inj heq).1
    rw [next?_dropNext_of_ne net hne, h n m]
    refine exists_congr fun hop' => and_congr_left fun _ => ?_
    rw [List.mem_append, List.mem_append, List.mem_cons]
    refine or_congr_right ⟨?_, Or.inr⟩
    rintro (heq | hlater)
    · exact absurd (Prod.mk.inj heq).1 hn
    · exact hlater

/-- Following the entries from a node removes those that lie ahead and no others. -/
theorem lists_removeAlong {budget : Nat} {removed : List NodeId} {here : NodeId}
    {kept : List (NodeId × Hop)} (h : net.Lists key (kept ++ Path.stepsFrom here more))
    (hnodes : (kept.map Prod.fst ++ here :: more.map Hop.target).Nodup)
    (hremoved : ∀ n ∈ removed, n ∉ more.map Hop.target) (hbudget : more.length ≤ budget) :
    (removeAlong key budget net removed here).2.Lists key kept := by
  obtain ⟨_, hahead, hapart⟩ := List.nodup_append.mp hnodes
  have hhere : here ∉ kept.map Prod.fst := fun hmem => hapart here hmem here List.mem_cons_self rfl
  clear hnodes
  induction more generalizing budget net removed here with
  | nil =>
    have hkept : net.Lists key kept := by
      rwa [Path.stepsFrom, List.append_nil] at h
    have hnone : net.next? here key = none := by
      refine Option.eq_none_iff_forall_ne_some.mpr fun m hm => ?_
      obtain ⟨hop, hmem, _⟩ := (hkept here m).mp hm
      exact hhere (List.mem_map_of_mem hmem)
    cases budget with
    | zero => exact hkept
    | succ budget =>
      unfold removeAlong
      rw [hnone]
      exact hkept
  | cons hop rest ih =>
    cases budget with
    | zero => cases hbudget
    | succ budget =>
      have hnext : net.next? here key = some hop.target :=
        (h here hop.target).mpr ⟨hop, List.mem_append_right _ List.mem_cons_self, rfl⟩
      obtain ⟨hself, hrest⟩ := List.nodup_cons.mp hahead
      -- What lies ahead has not been removed yet, so that the removal does not stop here.
      have hnew : hop.target ∉ removed ++ [here] := by
        intro hmem
        rcases List.mem_append.mp hmem with hold | hlast
        · exact hremoved _ hold List.mem_cons_self
        · exact hself (List.mem_singleton.mp hlast ▸ List.mem_cons_self)
      have hsource : here ∉ (Path.stepsFrom hop.target rest).map Prod.fst := by
        rw [Path.map_fst_stepsFrom]
        exact fun hmem => hself (List.dropLast_subset _ hmem)
      have hapart' : ∀ a ∈ kept.map Prod.fst, ∀ b ∈ hop.target :: rest.map Hop.target, a ≠ b :=
        fun a ha b hb => hapart a ha b (List.mem_cons_of_mem _ hb)
      unfold removeAlong
      rw [hnext]
      dsimp only
      rw [if_neg hnew]
      refine ih (h.dropNext hhere hsource) (fun n hn hmem => ?_) (Nat.le_of_succ_le_succ hbudget)
        hrest hapart' fun hmem => hapart' _ hmem _ List.mem_cons_self rfl
      rcases List.mem_append.mp hn with hold | hlast
      · exact hremoved n hold (List.mem_cons_of_mem _ hmem)
      · exact hself (List.mem_singleton.mp hlast ▸ List.mem_cons_of_mem _ hmem)

theorem length_le_size {steps : List (NodeId × Hop)} (h : net.Lists key steps)
    (hnodup : (steps.map Prod.fst).Nodup) : steps.length ≤ net.forwarding.size := by
  have hentries : ((steps.map Prod.fst).map fun n => (n, key)).Nodup :=
    hnodup.map fun _ _ heq => (Prod.mk.inj heq).1
  have hsubset : ((steps.map Prod.fst).map fun n => (n, key)) ⊆ net.forwarding.keys := by
    intro e he
    obtain ⟨n, hn, rfl⟩ := List.mem_map.mp he
    obtain ⟨s, hs, rfl⟩ := List.mem_map.mp hn
    have hget : net.next? s.1 key = some s.2.target := (h s.1 s.2.target).mpr ⟨s.2, hs, rfl⟩
    rw [← Table.contains_iff_mem_keys, Table.contains]
    exact Option.isSome_iff_exists.mpr ⟨_, hget⟩
  have hle := (List.subperm_of_subset hentries hsubset).length_le
  unfold Table.keys at hle
  rwa [List.length_map, List.length_map, List.length_map] at hle

/-- Once the entries ahead have gone, those that are left describe the way so far. -/
theorem Describes.removeFrom (h : net.Describes key (p.extend more))
    (hp : (p.extend more).nodes.Nodup) : (net.removeFrom key p.last).2.Describes key p := by
  have hlists : net.Lists key (p.steps ++ Path.stepsFrom p.last more) := by
    rw [← Path.steps_extend]
    exact h
  have hnodes : (p.steps.map Prod.fst ++ p.last :: more.map Hop.target).Nodup := by
    rw [← List.singleton_append, ← List.append_assoc, Path.map_fst_steps_append_last,
      ← Path.nodes_extend]
    exact hp
  refine lists_removeAlong hlists hnodes (fun n hn => by cases hn) ?_
  have hsources : ((p.extend more).steps.map Prod.fst).Nodup := by
    rw [← Path.map_fst_steps_append_last] at hp
    exact (List.nodup_append.mp hp).1
  have hlength : (p.extend more).steps.length ≤ net.forwarding.size := length_le_size h hsources
  rw [Path.steps_extend, List.length_append, Path.length_stepsFrom] at hlength
  exact Nat.le_of_add_left_le hlength

end Remove

variable [Quantity R] {select : Selection R} {src dst : NodeId}

/-- The way of a flow between two hosts, over links of the network. -/
structure Way (t : Topology R) (src dst : NodeId) (p : Path) : Prop extends Route t src dst p where
  follows : ∀ s ∈ p.steps, Path.Follows t s.1 s.2

/-- What is known of a path that is adapted: it is simple, it takes links of the network, and the
entries of its flow describe it. -/
structure Traced (net : Network R) (key : FlowKey) (p : Path) : Prop where
  simple : p.nodes.Nodup
  follows : ∀ s ∈ p.steps, Path.Follows net.topology s.1 s.2
  describes : net.Describes key p

/-- Such a path that is read back ends at a host. -/
structure Marked (net : Network R) (key : FlowKey) (dst : NodeId) (p : Path) : Prop extends
    Traced net key p where
  last : p.last = dst

omit [Quantity R] in
theorem Way.marked (h : Way net.topology src dst p) (hne : src ≠ dst) (hp : net.Describes key p) :
    net.Marked key dst p :=
  ⟨⟨h.simple hne, h.follows, hp⟩, h.last⟩

omit [Quantity R] in
theorem Way.traced (h : Way net.topology src dst p) (hne : src ≠ dst) (hp : net.Describes key p) :
    net.Traced key ⟨src, p.hops⟩ := by
  rw [← h.start]
  exact (h.marked hne hp).toTraced

omit [Quantity R] in
/-- A way starts with an entry. -/
theorem Way.next? (h : Way net.topology src dst p) (hp : net.Describes key p) :
    ∃ m, net.next? src key = some m := by
  obtain ⟨hop, rest, hhops⟩ := List.exists_cons_of_ne_nil h.hops_ne_nil
  refine ⟨hop.target, (hp src hop.target).mpr ⟨hop, ?_, rfl⟩⟩
  unfold Path.steps
  rw [h.start, hhops]
  exact List.mem_cons_self

theorem Way.lt_size {t : Topology R} (h : Way t src dst p) (ht : t.WellFormed)
    (hsrc : src < t.nodes.size) : ∀ n ∈ p.nodes, n < t.nodes.size := by
  intro n hn
  rcases Path.mem_nodes hn with rfl | ⟨s, hs, rfl⟩
  · rw [h.start]
    exact hsrc
  · exact (h.follows s hs).lt_size ht

/-- Up to any of its nodes, a path goes on by the hop over the link to the next one. -/
theorem hopBetween?_of_extend {t : Topology R} (ht : t.Constructed) {hop : Hop} {rest : List Hop}
    (hsimple : (p.extend (hop :: rest)).nodes.Nodup)
    (hfollows : ∀ s ∈ (p.extend (hop :: rest)).steps, Path.Follows t s.1 s.2) :
    Path.hopBetween? t p.last hop.target = some hop ∧ hop.target ∉ p.nodes := by
  rw [Path.nodes_extend] at hsimple
  have hnew : hop.target ∉ p.nodes := fun hmem =>
    (List.nodup_append.mp hsimple).2.2 hop.target hmem hop.target List.mem_cons_self rfl
  have hmem : (p.last, hop) ∈ (p.extend (hop :: rest)).steps := by
    rw [Path.steps_extend]
    exact List.mem_append_right _ List.mem_cons_self
  exact ⟨(hfollows _ hmem).hopBetween? ht fun heq => hnew (heq ▸ p.last_mem), hnew⟩

theorem Traced.hopBetween? (h : net.Traced key (p.extend more)) (ht : net.topology.Constructed)
    {hop : Hop} {rest : List Hop} (hmore : more = hop :: rest) :
    Path.hopBetween? net.topology p.last hop.target = some hop ∧ hop.target ∉ p.nodes := by
  subst hmore
  exact hopBetween?_of_extend ht h.simple h.follows

section Walk

theorem walkAlong_eq (ht : net.topology.Constructed) {budget : Nat}
    (hsimple : (p.extend more).nodes.Nodup)
    (hfollows : ∀ s ∈ (p.extend more).steps, Path.Follows net.topology s.1 s.2)
    (hguides : net.Guides key (p.extend more)) (hend : (p.extend more).last = dst) (hne : more ≠ [])
    (hbudget : more.length ≤ budget + 1) :
    walkAlong net key dst budget p = .ok (p.extend more) := by
  induction more generalizing budget p with
  | nil => exact absurd rfl hne
  | cons hop rest ih =>
    obtain ⟨hhop, hnew⟩ := hopBetween?_of_extend ht hsimple hfollows
    have hnext : net.next? p.last key = some hop.target := by
      apply hguides (p.last, hop)
      rw [Path.steps_extend]
      exact List.mem_append_right _ List.mem_cons_self
    have hself : hop.target ≠ p.last := fun heq => hnew (heq ▸ p.last_mem)
    have hfound : (net.next? p.last key).bind (Path.hopBetween? net.topology p.last) =
        some hop := by
      rw [hnext, Option.bind_some, hhop]
    rw [Path.extend_cons] at hsimple hfollows hguides hend ⊢
    cases rest with
    -- The walk ends with the last hop and not before, since the nodes are all different.
    | nil =>
      have hdst : hop.target = dst := by
        rwa [Path.extend_nil, Path.last_push] at hend
      unfold walkAlong
      dsimp only
      rw [hfound]
      dsimp only
      rw [if_neg hself, if_neg hnew, if_pos hdst, Path.extend_nil]
    | cons hop' rest =>
      have hdst : hop.target ≠ dst := by
        intro heq
        have hsource : ((p.push hop).last, hop') ∈ ((p.push hop).extend (hop' :: rest)).steps := by
          rw [Path.steps_extend]
          exact List.mem_append_right _ List.mem_cons_self
        refine Path.source_ne_last hsimple hsource ?_
        rw [Path.last_push, hend, heq]
      cases budget with
      | zero => simp at hbudget
      | succ budget =>
        conv => lhs; unfold walkAlong
        dsimp only
        rw [hfound]
        dsimp only
        rw [if_neg hself, if_neg hnew, if_neg hdst]
        exact ih hsimple hfollows hguides hend (List.cons_ne_nil _ _)
          (Nat.le_of_succ_le_succ hbudget)

/-- A way along which entries lead is read back from them. -/
theorem walk_of_guides (ht : net.topology.Constructed) (hsrc : src < net.topology.nodes.size)
    (hway : Way net.topology src dst p) (hp : net.Guides key p) :
    net.walk key src dst = .ok p := by
  have hcontains : net.topology.containsNode src = true := decide_eq_true hsrc
  have hstart : p = (⟨src, []⟩ : Path).extend p.hops := hway.start ▸ p.eq_extend
  unfold walk
  rw [if_pos hcontains]
  by_cases heq : src = dst
  -- Within one host the only way is over its loop-back.
  · obtain ⟨hop, hhop, hhops⟩ := hway.loopback heq
    have hback : p = ⟨src, [hop]⟩ := by
      rw [hstart, hhops]
      rfl
    have htarget : hop.target = src := by
      rw [← heq] at hway
      have hlast := hway.last
      rwa [hback] at hlast
    have hnext : net.next? src key = some src := by
      have hstep := hp (src, hop) (hback ▸ List.mem_cons_self)
      rwa [htarget] at hstep
    have hfound : (net.next? src key).bind (Path.hopBetween? net.topology src) = some hop := by
      rw [hnext, Option.bind_some, hhop]
    have hlast : (⟨src, []⟩ : Path).last = src := rfl
    unfold walkAlong
    dsimp only
    rw [hlast, hfound]
    dsimp only
    rw [if_pos htarget, if_pos heq, hback]
    rfl
  -- Between two hosts it is simple, and thus within the budget.
  · have hsimple := hway.simple heq
    have hlength := Routes.length_le_of_nodup hsimple (hway.lt_size ht.wellFormed hsrc)
    have hfollows := hway.follows
    have hend := hway.last
    unfold Path.nodes at hlength
    rw [List.length_cons, List.length_map] at hlength
    rw [hstart] at hsimple hfollows hp hend
    rw [walkAlong_eq ht hsimple hfollows hp hend hway.hops_ne_nil (by omega), ← hstart]

/-- A way that is described by its entries is read back from them. -/
theorem walk_eq (ht : net.topology.Constructed) (hsrc : src < net.topology.nodes.size)
    (hway : Way net.topology src dst p) (hp : net.Describes key p) :
    net.walk key src dst = .ok p :=
  walk_of_guides ht hsrc hway hp.guides

end Walk

section Follow

variable {budget : Nat}

omit [Quantity R] in
theorem follow_of_arrived (h : p.last = dst) :
    follow select key dst budget net p = (.ok false, net) := by
  unfold follow
  dsimp only
  rw [if_pos h]

omit [Quantity R] in
theorem follow_of_error (h : p.last ≠ dst) {e : Fault R}
    (hc : net.choose? select p.last dst key = .error e) :
    follow select key dst budget net p = (.error e, net) := by
  unfold follow
  dsimp only
  rw [if_neg h, hc]

omit [Quantity R] in
theorem follow_of_agreed (h : p.last ≠ dst) {hop : Hop}
    (hc : net.choose? select p.last dst key = .ok (some hop))
    (hnext : net.next? p.last key = some hop.target) (hnew : hop.target ∉ p.nodes) :
    follow select key dst (budget + 1) net p = follow select key dst budget net (p.push hop) := by
  have hagreed : (net.next? p.last key == some hop.target && decide (hop.target ∉ p.nodes)) =
      true := by
    rw [hnext, beq_self_eq_true, decide_eq_true hnew]
    rfl
  conv => lhs; unfold follow
  dsimp only
  rw [if_neg h, hc]
  dsimp only
  rw [Option.filter_some, if_pos hagreed]

omit [Quantity R] in
/-- Where the entry and the choice do not agree, the rest is laid anew. -/
theorem follow_anew (h : p.last ≠ dst) {chosen : Option Hop}
    (hc : net.choose? select p.last dst key = .ok chosen)
    (hdisagreed : budget = 0 ∨ ∀ hop, chosen = some hop →
      ¬ (net.next? p.last key = some hop.target ∧ hop.target ∉ p.nodes)) :
    follow select key dst budget net p =
      let laid := layFrom select (net.removeFrom key p.last).2 key dst p
      (laid.1.map fun _ => true, laid.2) := by
  unfold follow
  dsimp only
  rw [if_neg h, hc]
  dsimp only
  generalize layFrom select (net.removeFrom key p.last).2 key dst p = laid
  obtain ⟨outcome, net'⟩ := laid
  cases budget with
  | zero => cases outcome <;> rfl
  | succ budget =>
    have hnone : (chosen.filter fun hop =>
        net.next? p.last key == some hop.target && decide (hop.target ∉ p.nodes)) = none := by
      refine Option.filter_eq_none_iff.mpr fun hop hhop hagreed => ?_
      rw [Bool.and_eq_true, beq_iff_eq, decide_eq_true_eq] at hagreed
      exact hdisagreed.resolve_left (Nat.succ_ne_zero budget) hop hhop hagreed
    rw [hnone]
    cases outcome <;> rfl

variable (hsel : ∀ entries, Picks select (net.withForwarding entries))

include hsel

/-- The rest of a path is laid anew,
or there is a dead end and the entries end where it would have begun. -/
theorem layFrom_ends {t : Topology R} (hrouted : net.Routed t) (hlaid : net.Laid t dst p)
    (h : net.Traced key (p.extend more)) :
    (∃ p' net', layFrom select (net.removeFrom key p.last).2 key dst p = (.ok p', net') ∧
      p'.start = p.start ∧ net'.Marked key dst p') ∨
    ∃ e net', layFrom select (net.removeFrom key p.last).2 key dst p = (.error e, net') ∧
      e.isDeadEnd = true ∧ net'.Traced key p := by
  have htouches : Touches key net (net.removeFrom key p.last).2 :=
    touches_removeAlong key _ net [] p.last
  have hdescribes := h.describes.removeFrom h.simple
  have hafter : Touches key net (layFrom select (net.removeFrom key p.last).2 key dst p).2 :=
    htouches.trans (touches_lay select key dst _ (net.removeFrom key p.last).2 [] p)
  -- Removal keeps the topology, whose number of nodes is the budget.
  have hbudget : net.topology.nodes.size <
      (net.removeFrom key p.last).2.topology.nodes.size + p.nodes.length := by
    rw [htouches.topology]
    exact Nat.lt_add_of_pos_right (List.length_pos_of_ne_nil (List.cons_ne_nil _ _))
  have hends := lay_ends [] (steers_entries hsel key) htouches.rest hrouted hlaid hbudget
  have hok {p' : Path} {net' : Network R}
      (heq : layFrom select (net.removeFrom key p.last).2 key dst p = (.ok p', net')) :=
    lay_ok heq hlaid.simple
  have hfailed {e : Fault R} {net' : Network R}
      (heq : layFrom select (net.removeFrom key p.last).2 key dst p = (.error e, net')) :
      net'.Traced key p := by
    refine ⟨hlaid.simple, ?_, fun n m => ?_⟩
    · rw [heq] at hafter
      rw [hafter.topology]
      exact hlaid.follows
    · have hleft (n m : NodeId) (hm : (net.removeFrom key p.last).2.next? n key = some m) :
          n ∈ p.nodes ∧ n ≠ p.last := by
        obtain ⟨hop, hstep, _⟩ := (hdescribes n m).mp hm
        exact ⟨List.dropLast_subset _ (Path.source_mem_dropLast hstep),
          Path.source_ne_last hlaid.simple hstep⟩
      rw [lay_error heq hleft (fun n hn => by cases hn) (fun _ _ => rfl) n]
      exact hdescribes n m
  unfold layFrom at hafter hok hfailed ⊢
  generalize lay select key dst _ (net.removeFrom key p.last).2 [] p = result at *
  obtain ⟨outcome, net'⟩ := result
  rcases hends with ⟨p', rfl, hlaid', hstart, hlast⟩ | ⟨here, rfl, _⟩ | ⟨rfl, _⟩
  · obtain ⟨hjoins, hmarks⟩ := hok rfl
    refine Or.inl ⟨p', net', rfl, hstart, ⟨hjoins.simple, ?_, hmarks hdescribes⟩, hlast⟩
    rw [hafter.topology]
    exact hlaid'.follows
  · exact Or.inr ⟨_, net', rfl, rfl, hfailed rfl⟩
  · exact Or.inr ⟨_, net', rfl, rfl, hfailed rfl⟩

/-- A choice on the way to a host makes progress, or there is none to make. -/
theorem choose?_ends {t : Topology R} (hrouted : net.Routed t) {here : NodeId} (hne : here ≠ dst) :
    net.choose? select here dst key = .ok none ∨
    (∃ hop, net.Progress t dst here hop ∧ net.choose? select here dst key = .ok (some hop)) ∨
    net.choose? select here dst key = .error (.breach .outOfRange) := by
  have hpicks : Picks select net := hsel net.forwarding
  have hprogress : ∀ l ∈ (net.routing here).route dst,
      ∃ hop, Path.hop? net.topology here l = some hop ∧ net.Progress t dst here hop :=
    fun l hl => hrouted.progress hne.symm hl
  have hlinks : ∀ l ∈ (net.routing here).route dst, (net.topology.link? l).isSome = true := by
    intro l hl
    obtain ⟨hop, hhop, _⟩ := hprogress l hl
    obtain ⟨link, hlink, _⟩ := Option.map_eq_some_iff.mp hhop
    rw [hlink]
    rfl
  rcases choose?_cases key hpicks hlinks with ⟨hc, _⟩ | ⟨l, hl, hop, hhop, hc⟩ | ⟨hc, _⟩
  · exact Or.inl hc
  · obtain ⟨hop', hhop', hgood⟩ := hprogress l hl
    obtain rfl : hop' = hop := Option.some.inj (hhop'.symm.trans hhop)
    exact Or.inr (Or.inl ⟨hop', hgood, hc⟩)
  · exact Or.inr (Or.inr hc)

/-- From a node where the entry and the choice do not agree another path is laid, or there is a dead
end and the entries end at the node. -/
theorem follow_anew_ends {t : Topology R} (hrouted : net.Routed t) (hlaid : net.Laid t dst p)
    (h : net.Traced key (p.extend more)) (hne : p.last ≠ dst) {chosen : Option Hop}
    (hc : net.choose? select p.last dst key = .ok chosen)
    (hdisagreed : budget = 0 ∨ ∀ hop, chosen = some hop →
      ¬ (net.next? p.last key = some hop.target ∧ hop.target ∉ p.nodes)) :
    (∃ p' net', follow select key dst budget net p = (.ok true, net') ∧
      p'.start = p.start ∧ net'.Marked key dst p') ∨
    ∃ e net', follow select key dst budget net p = (.error e, net') ∧ e.isDeadEnd = true ∧
      ∃ kept, kept <+: more ∧ net'.Traced key (p.extend kept) := by
  rw [follow_anew hne hc hdisagreed]
  rcases layFrom_ends hsel hrouted hlaid h with
    ⟨p', net', heq, hstart, hmarked⟩ | ⟨e, net', heq, hdead, htraced⟩
  · rw [heq]
    exact Or.inl ⟨p', net', rfl, hstart, hmarked⟩
  · rw [heq]
    exact Or.inr ⟨e, net', rfl, hdead, [], List.nil_prefix, p.extend_nil.symm ▸ htraced⟩

/-- A path that is adapted stays what it is, or another one takes its place from some node on, or
there is a dead end and the entries of a beginning of the path are left. -/
theorem follow_ends {t : Topology R} (hrouted : net.Routed t) (hlaid : net.Laid t dst p)
    (h : net.Traced key (p.extend more)) (ht : net.topology.Constructed) :
    follow select key dst budget net p = (.ok false, net) ∨
    (∃ p' net', follow select key dst budget net p = (.ok true, net') ∧
      p'.start = p.start ∧ net'.Marked key dst p') ∨
    ∃ e net', follow select key dst budget net p = (.error e, net') ∧ e.isDeadEnd = true ∧
      ∃ kept, kept <+: more ∧ net'.Traced key (p.extend kept) := by
  induction budget using Nat.strong_induction_on generalizing p more with
  | h budget ih =>
    by_cases harrived : p.last = dst
    · exact Or.inl (follow_of_arrived harrived)
    · rcases choose?_ends hsel hrouted harrived with hc | ⟨hop, hgood, hc⟩ | hc
      · refine Or.inr (follow_anew_ends hsel hrouted hlaid h harrived hc (Or.inr fun hop heq => ?_))
        cases heq
      · by_cases hagreed : net.next? p.last key = some hop.target ∧ hop.target ∉ p.nodes
        · cases budget with
          | zero =>
            exact Or.inr (follow_anew_ends hsel hrouted hlaid h harrived hc (Or.inl rfl))
          | succ budget =>
            rw [follow_of_agreed harrived hc hagreed.1 hagreed.2]
            have hnext := h.describes.next?_last h.simple
            cases more with
            | nil => cases hagreed.1.symm.trans hnext
            | cons hop' rest =>
              -- The entry leads over the same link as the choice, for there is no other one.
              have htarget : hop.target = hop'.target :=
                Option.some.inj (hagreed.1.symm.trans hnext)
              have hne : p.last ≠ hop.target := fun heq => hagreed.2 (heq ▸ p.last_mem)
              have hlink := (hgood.follows.hopBetween? ht hne).symm
              rw [htarget, (h.hopBetween? ht rfl).1] at hlink
              obtain rfl : hop = hop' := Option.some.inj hlink
              rw [Path.extend_cons] at h
              have hrest := ih budget (Nat.lt_succ_self _) (hlaid.push hgood) h
              refine hrest.imp_right (Or.imp_right ?_)
              rintro ⟨e, net', heq, hdead, kept, hprefix, htraced⟩
              refine ⟨e, net', heq, hdead, hop :: kept,
                List.cons_prefix_cons.mpr ⟨rfl, hprefix⟩, ?_⟩
              rwa [Path.extend_cons]
        · refine Or.inr (follow_anew_ends hsel hrouted hlaid h harrived hc
            (Or.inr fun hop' heq => ?_))
          exact Option.some.inj heq ▸ hagreed
      · exact Or.inr (Or.inr ⟨_, net, follow_of_error harrived hc, rfl, more, List.prefix_rfl, h⟩)

end Follow

section Hosts

omit [Quantity R] in
theorem lt_size_of_checkHost {t : Topology R} {n : NodeId} (h : t.checkHost n = .ok ()) :
    n < t.nodes.size := by
  rcases checkHost_cases t n with ⟨_, hlt⟩ | ⟨e, he, _⟩
  · exact hlt
  · cases h.symm.trans he

omit [Quantity R] in
theorem Marked.way (h : net.Marked key dst p) (hstart : p.start = src) (hne : src ≠ dst) :
    Way net.topology src dst p where
  start := hstart
  last := h.last
  simple _ := h.simple
  loopback heq := absurd heq hne
  follows := h.follows

/-- A path that is found is a way between the hosts. -/
theorem way_of_build (hnet : net.Built)
    (hsel : ∀ entries, Picks select (net.withForwarding entries))
    (h : (build select net key src dst).1 = .ok p) : Way net.topology src dst p := by
  rcases build_ends hnet hsel key src dst with ⟨p', _, hbuild, hfollows⟩ | ⟨e, _, hbuild, _⟩
  · obtain rfl : p' = p := Except.ok.inj ((congrArg Prod.fst hbuild).symm.trans h)
    exact ⟨(build_ok hbuild).1, hfollows⟩
  · cases (congrArg Prod.fst hbuild).symm.trans h

variable (hnet : net.Built) (hsel : ∀ entries, Picks select (net.withForwarding entries))
  (hsrc : net.topology.checkHost src = .ok ()) (hdst : net.topology.checkHost dst = .ok ())

include hnet hsel hsrc hdst

/-- Between two hosts a flow without entries gets a way that
its entries describe, or there is a dead end. -/
theorem build_way (h : net.Lacks key) :
    (∃ p net', build select net key src dst = (.ok p, net') ∧ Way net.topology src dst p ∧
      net'.Describes key p) ∨
    ∃ e net', build select net key src dst = (.error e, net') ∧ e.isDeadEnd = true := by
  rcases build_ends hnet hsel key src dst with ⟨p, net', hbuild, hfollows⟩ |
    ⟨e, net', hbuild, _, hdead⟩
  · obtain ⟨hroute, hdescribes⟩ := build_ok hbuild
    exact Or.inl ⟨p, net', hbuild, ⟨hroute, hfollows⟩, hdescribes h⟩
  · exact Or.inr ⟨e, net', hbuild, hdead hsrc hdst⟩

/-- A path from one host is adapted to be a way to the other, or it stays, or there is a dead end
and the entries of a beginning of the path are left. -/
theorem update_ends (hp : src ≠ dst → net.Traced key ⟨src, more⟩) :
    net.update select key src dst = (.ok false, net) ∨
    (∃ p' net', net.update select key src dst = (.ok true, net') ∧ Way net.topology src dst p' ∧
      net'.Describes key p') ∨
    ∃ e net', net.update select key src dst = (.error e, net') ∧ e.isDeadEnd = true ∧
      ∃ kept, kept <+: more ∧ net'.Traced key ⟨src, kept⟩ := by
  have htouches := touches_update select net key src dst
  unfold update at htouches ⊢
  rw [hsrc, hdst] at htouches ⊢
  dsimp only at htouches ⊢
  by_cases heq : src = dst
  · exact Or.inl (if_pos heq)
  · rw [if_neg heq] at htouches ⊢
    obtain ⟨ht, t, hrouted⟩ := hnet.routed
    have hlaid : net.Laid t dst ⟨src, []⟩ := .start src (lt_size_of_checkHost hsrc)
    have htraced : net.Traced key ((⟨src, []⟩ : Path).extend more) := hp heq
    rcases follow_ends hsel hrouted hlaid htraced ht with
      hsame | ⟨p', net', hfollow, hstart, hmarked'⟩ | hdead
    · exact Or.inl hsame
    · rw [hfollow] at htouches
      refine Or.inr (Or.inl ⟨p', net', hfollow, ?_, hmarked'.describes⟩)
      rw [← htouches.topology]
      exact hmarked'.way hstart heq
    · exact Or.inr (Or.inr hdead)

omit [Quantity R] hnet hsel in
/-- Entries that have been adapted, if that is wanted, are read back. -/
theorem resolve_of_updated {dynamic updated : Bool} {m : NodeId} {net' : Network R}
    (hnext : net.next? src key = some m)
    (hupdated : (if dynamic then net.update select key src dst else (.ok false, net)) =
      (.ok updated, net'))
    (hwalk : net'.walk key src dst = .ok p) :
    net.resolve select key src dst dynamic = (.ok p, net') := by
  unfold resolve
  rw [hsrc, hdst, hnext]
  dsimp only
  rw [hupdated]
  dsimp only
  rw [hwalk]

omit hsel in
/-- A way that the entries describe is found again, and nothing changes. -/
theorem resolve_of_way (hway : Way net.topology src dst p) (hp : net.Describes key p) :
    net.resolve select key src dst false = (.ok p, net) := by
  obtain ⟨m, hnext⟩ := hway.next? hp
  exact resolve_of_updated hsrc hdst hnext rfl
    (walk_eq hnet.routed.1 (lt_size_of_checkHost hsrc) hway hp)

/-- Between two hosts a flow that has a way or no entries
has a way in the end, or there is a dead end. -/
theorem resolve_way (dynamic : Bool)
    (h : net.Lacks key ∨ ∃ p, Way net.topology src dst p ∧ net.Describes key p) :
    (∃ p net', net.resolve select key src dst dynamic = (.ok p, net') ∧
      Way net.topology src dst p ∧ net'.Describes key p) ∨
    ∃ e net', net.resolve select key src dst dynamic = (.error e, net') ∧ e.isDeadEnd = true := by
  rcases h with hlacks | ⟨p, hway, hp⟩
  · have hbuild : net.resolve select key src dst dynamic = build select net key src dst := by
      unfold resolve
      rw [hsrc, hdst, hlacks src]
    rw [hbuild]
    exact build_way hnet hsel hsrc hdst hlacks
  · cases dynamic with
    | false => exact Or.inl ⟨p, net, resolve_of_way hnet hsrc hdst hway hp, hway, hp⟩
    | true =>
      obtain ⟨m, hnext⟩ := hway.next? hp
      have htouches := touches_update select net key src dst
      rcases update_ends hnet hsel hsrc hdst (fun hne => hway.traced hne hp) with
        hsame | ⟨p', net', hupdated, hway', hp'⟩ | ⟨e, net', herror, hdead, _⟩
      · have hwalk := walk_eq hnet.routed.1 (lt_size_of_checkHost hsrc) hway hp
        exact Or.inl ⟨p, net, resolve_of_updated hsrc hdst hnext hsame hwalk, hway, hp⟩
      · rw [hupdated] at htouches
        have htopology : net'.topology = net.topology := htouches.topology
        have hwalk : net'.walk key src dst = .ok p' :=
          walk_eq (htopology ▸ hnet.routed.1) (htopology ▸ lt_size_of_checkHost hsrc)
            (htopology ▸ hway') hp'
        exact Or.inl ⟨p', net', resolve_of_updated hsrc hdst hnext hupdated hwalk, hway', hp'⟩
      · refine Or.inr ⟨e, net', ?_, hdead⟩
        unfold resolve
        rw [hsrc, hdst, hnext]
        dsimp only
        rw [if_pos rfl, herror]

end Hosts

end Network

end FlowFabric
