import FlowFabric.Proofs.Topology.Coherence
import FlowFabric.Proofs.Topology.FatTree
import FlowFabric.Proofs.Topology.Incidence
import FlowFabric.Quantity.Exact

namespace FlowFabric

namespace FatTree

open Place

variable {half pods : Nat} {x y : Place}

/-- The places above and below a place. -/
def Place.neighbours (half pods : Nat) : Place → List Place
  | core c => (List.range pods).map fun pod => agg pod (c / half)
  | agg pod a => (List.range half).map (fun j => core (a * half + j)) ++
    (List.range half).map (edge pod)
  | edge pod e => (List.range half).map (agg pod) ++ (List.range half).map (host pod e)
  | host pod e _ => [edge pod e]

theorem div_group {a half j : Nat} (hj : j < half) : (a * half + j) / half = a := by
  rw [Nat.mul_comm, Nat.mul_add_div (Nat.zero_lt_of_lt hj), Nat.div_eq_of_lt hj, Nat.add_zero]

theorem mem_neighbours (hx : x.Within half pods) : y ∈ x.neighbours half pods ↔
    (x, y) ∈ (plan half pods).links ∨ (y, x) ∈ (plan half pods).links := by
  rw [mem_links, mem_links]
  cases x with
  | core c =>
    have hpos : 0 < half := by
      have hc : c < half * half := hx
      exact Nat.pos_of_mul_pos_left (Nat.zero_lt_of_lt hc)
    simp only [neighbours, List.mem_map, List.mem_range]
    constructor
    · rintro ⟨pod, hpod, rfl⟩
      -- The number of a core is made up of its group and its place there.
      have hlink := Hangs.agg hpod (Nat.div_lt_of_lt_mul hx) (Nat.mod_lt c hpos)
      rw [Nat.mul_comm, Nat.div_add_mod] at hlink
      exact Or.inl hlink
    · rintro (hlink | hlink) <;> cases hlink
      rename_i pod a j hpod ha hj
      exact ⟨pod, hpod, by rw [div_group hj]⟩
  | agg pod a =>
    simp only [neighbours, List.mem_append, List.mem_map, List.mem_range]
    constructor
    · rintro (⟨j, hj, rfl⟩ | ⟨e, he, rfl⟩)
      · exact Or.inr (.agg hx.1 hx.2 hj)
      · exact Or.inl (.edge hx.1 hx.2 he)
    · rintro (hlink | hlink) <;> cases hlink
      · exact Or.inr ⟨_, ‹_›, rfl⟩
      · exact Or.inl ⟨_, ‹_›, rfl⟩
  | edge pod e =>
    simp only [neighbours, List.mem_append, List.mem_map, List.mem_range]
    constructor
    · rintro (⟨a, ha, rfl⟩ | ⟨h, hh, rfl⟩)
      · exact Or.inr (.edge hx.1 ha hx.2)
      · exact Or.inl (.host hx.1 hx.2 hh)
    · rintro (hlink | hlink) <;> cases hlink
      · exact Or.inr ⟨_, ‹_›, rfl⟩
      · exact Or.inl ⟨_, ‹_›, rfl⟩
  | host pod e h =>
    rw [neighbours, List.mem_singleton]
    constructor
    · rintro rfl
      exact Or.inr (.host hx.1 hx.2.1 hx.2.2)
    · rintro (hlink | hlink) <;> cases hlink
      rfl

theorem nodup_neighbours (x : Place) : (x.neighbours half pods).Nodup := by
  cases x with
  | core c => exact List.nodup_range.map fun _ _ heq => (agg.inj heq).1
  | agg pod a =>
    refine List.nodup_append.mpr ⟨?_, ?_, ?_⟩
    · exact List.nodup_range.map fun _ _ heq => Nat.add_left_cancel (core.inj heq)
    · exact List.nodup_range.map fun _ _ heq => (edge.inj heq).2
    · intro y hy z hz heq
      obtain ⟨_, _, rfl⟩ := List.mem_map.mp hy
      obtain ⟨_, _, rfl⟩ := List.mem_map.mp hz
      cases heq
  | edge pod e =>
    refine List.nodup_append.mpr ⟨?_, ?_, ?_⟩
    · exact List.nodup_range.map fun _ _ heq => (agg.inj heq).2
    · exact List.nodup_range.map fun _ _ heq => (host.inj heq).2.2
    · intro y hy z hz heq
      obtain ⟨_, _, rfl⟩ := List.mem_map.mp hy
      obtain ⟨_, _, rfl⟩ := List.mem_map.mp hz
      cases heq
  | host pod e h => exact List.nodup_singleton _

/-- All places, tier by tier. -/
def tiers (half pods : Nat) : List Place :=
  (List.range (half * half)).map core ++ aggTier half pods ++ edgeTier half pods ++
    hostTier half pods

theorem tiers_perm (half pods : Nat) : (tiers half pods).Perm (plan half pods).places := by
  -- In the plan each edge is followed by its hosts, and each pod by the next one.
  have hracks (pod : Nat) : ((List.range half).map (edge pod) ++
      (List.range half).flatMap fun e => (List.range half).map (host pod e)).Perm
        ((List.range half).flatMap fun e => edge pod e :: (List.range half).map (host pod e)) :=
    List.map_append_flatMap_perm _ _ _
  have hpods : (aggTier half pods ++ (edgeTier half pods ++ hostTier half pods)).Perm
      ((List.range pods).flatMap (podPlaces half)) := by
    unfold aggTier edgeTier hostTier podPlaces
    refine ((List.flatMap_append_perm _ _ _).append_left _).trans ?_
    refine (List.flatMap_append_perm _ _ _).trans ?_
    exact List.Perm.flatMap_left _ fun pod _ => (hracks pod).append_left _
  unfold tiers plan
  dsimp only
  rw [List.append_assoc, List.append_assoc]
  exact hpods.append_left _

theorem mem_aggTier : x ∈ aggTier half pods ↔ ∃ pod < pods, ∃ a < half, agg pod a = x := by
  simp [aggTier]

theorem mem_edgeTier : x ∈ edgeTier half pods ↔ ∃ pod < pods, ∃ e < half, edge pod e = x := by
  simp [edgeTier]

theorem mem_hostTier :
    x ∈ hostTier half pods ↔ ∃ pod < pods, ∃ e < half, ∃ h < half, host pod e h = x := by
  simp [hostTier]

theorem length_aggTier : (aggTier half pods).length = pods * half := by
  simp [aggTier]

theorem length_edgeTier : (edgeTier half pods).length = pods * half := by
  simp [edgeTier]

theorem length_hostTier : (hostTier half pods).length = pods * (half * half) := by
  simp [hostTier]

/-- Where there are twice as many pods as an edge has hosts,
all switches have as many neighbours. -/
theorem length_neighbours (hpods : pods = 2 * half) (x : Place) :
    (x.neighbours half pods).length = if x.kind.isHost then 1 else pods := by
  cases x <;> simp [neighbours, kind, NodeKind.isHost] <;> omega

theorem countP_host :
    (tiers half pods).countP (fun x => x.kind.isHost) = pods * (half * half) := by
  simp [tiers, aggTier, edgeTier, hostTier, kind, NodeKind.isHost, List.countP_flatMap,
    Function.comp_def]

theorem countP_switch : (tiers half pods).countP (fun x => !x.kind.isHost) =
    half * half + pods * half + pods * half := by
  simp [tiers, aggTier, edgeTier, hostTier, kind, NodeKind.isHost, List.countP_flatMap,
    Function.comp_def, Nat.add_assoc]

theorem sum_ite {α : Type} (p : α → Bool) (d : Nat) (l : List α) :
    (l.map fun x => if p x then 1 else d).sum = l.countP p + l.countP (fun x => !p x) * d := by
  induction l with
  | nil => simp
  | cons x rest ih =>
    rw [List.map_cons, List.sum_cons, ih, List.countP_cons, List.countP_cons]
    cases p x
    · simp only [Bool.not_false, if_true, Bool.false_eq_true, if_false]
      ring
    · simp only [Bool.not_true, if_true, Bool.false_eq_true, if_false]
      ring

/-- The places of one tier that are in one pod follow each other. -/
theorem take_drop_flatMap {α : Type} {f : Nat → List α} (hf : ∀ pod, (f pod).length = half)
    {pod : Nat} (hpod : pod < pods) :
    (((List.range pods).flatMap f).drop (pod * half)).take half = f pod := by
  induction pods with
  | zero => exact absurd hpod (Nat.not_lt_zero pod)
  | succ n ih =>
    have hlength : ((List.range n).flatMap f).length = n * half := by
      simp [List.length_flatMap, hf]
    rw [List.range_succ, List.flatMap_append, List.flatMap_singleton]
    rcases Nat.lt_or_eq_of_le (Nat.lt_succ_iff.mp hpod) with hlt | rfl
    · have hfits : pod * half + half ≤ n * half := by
        rw [← Nat.succ_mul]
        exact Nat.mul_le_mul_right half hlt
      rw [List.drop_append_of_le_length (by omega),
        List.take_append_of_le_length (by rw [List.length_drop]; omega), ih hlt]
    · rw [List.drop_left' hlength]
      exact List.take_of_length_le (hf _).le

/-- The nodes of one pod in a list that goes from pod to pod, with so many nodes for each. -/
def inPod (half : Nat) (l : List NodeId) (pod : Nat) : List NodeId :=
  (l.drop (pod * half)).take half

variable {R : Type} [Quantity R] {t : Topology R}

/-- The fat-tree of an arity: its parts, with the names and kinds of their nodes in order, the links
of each node, and which nodes are joined. -/
structure Shaped (k : Nat) (parts : Layout) (t : Topology R) : Prop where
  cores : parts.cores.length = (k / 2) ^ 2
  aggregates : parts.aggregates.length = k ^ 2 / 2
  edges : parts.edges.length = k ^ 2 / 2
  hosts : parts.hosts.length = k ^ 3 / 4
  others : parts.gateways = [] ∧ parts.intercloud = []
  distinct : (parts.cores ++ parts.aggregates ++ parts.edges ++ parts.hosts).Nodup
  all : ∀ n, n ∈ parts.cores ++ parts.aggregates ++ parts.edges ++ parts.hosts ↔ n < t.nodes.size
  labelled : (parts.cores ++ parts.aggregates ++ parts.edges ++ parts.hosts).map
      (fun n => (t.node? n).map fun node => (node.name, node.kind)) =
    (tiers (k / 2) k).map fun x => some (x.name, x.kind)
  /-- Each node lists just the links that join it with others. -/
  coherent : t.Coherent
  switchLinks : ∀ n ∈ parts.cores ++ parts.aggregates ++ parts.edges, (t.linksOf n).length = k
  hostLinks : ∀ n ∈ parts.hosts, (t.linksOf n).length = 1
  meets : ∀ c ∈ parts.cores, ∀ pod < k, ∃! a, a ∈ inPod (k / 2) parts.aggregates pod ∧ t.Joined c a
  complete : ∀ pod < k, ∀ a ∈ inPod (k / 2) parts.aggregates pod,
    ∀ e ∈ inPod (k / 2) parts.edges pod, t.Joined a e
  apart : ∀ pod < k, ∀ tier ∈ [parts.aggregates, parts.edges],
    ∀ a ∈ inPod (k / 2) tier pod, ∀ b ∈ inPod (k / 2) tier pod, ¬ t.Joined a b
  links : t.links.size = k ^ 3
  loopbacks : t.loopbacks = k ^ 3 / 4

theorem parts_eq (half pods : Nat) :
    (layout half pods).cores ++ (layout half pods).aggregates ++ (layout half pods).edges ++
      (layout half pods).hosts = (tiers half pods).map (plan half pods).number := by
  unfold tiers
  rw [List.map_append, List.map_append, List.map_append, List.map_map]
  rfl

theorem mem_inPod_aggregates {pod : Nat} (hpod : pod < pods) {n : NodeId} :
    n ∈ inPod half (layout half pods).aggregates pod ↔
      ∃ a < half, (plan half pods).number (agg pod a) = n := by
  unfold inPod layout aggTier
  dsimp only
  rw [List.map_flatMap, take_drop_flatMap (by simp) hpod]
  simp

theorem mem_inPod_edges {pod : Nat} (hpod : pod < pods) {n : NodeId} :
    n ∈ inPod half (layout half pods).edges pod ↔
      ∃ e < half, (plan half pods).number (edge pod e) = n := by
  unfold inPod layout edgeTier
  dsimp only
  rw [List.map_flatMap, take_drop_flatMap (by simp) hpod]
  simp

section Drawn

variable (hdrawn : (plan half pods).Drawn (plan half pods).places (plan half pods).links t)

include hdrawn

theorem joined_iff (hx : x ∈ (plan half pods).places) (hy : y ∈ (plan half pods).places) :
    t.Joined ((plan half pods).number x) ((plan half pods).number y) ↔
      y ∈ x.neighbours half pods := by
  rw [hdrawn.joined_number hx hy, mem_neighbours (mem_places.mp hx)]

theorem degree_number (hpods : pods = 2 * half) (hx : x ∈ (plan half pods).places) :
    t.degree ((plan half pods).number x) = if x.kind.isHost then 1 else pods := by
  rw [hdrawn.degree_eq (sound half pods) hx (nodup_neighbours x) fun y =>
    mem_neighbours (mem_places.mp hx), length_neighbours hpods]

theorem numbers_perm : ((tiers half pods).map (plan half pods).number).Perm
    (List.range t.nodes.size) := by
  rw [hdrawn.size_eq, ← Plan.map_number (sound half pods).places]
  exact (tiers_perm half pods).map _

theorem loopbacks_eq : t.loopbacks = pods * (half * half) := by
  rw [hdrawn.loopbacks_eq, ← (tiers_perm half pods).countP_eq]
  exact countP_host

theorem connections_eq (hpods : pods = 2 * half) : t.connections = 3 * (pods * (half * half)) := by
  have hsum := hdrawn.constructed.sum_degree
  have hdegree : ∀ n x, (plan half pods).places[n]? = some x →
      t.degree n = if x.kind.isHost then 1 else pods := by
    intro n x hn
    rw [← Plan.number_of_getElem? (sound half pods).places hn]
    exact degree_number hdrawn hpods (List.mem_of_getElem? hn)
  rw [hdrawn.sum_nodes hdegree, ← ((tiers_perm half pods).map _).sum_eq, sum_ite, countP_host,
    countP_switch] at hsum
  -- Hosts list one link each and switches as many as there are pods, and so every link twice.
  apply Nat.eq_of_mul_eq_mul_left Nat.two_pos
  rw [← hsum, hpods]
  ring

/-- A core is joined with the aggregate of its own group in each pod. -/
theorem joined_core {c pod a : Nat} (hc : c < half * half) (hpod : pod < pods) (ha : a < half) :
    t.Joined ((plan half pods).number (core c)) ((plan half pods).number (agg pod a)) ↔
      c / half = a := by
  have hcore : core c ∈ (plan half pods).places := mem_places.mpr hc
  have hagg : agg pod a ∈ (plan half pods).places := mem_places.mpr ⟨hpod, ha⟩
  rw [joined_iff hdrawn hcore hagg]
  simp [neighbours, hpod]

theorem exists_unique_aggregate {c pod : Nat} (hc : c < half * half) (hpod : pod < pods) :
    ∃! n, n ∈ inPod half (layout half pods).aggregates pod ∧
      t.Joined ((plan half pods).number (core c)) n := by
  have hgroup : c / half < half := Nat.div_lt_of_lt_mul hc
  refine ⟨(plan half pods).number (agg pod (c / half)), ⟨?_, ?_⟩, ?_⟩
  · exact (mem_inPod_aggregates hpod).mpr ⟨_, hgroup, rfl⟩
  · exact (joined_core hdrawn hc hpod hgroup).mpr rfl
  · rintro n ⟨hn, hlink⟩
    obtain ⟨a, ha, rfl⟩ := (mem_inPod_aggregates hpod).mp hn
    rw [(joined_core hdrawn hc hpod ha).mp hlink]

theorem joined_in_pod {pod a e : Nat} (hpod : pod < pods) (ha : a < half) (he : e < half) :
    t.Joined ((plan half pods).number (agg pod a)) ((plan half pods).number (edge pod e)) := by
  have hagg : agg pod a ∈ (plan half pods).places := mem_places.mpr ⟨hpod, ha⟩
  have hedge : edge pod e ∈ (plan half pods).places := mem_places.mpr ⟨hpod, he⟩
  rw [joined_iff hdrawn hagg hedge]
  exact List.mem_append_right _ (List.mem_map_of_mem (List.mem_range.mpr he))

theorem not_joined_aggregates {pod a b : Nat} (hpod : pod < pods) (ha : a < half) (hb : b < half) :
    ¬ t.Joined ((plan half pods).number (agg pod a)) ((plan half pods).number (agg pod b)) := by
  have hagg : agg pod a ∈ (plan half pods).places := mem_places.mpr ⟨hpod, ha⟩
  have hagg' : agg pod b ∈ (plan half pods).places := mem_places.mpr ⟨hpod, hb⟩
  rw [joined_iff hdrawn hagg hagg']
  simp [neighbours]

theorem not_joined_edges {pod e f : Nat} (hpod : pod < pods) (he : e < half) (hf : f < half) :
    ¬ t.Joined ((plan half pods).number (edge pod e)) ((plan half pods).number (edge pod f)) := by
  have hedge : edge pod e ∈ (plan half pods).places := mem_places.mpr ⟨hpod, he⟩
  have hedge' : edge pod f ∈ (plan half pods).places := mem_places.mpr ⟨hpod, hf⟩
  rw [joined_iff hdrawn hedge hedge']
  simp [neighbours]

theorem degree_switch (hpods : pods = 2 * half) {n : NodeId}
    (hn : n ∈ (layout half pods).cores ++ (layout half pods).aggregates ++
      (layout half pods).edges) :
    t.degree n = pods := by
  rw [List.mem_append, List.mem_append] at hn
  rcases hn with (hn | hn) | hn
  · obtain ⟨c, hc, rfl⟩ := List.mem_map.mp hn
    have hcore : core c ∈ (plan half pods).places := mem_places.mpr (List.mem_range.mp hc)
    exact degree_number hdrawn hpods hcore
  · obtain ⟨x, hx, rfl⟩ := List.mem_map.mp hn
    obtain ⟨pod, hpod, a, ha, rfl⟩ := mem_aggTier.mp hx
    have hagg : agg pod a ∈ (plan half pods).places := mem_places.mpr ⟨hpod, ha⟩
    exact degree_number hdrawn hpods hagg
  · obtain ⟨x, hx, rfl⟩ := List.mem_map.mp hn
    obtain ⟨pod, hpod, e, he, rfl⟩ := mem_edgeTier.mp hx
    have hedge : edge pod e ∈ (plan half pods).places := mem_places.mpr ⟨hpod, he⟩
    exact degree_number hdrawn hpods hedge

theorem degree_host (hpods : pods = 2 * half) {n : NodeId} (hn : n ∈ (layout half pods).hosts) :
    t.degree n = 1 := by
  obtain ⟨x, hx, rfl⟩ := List.mem_map.mp hn
  obtain ⟨pod, hpod, e, he, h, hh, rfl⟩ := mem_hostTier.mp hx
  have hhost : host pod e h ∈ (plan half pods).places := mem_places.mpr ⟨hpod, he, hh⟩
  exact degree_number hdrawn hpods hhost

theorem shaped (hpods : pods = 2 * half) : Shaped pods (layout half pods) t := by
  have hhalf : pods / 2 = half := by omega
  have hsquare : pods * half = pods ^ 2 / 2 := by
    rw [hpods]
    exact (Nat.div_eq_of_eq_mul_right Nat.two_pos (by ring)).symm
  have hcube : pods * (half * half) = pods ^ 3 / 4 := by
    rw [hpods]
    exact (Nat.div_eq_of_eq_mul_right (by decide) (by ring)).symm
  have hparts := parts_eq half pods
  have hperm := numbers_perm hdrawn
  rw [← hparts] at hperm
  -- The tiers list the places of the plan in another order.
  have hplace {x : Place} (hx : x ∈ tiers half pods) : x ∈ (plan half pods).places :=
    (tiers_perm half pods).mem_iff.mp hx
  exact
    { cores := by
        simp [hhalf, layout, FatTree.cores, sq]
      aggregates := by
        rw [← hsquare, ← length_aggTier]
        exact List.length_map _
      edges := by
        rw [← hsquare, ← length_edgeTier]
        exact List.length_map _
      hosts := by
        rw [← hcube, ← length_hostTier]
        exact List.length_map _
      others := ⟨rfl, rfl⟩
      distinct := hperm.nodup_iff.mpr List.nodup_range
      all n := hperm.mem_iff.trans List.mem_range
      labelled := by
        rw [hparts, hhalf, List.map_map]
        refine List.map_congr_left fun x hx => ?_
        exact hdrawn.map_node_eq (Plan.getElem?_number List.prefix_rfl (hplace hx))
      coherent := hdrawn.constructed.coherent
      switchLinks _ hn := degree_switch hdrawn hpods hn
      hostLinks _ hn := degree_host hdrawn hpods hn
      meets n hn pod hpod := by
        obtain ⟨c, hc, rfl⟩ := List.mem_map.mp hn
        rw [hhalf]
        exact exists_unique_aggregate hdrawn (List.mem_range.mp hc) hpod
      complete pod hpod n hn m hm := by
        rw [hhalf] at hn hm
        obtain ⟨a, ha, rfl⟩ := (mem_inPod_aggregates hpod).mp hn
        obtain ⟨e, he, rfl⟩ := (mem_inPod_edges hpod).mp hm
        exact joined_in_pod hdrawn hpod ha he
      apart pod hpod tier htier n hn m hm := by
        rw [hhalf] at hn hm
        rw [List.mem_cons, List.mem_singleton] at htier
        rcases htier with rfl | rfl
        · obtain ⟨a, ha, rfl⟩ := (mem_inPod_aggregates hpod).mp hn
          obtain ⟨b, hb, rfl⟩ := (mem_inPod_aggregates hpod).mp hm
          exact not_joined_aggregates hdrawn hpod ha hb
        · obtain ⟨e, he, rfl⟩ := (mem_inPod_edges hpod).mp hn
          obtain ⟨f, hf, rfl⟩ := (mem_inPod_edges hpod).mp hm
          exact not_joined_edges hdrawn hpod he hf
      links := by
        rw [Topology.size_links, loopbacks_eq hdrawn, connections_eq hdrawn hpods, hpods]
        ring
      loopbacks := by
        rw [loopbacks_eq hdrawn, hcube] }

end Drawn

section

open FlowFabric.Topology (Admitted)

/-- Every shape of even arity with valid bandwidths gives a fat-tree of that arity. -/
theorem fatTree_shaped (kind : FabricKind) {s : FatTreeShape R} (hk : 2 ≤ s.k) (heven : s.k % 2 = 0)
    (hhost : Admitted s.hostBandwidth) (hswitch : Admitted s.switchBandwidth) :
    ∃ parts t, (Layout.fatTree s).run.run (Topology.empty kind) = (.ok parts, t) ∧
      Shaped s.k parts t := by
  obtain ⟨t, hrun, hdrawn⟩ := (adds_layout hswitch hhost hk heven).draws kind
  exact ⟨_, t, hrun, shaped hdrawn (by omega)⟩

/-- With four pods there are sixteen hosts,
and a quarter of the links belong to one of them alone. -/
theorem small_fatTree_shaped :
    let s : FatTreeShape Exact := ⟨4, 1000, 1000, 0⟩
    Admitted s.hostBandwidth ∧ Admitted s.switchBandwidth ∧
      ∃ parts t, (Layout.fatTree s).run.run (Topology.empty .fatTree) = (.ok parts, t) ∧
        Shaped 4 parts t ∧
        parts.hosts.length = 16 ∧ t.links.size = 64 ∧ t.loopbacks = 16 := by
  intro s
  have hadmitted : Admitted (1000 : Exact) := ⟨by decide, rfl⟩
  obtain ⟨parts, t, hrun, hshaped⟩ :=
    fatTree_shaped .fatTree (s := s) (by decide) (by decide) hadmitted hadmitted
  replace hshaped : Shaped 4 parts t := hshaped
  exact ⟨hadmitted, hadmitted, parts, t, hrun, hshaped, hshaped.hosts, hshaped.links,
    hshaped.loopbacks⟩

end

end FatTree

end FlowFabric
