import FlowFabric.Proofs.Topology.Plans
import Mathlib.Algebra.BigOperators.Group.Finset.Piecewise

/-! Every link between two nodes is listed twice, once at each of its ends, and every host brings
one link to itself. -/

namespace FlowFabric

variable {R : Type} [Quantity R]

namespace Topology

variable {t : Topology R} {a b : NodeId}

/-- The number of links that a node lists. -/
def degree (t : Topology R) (n : NodeId) : Nat := (t.linksOf n).length

/-- The number of links from a host to itself. -/
def loopbacks (t : Topology R) : Nat := t.links.toList.countP Link.isLoopback

/-- The number of links between two nodes. -/
def connections (t : Topology R) : Nat := t.links.toList.countP fun link => !link.isLoopback

omit [Quantity R] in
/-- A link either connects two nodes or belongs to one of them. -/
theorem size_links (t : Topology R) : t.links.size = t.connections + t.loopbacks := by
  have hsplit := List.length_eq_countP_add_countP Link.isLoopback (l := t.links.toList)
  unfold connections loopbacks
  simp only [Array.length_toList, Bool.not_eq_true] at hsplit
  rw [hsplit, add_comm]
  simp

theorem degree_pushNode (t : Topology R) (name : String) (kind : NodeKind) (bandwidth : R)
    (n : NodeId) : (t.pushNode name kind bandwidth).degree n = t.degree n :=
  congrArg List.length (linksOf_pushNode t name kind bandwidth n)

theorem connections_pushNode (t : Topology R) (name : String) (kind : NodeKind) (bandwidth : R) :
    (t.pushNode name kind bandwidth).connections = t.connections := by
  unfold connections pushNode
  cases kind.isHost <;> simp [Link.isLoopback]

theorem loopbacks_pushNode (t : Topology R) (name : String) (kind : NodeKind) (bandwidth : R) :
    (t.pushNode name kind bandwidth).loopbacks = t.loopbacks + if kind.isHost then 1 else 0 := by
  unfold loopbacks pushNode
  cases kind.isHost <;> simp [Link.isLoopback]

omit [Quantity R] in
theorem isLoopback_linkFor (t : Topology R) (hne : a ≠ b) (latency forward backward : R) :
    (t.linkFor a b latency forward backward).isLoopback = false := by
  unfold Link.isLoopback
  rcases linkFor_ends t a b latency forward backward with ⟨hhigh, hlow⟩ | ⟨hhigh, hlow⟩ <;>
    rw [hhigh, hlow, beq_eq_false_iff_ne]
  · exact hne
  · exact hne.symm

omit [Quantity R] in
theorem connections_pushLink (t : Topology R) (hne : a ≠ b) (latency forward backward : R) :
    (t.pushLink a b latency forward backward).connections = t.connections + 1 := by
  unfold connections pushLink
  simp [isLoopback_linkFor t hne]

omit [Quantity R] in
theorem loopbacks_pushLink (t : Topology R) (hne : a ≠ b) (latency forward backward : R) :
    (t.pushLink a b latency forward backward).loopbacks = t.loopbacks := by
  unfold loopbacks pushLink
  simp [isLoopback_linkFor t hne]

omit [Quantity R] in
/-- Both ends of a link list it once more. -/
theorem degree_pushLink (t : Topology R) (hne : a ≠ b) (latency forward backward : R) {n : NodeId}
    (hn : n < t.nodes.size) : (t.pushLink a b latency forward backward).degree n =
      t.degree n + ((if n = a then 1 else 0) + if n = b then 1 else 0) := by
  obtain ⟨node, hnode⟩ : ∃ node, t.node? n = some node := ⟨_, Array.getElem?_eq_getElem hn⟩
  unfold degree linksOf
  rw [node?_pushLink t hne, hnode, Option.map_some]
  dsimp only
  by_cases ha : n = a
  · rw [if_pos (Or.inl ha), if_pos ha, if_neg fun hb => hne (ha.symm.trans hb), List.length_append]
    rfl
  · by_cases hb : n = b
    · rw [if_pos (Or.inr hb), if_neg ha, if_pos hb, List.length_append]
      rfl
    · rw [if_neg (not_or.mpr ⟨ha, hb⟩), if_neg ha, if_neg hb]
      rfl

/-- What the nodes list is together twice as much as there are links between them. -/
theorem Constructed.sum_degree (h : t.Constructed) :
    ∑ n ∈ Finset.range t.nodes.size, t.degree n = 2 * t.connections := by
  obtain ⟨kind, hg⟩ := h
  induction hg with
  | refl => rfl
  | @tail t _ hg hs ih =>
    rcases hs.cases with ⟨name, kind', bandwidth, _, rfl⟩ | ⟨a, b, latency, _, _, hl, rfl⟩
    · -- A new node lists nothing.
      have hnew : t.degree t.nodes.size = 0 := by
        have hnone : t.node? t.nodes.size = none := Array.getElem?_eq_none le_rfl
        unfold degree linksOf
        rw [hnone]
        rfl
      rw [size_pushNode, Finset.sum_range_succ, connections_pushNode, degree_pushNode, hnew,
        add_zero, ← ih]
      exact Finset.sum_congr rfl fun n _ => degree_pushNode t name kind' bandwidth n
    · rw [size_pushLink, connections_pushLink t hl.ne, mul_add, ← ih,
        Finset.sum_congr rfl fun n hn =>
          degree_pushLink t hl.ne latency _ _ (Finset.mem_range.mp hn),
        Finset.sum_add_distrib, Finset.sum_add_distrib, Finset.sum_ite_eq', Finset.sum_ite_eq',
        if_pos (Finset.mem_range.mpr hl.left), if_pos (Finset.mem_range.mpr hl.right)]

omit [Quantity R] in
theorem map_kind_pushLink (t : Topology R) (hne : a ≠ b) (latency forward backward : R) :
    (t.pushLink a b latency forward backward).nodes.toList.map Node.kind =
      t.nodes.toList.map Node.kind := by
  apply List.ext_getElem?
  intro n
  have hnode := node?_pushLink t hne latency forward backward n
  unfold node? at hnode
  rw [List.getElem?_map, List.getElem?_map, Array.getElem?_toList, Array.getElem?_toList, hnode,
    Option.map_map]
  refine congrArg (fun f => Option.map f _) (funext fun node => ?_)
  show Node.kind _ = _
  split <;> rfl

/-- Every host has one link to itself, and there are no others. -/
theorem Constructed.loopbacks_eq (h : t.Constructed) :
    t.loopbacks = (t.nodes.toList.map Node.kind).countP NodeKind.isHost := by
  obtain ⟨kind, hg⟩ := h
  induction hg with
  | refl => rfl
  | @tail t _ hg hs ih =>
    rcases hs.cases with ⟨name, kind', bandwidth, _, rfl⟩ | ⟨a, b, latency, _, _, hl, rfl⟩
    · rw [loopbacks_pushNode, ih]
      unfold Topology.pushNode
      cases hhost : kind'.isHost <;> simp [hhost]
    · rw [loopbacks_pushLink t hl.ne, map_kind_pushLink t hl.ne, ih]

/-- The nodes that are joined with a node are at the other ends of its links. -/
theorem Constructed.mem_neighbours (h : t.Constructed) :
    b ∈ (t.linksOf a).map (t.neighbour a) ↔ t.Joined a b := by
  rw [h.joined_iff, List.mem_map]
  constructor
  · rintro ⟨l, hl, rfl⟩
    exact ⟨h.wellFormed.neighbour_ne hl, l, hl, rfl⟩
  · rintro ⟨_, hlink⟩
    exact hlink

/-- Each of them is there once. -/
theorem Constructed.nodup_neighbours (h : t.Constructed) (n : NodeId) :
    ((t.linksOf n).map (t.neighbour n)).Nodup := by
  refine (h.nodup_linksOf n).map_on ?_
  intro l hl l' hl' heq
  obtain ⟨link, hlink, hconnects, hother⟩ := h.wellFormed.connects hl
  obtain ⟨link', hlink', hconnects', hother'⟩ := h.wellFormed.connects hl'
  rw [← hother] at hconnects
  rw [← hother', ← heq] at hconnects'
  exact h.simple.unique hlink hconnects hlink' hconnects' (h.wellFormed.neighbour_ne hl)

end Topology

/-- In the order of the places, the numbers go up from zero. -/
theorem Plan.map_number {P : Type} [DecidableEq P] {plan : Plan P} (h : plan.places.Nodup) :
    plan.places.map plan.number = List.range plan.places.length := by
  apply List.ext_getElem
  · simp
  · intro n hn hn'
    rw [List.getElem_map, List.getElem_range]
    exact h.idxOf_getElem n _

/-- The number of a place tells where it stands. -/
theorem Plan.number_of_getElem? {P : Type} [DecidableEq P] {plan : Plan P} (h : plan.places.Nodup)
    {n : NodeId} {x : P} (hn : plan.places[n]? = some x) : plan.number x = n :=
  eq_of_place h (getElem?_number List.prefix_rfl (List.mem_of_getElem? hn)) hn

namespace Plan.Drawn

variable {P : Type} {plan : Plan P} {places : List P} {links : List (P × P)} {t : Topology R}
    {x y : P}

/-- A sum over all nodes is one over their places. -/
theorem sum_nodes (h : plan.Drawn places links t) {f : NodeId → Nat} {g : P → Nat}
    (hfg : ∀ n x, places[n]? = some x → f n = g x) :
    ∑ n ∈ Finset.range t.nodes.size, f n = (places.map g).sum := by
  have hlists : (List.range places.length).map f = places.map g := by
    apply List.ext_getElem
    · simp
    · intro n hn hn'
      rw [List.length_map] at hn'
      rw [List.getElem_map, List.getElem_map, List.getElem_range]
      exact hfg n _ (List.getElem?_eq_getElem hn')
  rw [h.size_eq, ← hlists]
  rfl

theorem loopbacks_eq (h : plan.Drawn places links t) :
    t.loopbacks = places.countP fun x => (plan.kind x).isHost := by
  have hkinds : t.nodes.toList.map Node.kind = places.map plan.kind := by
    have hpairs := congrArg (List.map Prod.snd) h.nodes
    rwa [List.map_map, List.map_map] at hpairs
  rw [h.constructed.loopbacks_eq, hkinds, List.countP_map]
  rfl

variable [DecidableEq P]

/-- Nodes are joined if there is a link between their places. -/
theorem joined_number (h : plan.Drawn plan.places plan.links t) (hx : x ∈ plan.places)
    (hy : y ∈ plan.places) :
    t.Joined (plan.number x) (plan.number y) ↔ (x, y) ∈ plan.links ∨ (y, x) ∈ plan.links := by
  have hnumber := getElem?_number List.prefix_rfl hx
  have hnumber' := getElem?_number List.prefix_rfl hy
  rw [h.joined]
  constructor
  · rintro ⟨u, v, hu, hv, huv⟩
    obtain rfl : x = u := Option.some.inj (hnumber.symm.trans hu)
    obtain rfl : y = v := Option.some.inj (hnumber'.symm.trans hv)
    exact huv
  · intro hxy
    exact ⟨x, y, hnumber, hnumber', hxy⟩

/-- A node lists as many links as its place has neighbours in the plan. -/
theorem degree_eq (h : plan.Drawn plan.places plan.links t) (hsound : plan.Sound)
    (hx : x ∈ plan.places) {ys : List P} (hnodup : ys.Nodup)
    (hys : ∀ y, y ∈ ys ↔ (x, y) ∈ plan.links ∨ (y, x) ∈ plan.links) :
    t.degree (plan.number x) = ys.length := by
  have hplace {y : P} (hy : y ∈ ys) : y ∈ plan.places :=
    ((hys y).mp hy).elim (fun hlink => (h.ends hlink).2) fun hlink => (h.ends hlink).1
  have hperm : ((t.linksOf (plan.number x)).map (t.neighbour (plan.number x))).Perm
      (ys.map plan.number) := by
    refine (List.perm_ext_iff_of_nodup (h.constructed.nodup_neighbours _) ?_).mpr fun n => ?_
    · exact hnodup.map_on fun y hy y' _ heq => (List.idxOf_inj (hplace hy)).mp heq
    · rw [h.constructed.mem_neighbours, List.mem_map]
      constructor
      · intro hjoined
        obtain ⟨u, y, hu, hn, huv⟩ := h.joined.mp hjoined
        obtain rfl : x = u := Option.some.inj ((getElem?_number List.prefix_rfl hx).symm.trans hu)
        exact ⟨y, (hys y).mpr huv, number_of_getElem? hsound.places hn⟩
      · rintro ⟨y, hy, rfl⟩
        exact (h.joined_number hx (hplace hy)).mpr ((hys y).mp hy)
  have hlength := hperm.length_eq
  rwa [List.length_map, List.length_map] at hlength

end Plan.Drawn

end FlowFabric
