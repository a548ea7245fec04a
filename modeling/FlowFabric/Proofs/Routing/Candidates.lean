import FlowFabric.Proofs.Routing.Tables
import Mathlib.Data.Prod.Lex
import Mathlib.Order.Lattice.Nat

/-! Since a node without the knowledge counts more than any node with it, one measure decreases
along every candidate of every node. -/

namespace FlowFabric

namespace NodeKind

theorem rank_injective : Function.Injective rank := by
  intro a b h
  cases a with
  | host =>
    cases b with
    | host => rfl
    | switch tier => cases tier <;> cases h
  | switch tier =>
    cases b with
    | host => cases tier <;> cases h
    | switch tier' => cases tier <;> cases tier' <;> first | rfl | cases h

theorem rank_le (kind : NodeKind) : kind.rank ≤ 5 := by
  cases kind with
  | host => decide
  | switch tier => cases tier <;> decide

theorem rank_of_isHost {kind : NodeKind} (h : kind.isHost = true) : kind.rank = 5 := by
  cases kind with
  | host => rfl
  | switch tier => cases h

end NodeKind

namespace Topology

variable {R : Type} {t : Topology R}

theorem rankOf_le (t : Topology R) (n : NodeId) : t.rankOf n ≤ 5 := by
  unfold rankOf
  split
  · exact NodeKind.rank_le _
  · exact Nat.zero_le 5

theorem rankOf_of_isHost {n : NodeId} (h : t.isHost n = true) : t.rankOf n = 5 := by
  unfold isHost at h
  unfold rankOf
  split at h
  · exact NodeKind.rank_of_isHost h
  · cases h

theorem node?_of_lt {n : NodeId} (h : n < t.nodes.size) : ∃ node, t.node? n = some node :=
  ⟨t.nodes[n], Array.getElem?_eq_getElem h⟩

end Topology

namespace Routes

open RoutingTable

variable {R : Type} {t : Topology R} {n m dst : NodeId} {l : LinkId} {k : Nat}

theorem propagates_congr (hn : n < t.nodes.size) (hm : m < t.nodes.size)
    (hr : t.rankOf m = t.rankOf n) : propagates t m = propagates t n := by
  obtain ⟨a, ha⟩ := Topology.node?_of_lt hn
  obtain ⟨b, hb⟩ := Topology.node?_of_lt hm
  have hkind : b.kind = a.kind := by
    apply NodeKind.rank_injective
    unfold Topology.rankOf at hr
    rw [ha, hb] at hr
    exact hr
  unfold propagates
  rw [ha, hb]
  dsimp only
  rw [hkind]

/-- A walk of the given length within the tier leads to a node that knows the host from below. -/
def Near (t : Topology R) (n dst : NodeId) (k : Nat) : Prop :=
  ∃ m, PeerWalk t k n m ∧ (below t m).knows dst = true

/-- A candidate link of a node towards another host. -/
inductive Candidate (t : Topology R) (n dst : NodeId) (l : LinkId) : Prop where
  /-- The host is not known. -/
  | up (hknows : ¬ ((ofTopology t).table n).knows dst = true)
    (hr : t.rankOf (t.neighbour n l) < t.rankOf n)
  /-- The host is known from below. -/
  | down (hbelow : (below t n).knows dst = true) (h : LeadsDown t (ofTopology t) n dst l)
  /-- The host is known from peers,
  and the next node is nearer to one of them than the node is to any. -/
  | across {k : Nat} (hp : propagates t n = true) (hr : t.rankOf (t.neighbour n l) = t.rankOf n)
      (hnear : Near t (t.neighbour n l) dst k) (hfar : ∀ k', Near t n dst k' → k < k')

section Learned

/-- The tables of a tier before its nodes learn from each other. -/
abbrev tierBelow (t : Topology R) (n : NodeId) : Routes := descend t (t.rankOf n) (ofTopology t)

variable [Quantity R] (ht : t.WellFormed) (hn : n < t.nodes.size)

include ht hn in
theorem PeerWalk.lt (h : PeerWalk t k n m) : m < t.nodes.size := by
  induction h with
  | refl => exact hn
  | step hl _ _ ih => exact ih (neighbour_lt ht hl)

include ht in
theorem table_tierBelow_of_leads {p : NodeId × LinkId} (h : Leads t n k p) :
    (tierBelow t n).table p.1 = below t p.1 := by
  have hb : t.neighbour n p.2 < t.nodes.size := neighbour_lt ht h.link
  exact table_descend_ofTopology (PeerWalk.lt ht hb h.walk) (h.walk.rankOf_eq.trans h.rank)

include ht hn in
/-- A route learned from peers leads to the nearest of those that know the host from below. -/
theorem of_mem_learned_tierBelow
    (h : (dst, l) ∈ learned (tierBelow t n) (below t n).known (wavesFrom t n)) :
    ¬ (below t n).knows dst = true ∧ l ∈ t.linksOf n ∧ t.rankOf (t.neighbour n l) = t.rankOf n ∧
      ∃ i, Near t (t.neighbour n l) dst i ∧ ∀ k', Near t n dst k' → i < k' := by
  obtain ⟨hs, i, w, hw, ⟨p, hp, rfl, hk⟩, hfirst⟩ := of_mem_learned h
  have hunknown : ¬ (below t n).knows dst = true := fun hc => hs (knows_iff_mem_known.mp hc)
  have hlead := leads_of_wavesFrom hw p hp
  rw [table_tierBelow_of_leads ht hlead] at hk
  refine ⟨hunknown, hlead.link, hlead.rank, i, ⟨p.1, hlead.walk, hk⟩, ?_⟩
  rintro k' ⟨m, hwalk, hm⟩
  -- Another walk to such a node ends in some wave, and none before the one that taught the host.
  rcases mem_wavesFrom ht hn hwalk with rfl | ⟨j, w', hj, hw', hmem⟩
  · exact absurd hm hunknown
  · obtain ⟨q, hq, rfl⟩ := List.mem_map.mp hmem
    have hji : ¬ j < i := by
      intro hlt
      apply hfirst j w' hlt hw' q hq
      rw [table_tierBelow_of_leads ht (leads_of_wavesFrom hw' q hq)]
      exact hm
    omega

include ht hn in
theorem exists_mem_learned_tierBelow (hunknown : ¬ (below t n).knows dst = true)
    (h : Near t n dst k) :
    ∃ l, (dst, l) ∈ learned (tierBelow t n) (below t n).known (wavesFrom t n) := by
  obtain ⟨m, hwalk, hm⟩ := h
  rcases mem_wavesFrom ht hn hwalk with rfl | ⟨j, w, _, hw, hmem⟩
  · exact absurd hm hunknown
  · obtain ⟨q, hq, rfl⟩ := List.mem_map.mp hmem
    -- The walk ends in some wave, so the host is learned from that wave or from an earlier one.
    have hs : dst ∉ (below t n).known := fun hc => hunknown (knows_iff_mem_known.mpr hc)
    apply exists_mem_learned hs hw hq
    rw [table_tierBelow_of_leads ht (leads_of_wavesFrom hw q hq)]
    exact hm

include hn in
omit [Quantity R] in
theorem table_of_propagates (hp : propagates t n = true) :
    (ofTopology t).table n
      = (below t n).addRoutes (learned (tierBelow t n) (below t n).known (wavesFrom t n)) := by
  rw [table_ofTopology hn, if_pos hp]
  unfold fromPeers
  rw [table_descend_ofTopology hn rfl]

include hn in
omit [Quantity R] in
theorem table_of_not_propagates (hp : ¬ propagates t n = true) :
    (ofTopology t).table n = below t n := by
  rw [table_ofTopology hn, if_neg hp]

include ht hn in
/-- A node knows what it knows from below and,
where it takes part, what any peer knows from below. -/
theorem knows_ofTopology : ((ofTopology t).table n).knows dst = true ↔
    (below t n).knows dst = true ∨ (propagates t n = true ∧ ∃ k, Near t n dst k) := by
  by_cases hp : propagates t n = true
  · rw [table_of_propagates hn hp, knows_addRoutes]
    by_cases hb : (below t n).knows dst = true
    · simp [hb]
    · constructor
      -- A learned route starts a walk to a peer, and a walk to a peer makes a learned route.
      · rintro (hb' | ⟨l, hl⟩)
        · exact absurd hb' hb
        · obtain ⟨_, hlink, hr, i, ⟨m, hw, hm⟩, _⟩ := of_mem_learned_tierBelow ht hn hl
          exact Or.inr ⟨hp, i + 1, m, .step hlink hr hw, hm⟩
      · rintro (hb' | ⟨_, k, hnear⟩)
        · exact absurd hb' hb
        · exact Or.inr (exists_mem_learned_tierBelow ht hn hb hnear)
  · rw [table_of_not_propagates hn hp]
    simp [hp]

include hn in
omit [Quantity R] in
theorem uplinks_ofTopology : ((ofTopology t).table n).uplinks = (below t n).uplinks := by
  by_cases hp : propagates t n = true
  · rw [table_of_propagates hn hp, uplinks_addRoutes]
  · rw [table_of_not_propagates hn hp]

include ht hn in
/-- Every link that a node offers towards another host is one of its links,
and a candidate in the sense above. -/
theorem candidate_of_mem_route (hne : dst ≠ n) (hl : l ∈ ((ofTopology t).table n).route dst) :
    l ∈ t.linksOf n ∧ Candidate t n dst l := by
  by_cases hk : ((ofTopology t).table n).knows dst = true
  · rw [route_of_knows hk] at hl
    have hlinks (hb : l ∈ (below t n).links dst) :
        l ∈ t.linksOf n ∧ LeadsDown t (ofTopology t) n dst l := by
      rcases mem_links_fromBelow.mp hb with ⟨he, _⟩ | h
      · exact absurd he hne
      · exact h
    by_cases hp : propagates t n = true
    -- A link is known from below, or it was learned from peers.
    · rw [table_of_propagates hn hp, mem_links_addRoutes] at hl
      rcases hl with hl | hl
      · obtain ⟨hmem, hdown⟩ := hlinks hl
        exact ⟨hmem, .down (knows_fromBelow.mpr (Or.inr ⟨l, hmem, hdown⟩)) hdown⟩
      · obtain ⟨_, hmem, hr, i, hnear, hfar⟩ := of_mem_learned_tierBelow ht hn hl
        exact ⟨hmem, .across hp hr hnear hfar⟩
    · rw [table_of_not_propagates hn hp] at hl
      obtain ⟨hmem, hdown⟩ := hlinks hl
      exact ⟨hmem, .down (knows_fromBelow.mpr (Or.inr ⟨l, hmem, hdown⟩)) hdown⟩
  · rw [route_of_not_knows hk, uplinks_ofTopology hn] at hl
    obtain ⟨hmem, hr⟩ := mem_uplinks_fromBelow.mp hl
    exact ⟨hmem, .up hk hr⟩

end Learned

section Measure

/-- The length of the shortest walk to a peer that knows the host from below. -/
noncomputable def distance (t : Topology R) (n dst : NodeId) : Nat := sInf {k | Near t n dst k}

/-- How far a node is from the bottom if it knows the host,
and from a place below that if it does not. -/
def height (t : Topology R) (dst n : NodeId) : Nat :=
  if ((ofTopology t).table n).knows dst = true then 5 - t.rankOf n else 6 + t.rankOf n

/-- The height and, within a tier, the distance to a peer that knows the host from below. -/
noncomputable def remaining (t : Topology R) (dst n : NodeId) : Nat ×ₗ Nat :=
  toLex (height t dst n, distance t n dst)

theorem height_of_knows (h : ((ofTopology t).table n).knows dst = true) :
    height t dst n = 5 - t.rankOf n := if_pos h

theorem height_lt_of_not_knows {b : NodeId} (h : ¬ ((ofTopology t).table n).knows dst = true)
    (hr : t.rankOf b < t.rankOf n) : height t dst b < height t dst n := by
  unfold height
  rw [if_neg h]
  split <;> omega

theorem remaining_lt_of_height {b : NodeId} (h : height t dst b < height t dst n) :
    remaining t dst b < remaining t dst n := by
  unfold remaining
  rw [Prod.Lex.toLex_lt_toLex]
  dsimp only
  exact Or.inl h

variable [Quantity R] (ht : t.WellFormed) (hn : n < t.nodes.size)

include ht hn in
/-- Peers that pass hosts on know all that one of them knows from below. -/
theorem knows_neighbour_of_near (hl : l ∈ t.linksOf n) (hp : propagates t n = true)
    (hr : t.rankOf (t.neighbour n l) = t.rankOf n) (hnear : Near t (t.neighbour n l) dst k) :
    ((ofTopology t).table (t.neighbour n l)).knows dst = true := by
  have hb := neighbour_lt ht hl
  have hp' : propagates t (t.neighbour n l) = true := (propagates_congr hn hb hr).trans hp
  exact (knows_ofTopology ht hb).mpr (Or.inr ⟨hp', k, hnear⟩)

include ht hn in
theorem knows_of_across (hl : l ∈ t.linksOf n) (hp : propagates t n = true)
    (hr : t.rankOf (t.neighbour n l) = t.rankOf n) (hnear : Near t (t.neighbour n l) dst k) :
    ((ofTopology t).table n).knows dst = true := by
  obtain ⟨m, hw, hm⟩ := hnear
  exact (knows_ofTopology ht hn).mpr (Or.inr ⟨hp, k + 1, m, .step hl hr hw, hm⟩)

include ht hn in
/-- What remains decreases along every candidate. -/
theorem remaining_neighbour_lt (hl : l ∈ t.linksOf n) (h : Candidate t n dst l) :
    remaining t dst (t.neighbour n l) < remaining t dst n := by
  cases h with
  | up hknows hr => exact remaining_lt_of_height (height_lt_of_not_knows hknows hr)
  | down hbelow hdown =>
    have hk : ((ofTopology t).table n).knows dst = true :=
      (knows_ofTopology ht hn).mpr (Or.inl hbelow)
    obtain ⟨hr, hk'⟩ := hdown
    have hle := t.rankOf_le (t.neighbour n l)
    apply remaining_lt_of_height
    rw [height_of_knows hk, height_of_knows hk']
    omega
  | across hp hr hnear hfar =>
    have hk := knows_of_across ht hn hl hp hr hnear
    have hk' := knows_neighbour_of_near ht hn hl hp hr hnear
    -- Within the tier the height stays, and the distance decreases.
    have hheight : height t dst (t.neighbour n l) = height t dst n := by
      rw [height_of_knows hk, height_of_knows hk', hr]
    have hreach : ∃ k', Near t n dst k' := by
      obtain ⟨m, hw, hm⟩ := hnear
      exact ⟨_, m, .step hl hr hw, hm⟩
    have hdistance : distance t (t.neighbour n l) dst < distance t n dst :=
      Nat.lt_of_le_of_lt (Nat.sInf_le hnear) (hfar _ (Nat.sInf_mem hreach))
    unfold remaining
    rw [Prod.Lex.toLex_lt_toLex]
    dsimp only
    exact Or.inr ⟨hheight, hdistance⟩

end Measure

end Routes

end FlowFabric
