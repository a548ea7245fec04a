import FlowFabric.Proofs.Topology.Construction
import FlowFabric.Routing
import Mathlib.Data.List.Perm.Subperm

namespace FlowFabric

namespace Routes

variable {R : Type} {t : Topology R}

/-- The second node is reached from the first one by so many links within their tier. -/
inductive PeerWalk (t : Topology R) : Nat → NodeId → NodeId → Prop where
  | refl (a : NodeId) : PeerWalk t 0 a a
  | step {k : Nat} {a b : NodeId} {l : LinkId} (hl : l ∈ t.linksOf a)
      (hr : t.rankOf (t.neighbour a l) = t.rankOf a) (h : PeerWalk t k (t.neighbour a l) b) :
        PeerWalk t (k + 1) a b

theorem mem_peers {n : NodeId} {p : NodeId × LinkId} :
    p ∈ peers t n ↔ p.2 ∈ t.linksOf n ∧ t.neighbour n p.2 = p.1 ∧ t.rankOf p.1 = t.rankOf n := by
  unfold peers
  rw [List.mem_filter, List.mem_map, beq_iff_eq]
  constructor
  · rintro ⟨⟨l, hl, rfl⟩, hr⟩
    exact ⟨hl, rfl, hr⟩
  · rintro ⟨hl, hn, hr⟩
    refine ⟨⟨p.2, hl, ?_⟩, hr⟩
    rw [hn]

namespace PeerWalk

theorem rankOf_eq {k : Nat} {a b : NodeId} (h : PeerWalk t k a b) : t.rankOf b = t.rankOf a := by
  induction h with
  | refl => rfl
  | step _ hr _ ih => exact ih.trans hr

theorem snoc {k : Nat} {a b c : NodeId} {l : LinkId} (h : PeerWalk t k a b)
    (hq : (c, l) ∈ peers t b) : PeerWalk t (k + 1) a c := by
  induction h with
  | refl a =>
    obtain ⟨hl, hn, hr⟩ := mem_peers.mp hq
    apply PeerWalk.step hl
    · rw [hn]
      exact hr
    · rw [hn]
      exact .refl c
  | step hl hr _ ih => exact .step hl hr (ih hq)

end PeerWalk

section FirstMet

variable {met : List NodeId} {ps : List (NodeId × LinkId)} {p : NodeId × LinkId}

theorem mem_of_mem_firstMet (h : p ∈ firstMet met ps) : p ∈ ps ∧ p.1 ∉ met := by
  induction ps generalizing met with
  | nil => cases h
  | cons q rest ih =>
    unfold firstMet at h
    split at h
    · obtain ⟨hr, hm⟩ := ih h
      exact ⟨List.mem_cons_of_mem _ hr, hm⟩
    · rename_i hq
      rcases List.mem_cons.mp h with rfl | h
      · exact ⟨List.mem_cons_self, hq⟩
      · obtain ⟨hr, hm⟩ := ih h
        exact ⟨List.mem_cons_of_mem _ hr, fun hin => hm (List.mem_cons_of_mem _ hin)⟩

theorem nodup_firstMet (met : List NodeId) (ps : List (NodeId × LinkId)) :
    ((firstMet met ps).map Prod.fst).Nodup := by
  induction ps generalizing met with
  | nil => exact List.nodup_nil
  | cons q rest ih =>
    unfold firstMet
    split
    · exact ih met
    · rw [List.map_cons, List.nodup_cons]
      refine ⟨fun hin => ?_, ih _⟩
      obtain ⟨p, hp, he⟩ := List.mem_map.mp hin
      exact (mem_of_mem_firstMet hp).2 (he ▸ List.mem_cons_self)

theorem met_of_mem (met : List NodeId) (h : p ∈ ps) :
    p.1 ∈ met ∨ p.1 ∈ (firstMet met ps).map Prod.fst := by
  induction ps generalizing met with
  | nil => cases h
  | cons q rest ih =>
    unfold firstMet
    rcases List.mem_cons.mp h with rfl | hr
    · split
      · exact Or.inl ‹_›
      · exact Or.inr List.mem_cons_self
    · split
      · exact ih met hr
      · rcases ih (q.1 :: met) hr with hin | hin
        · rcases List.mem_cons.mp hin with he | hin
          · exact Or.inr (List.mem_cons.mpr (Or.inl he))
          · exact Or.inl hin
        · exact Or.inr (List.mem_cons_of_mem _ hin)

end FirstMet

/-- The link leads to a peer of the node from which a walk
of the given length leads to the other node. -/
structure Leads (t : Topology R) (n : NodeId) (k : Nat) (p : NodeId × LinkId) : Prop where
  link : p.2 ∈ t.linksOf n
  rank : t.rankOf (t.neighbour n p.2) = t.rankOf n
  walk : PeerWalk t k (t.neighbour n p.2) p.1

/-- The wave after one in which nodes have been met. -/
def nextWave (t : Topology R) (met : List NodeId) (wave : List (NodeId × LinkId)) :
    List (NodeId × LinkId) :=
  firstMet (met ++ wave.map Prod.fst) (wave.flatMap fun p => (peers t p.1).map fun q => (q.1, p.2))

theorem waves_succ {fuel : Nat} {met : List NodeId} {wave : List (NodeId × LinkId)}
    (h : wave ≠ []) : waves t (fuel + 1) met wave =
      wave :: waves t fuel (met ++ wave.map Prod.fst) (nextWave t met wave) := by
  have hne : wave.isEmpty = false := List.isEmpty_eq_false_iff.mpr h
  show (if wave.isEmpty = true then _ else _) = _
  rw [hne]
  rfl

theorem waves_sound {n : NodeId} {fuel : Nat} {met : List NodeId} {wave : List (NodeId × LinkId)}
    {k : Nat} (h : ∀ p ∈ wave, Leads t n k p) {i : Nat} {w : List (NodeId × LinkId)}
    (hw : (waves t fuel met wave)[i]? = some w) : ∀ p ∈ w, Leads t n (k + i) p := by
  induction fuel generalizing met wave k i with
  | zero => cases hw
  | succ fuel ih =>
    by_cases hne : wave = []
    · subst hne
      cases hw
    · rw [waves_succ hne] at hw
      cases i with
      | zero =>
        cases hw
        exact h
      | succ i =>
        -- A new node inherits the first link of the node that it was met from.
        have hnext : ∀ p ∈ nextWave t met wave, Leads t n (k + 1) p := by
          intro p hp
          obtain ⟨q, hq, hm⟩ := List.mem_flatMap.mp (mem_of_mem_firstMet hp).1
          obtain ⟨r, hr, rfl⟩ := List.mem_map.mp hm
          have hlead := h q hq
          exact ⟨hlead.link, hlead.rank, hlead.walk.snoc hr⟩
        have hrec := ih hnext hw
        rwa [Nat.add_right_comm, Nat.add_assoc] at hrec

/-- Different nodes are no more than there are. -/
theorem length_le_of_nodup {l : List NodeId} {size : Nat} (hd : l.Nodup) (hb : ∀ n ∈ l, n < size) :
    l.length ≤ size := by
  have hsub : l ⊆ List.range size := fun n hn => List.mem_range.mpr (hb n hn)
  have hle := (List.Nodup.subperm hd hsub).length_le
  rwa [List.length_range] at hle

/-- The state of a search: nodes that have been met,
and a wave of further ones that holds all their other peers. -/
structure Frontier (t : Topology R) (met : List NodeId) (wave : List (NodeId × LinkId)) : Prop where
  nodup : (met ++ wave.map Prod.fst).Nodup
  bound : ∀ m ∈ met ++ wave.map Prod.fst, m < t.nodes.size
  closed : ∀ a ∈ met, ∀ q ∈ peers t a, q.1 ∈ met ++ wave.map Prod.fst

theorem neighbour_lt [Quantity R] (ht : t.WellFormed) {n : NodeId} {l : LinkId}
    (hl : l ∈ t.linksOf n) : t.neighbour n l < t.nodes.size := by
  obtain ⟨link, hlink, _⟩ := ht.listed hl
  obtain ⟨hhigh, hlow⟩ := ht.ends hlink
  rw [Topology.neighbour_eq hlink]
  unfold Link.otherEnd
  split
  · exact hlow
  · exact hhigh

namespace Frontier

variable {met : List NodeId} {wave : List (NodeId × LinkId)}

/-- The peers of a wave that have not been met make the next one. -/
theorem next [Quantity R] (ht : t.WellFormed) (h : Frontier t met wave) :
    Frontier t (met ++ wave.map Prod.fst) (nextWave t met wave) := by
  refine ⟨?_, ?_, ?_⟩
  · rw [List.nodup_append]
    refine ⟨h.nodup, nodup_firstMet _ _, ?_⟩
    intro a ha b hb he
    obtain ⟨p, hp, rfl⟩ := List.mem_map.mp hb
    exact (mem_of_mem_firstMet hp).2 (he ▸ ha)
  · intro m hm
    rcases List.mem_append.mp hm with hm | hm
    · exact h.bound m hm
    · obtain ⟨p, hp, rfl⟩ := List.mem_map.mp hm
      obtain ⟨q, _, hq⟩ := List.mem_flatMap.mp (mem_of_mem_firstMet hp).1
      obtain ⟨r, hr, rfl⟩ := List.mem_map.mp hq
      obtain ⟨hl, hn, _⟩ := mem_peers.mp hr
      exact hn ▸ neighbour_lt ht hl
  · intro a ha q hq
    rcases List.mem_append.mp ha with ha | ha
    · exact List.mem_append_left _ (h.closed a ha q hq)
    -- The peers of the wave that were not met before are the next wave.
    · obtain ⟨p, hp, rfl⟩ := List.mem_map.mp ha
      have hmem : (q.1, p.2) ∈ wave.flatMap fun p => (peers t p.1).map fun q => (q.1, p.2) :=
        List.mem_flatMap.mpr ⟨p, hp, List.mem_map.mpr ⟨q, hq, rfl⟩⟩
      exact List.mem_append.mpr (met_of_mem _ (p := (q.1, p.2)) hmem)

theorem length_le (h : Frontier t met wave) : met.length ≤ t.nodes.size :=
  length_le_of_nodup (List.nodup_append.mp h.nodup).1 fun m hm =>
    h.bound m (List.mem_append_left _ hm)

/-- A walk from a node that has been met ends at one that has
been met or in a wave of at most its length. -/
theorem complete [Quantity R] (ht : t.WellFormed) {fuel : Nat} (h : Frontier t met wave)
    (hfuel : t.nodes.size < fuel + met.length) {a m : NodeId} {k : Nat} (ha : a ∈ met)
    (hw : PeerWalk t k a m) :
    m ∈ met ∨ ∃ j w, j < k ∧ (waves t fuel met wave)[j]? = some w ∧ m ∈ w.map Prod.fst := by
  induction fuel generalizing met wave a k m with
  | zero =>
    have hle := h.length_le
    omega
  | succ fuel ih =>
    -- The walk is followed as long as it stays among the nodes that have been met.
    induction hw with
    | refl => exact Or.inl ha
    | @step k a m l hl hr hrest ihw =>
      have hq : (t.neighbour a l, l) ∈ peers t a := mem_peers.mpr ⟨hl, rfl, hr⟩
      rcases List.mem_append.mp (h.closed a ha _ hq) with hin | hin
      · rcases ihw hin with hm | ⟨j, w, hj, hget, hm⟩
        · exact Or.inl hm
        · exact Or.inr ⟨j, w, Nat.lt_succ_of_lt hj, hget, hm⟩
      -- It leaves them into the wave, which counts as met from here on; the rest of it is shorter.
      · have hne : wave ≠ [] := by
          rintro rfl
          cases hin
        have hlen : 0 < wave.length := List.length_pos_iff.mpr hne
        have hfuel' : t.nodes.size < fuel + (met ++ wave.map Prod.fst).length := by
          rw [List.length_append, List.length_map]
          omega
        rw [waves_succ hne]
        have hin' : t.neighbour a l ∈ met ++ wave.map Prod.fst := List.mem_append_right _ hin
        rcases ih (h.next ht) hfuel' hin' hrest with hm | ⟨j, w, hj, hget, hm⟩
        · rcases List.mem_append.mp hm with hm | hm
          · exact Or.inl hm
          · exact Or.inr ⟨0, wave, Nat.succ_pos _, rfl, hm⟩
        · exact Or.inr ⟨j + 1, w, Nat.succ_lt_succ hj, hget, hm⟩

end Frontier

section Around

variable [Quantity R] {n : NodeId}

theorem frontier_start (ht : t.WellFormed) (hn : n < t.nodes.size) :
    Frontier t [n] (firstMet [n] (peers t n)) := by
  refine ⟨?_, ?_, ?_⟩
  · rw [List.nodup_append]
    refine ⟨List.pairwise_singleton _ n, nodup_firstMet _ _, ?_⟩
    intro a ha b hb he
    obtain ⟨p, hp, rfl⟩ := List.mem_map.mp hb
    exact (mem_of_mem_firstMet hp).2 (he ▸ ha)
  · intro m hm
    rcases List.mem_append.mp hm with hm | hm
    · exact List.mem_singleton.mp hm ▸ hn
    · obtain ⟨p, hp, rfl⟩ := List.mem_map.mp hm
      obtain ⟨hl, he, _⟩ := mem_peers.mp (mem_of_mem_firstMet hp).1
      exact he ▸ neighbour_lt ht hl
  · intro a ha q hq
    rw [List.mem_singleton.mp ha] at hq
    exact List.mem_append.mpr (met_of_mem _ hq)

omit [Quantity R] in
theorem leads_of_wavesFrom {i : Nat} {w : List (NodeId × LinkId)}
    (hw : (wavesFrom t n)[i]? = some w) : ∀ p ∈ w, Leads t n i p := by
  have hstart : ∀ p ∈ firstMet [n] (peers t n), Leads t n 0 p := by
    intro p hp
    obtain ⟨hl, he, hr⟩ := mem_peers.mp (mem_of_mem_firstMet hp).1
    refine ⟨hl, by rw [he, hr], ?_⟩
    rw [he]
    exact .refl _
  have h := waves_sound hstart hw
  rwa [Nat.zero_add] at h

/-- A walk from a node leads back to it or into a wave around it of at most its length. -/
theorem mem_wavesFrom (ht : t.WellFormed) (hn : n < t.nodes.size) {k : Nat} {m : NodeId}
    (hw : PeerWalk t k n m) :
    m = n ∨ ∃ j w, j < k ∧ (wavesFrom t n)[j]? = some w ∧ m ∈ w.map Prod.fst := by
  have hfuel : t.nodes.size < t.nodes.size + [n].length := Nat.lt_succ_self _
  rcases (frontier_start ht hn).complete ht hfuel List.mem_cons_self hw with hm | h
  · exact Or.inl (List.mem_singleton.mp hm)
  · exact Or.inr h

end Around

end Routes

end FlowFabric
