import FlowFabric.Path
import FlowFabric.Proofs.Topology.Construction

namespace FlowFabric

variable {R : Type}

namespace Link

theorem connects_iff {link : Link R} {a b : NodeId} :
    link.connects a b = true ↔
      (link.high = a ∧ link.low = b) ∨ (link.high = b ∧ link.low = a) := by
  unfold connects
  simp

theorem otherEnd_of_connects {link : Link R} {a b : NodeId} (h : link.connects a b = true) :
    link.otherEnd a = b := by
  unfold otherEnd
  rcases connects_iff.mp h with ⟨rfl, rfl⟩ | ⟨rfl, rfl⟩
  · exact if_pos rfl
  · split
    · rename_i heq
      exact heq
    · rfl

end Link

namespace Topology

/-- Links of different nodes are listed at both ends, there is no second one between the same nodes,
and hosts have their loop-backs. -/
structure Simple (t : Topology R) : Prop where
  listed : ∀ {l link a b}, t.link? l = some link → link.connects a b = true → a ≠ b →
    l ∈ t.linksOf a
  unique : ∀ {l l' link link' a b}, t.link? l = some link → link.connects a b = true →
    t.link? l' = some link' → link'.connects a b = true → a ≠ b → l = l'
  loopback : ∀ {n node}, t.node? n = some node → node.kind.isHost = true →
    node.loopback.isSome = true

theorem neighbour_of_connects {t : Topology R} {l : LinkId} {link : Link R} {a b : NodeId}
    (hl : t.link? l = some link) (hc : link.connects a b = true) : t.neighbour a l = b :=
  (neighbour_eq hl a).trans (Link.otherEnd_of_connects hc)

variable [Quantity R] {t : Topology R}

theorem linksOf_pushNode (t : Topology R) (name : String) (kind : NodeKind) (bandwidth : R)
    (n : NodeId) : (t.pushNode name kind bandwidth).linksOf n = t.linksOf n := by
  unfold linksOf
  rw [node?_pushNode]
  by_cases hn : n = t.nodes.size
  · have hnone : t.node? n = none := Array.getElem?_eq_none (Nat.le_of_eq hn.symm)
    rw [if_pos hn, hnone]
  · rw [if_neg hn]

omit [Quantity R] in
theorem mem_linksOf_pushLink {a b : NodeId} (hab : a ≠ b) (latency forward backward : R)
    {n : NodeId} {l : LinkId} : l ∈ (t.pushLink a b latency forward backward).linksOf n ↔
      l ∈ t.linksOf n ∨ (l = t.links.size ∧ (n = a ∨ n = b) ∧ n < t.nodes.size) := by
  unfold linksOf
  rw [node?_pushLink t hab]
  cases hn : t.node? n with
  | none =>
    have hge : ¬ n < t.nodes.size := fun hlt => by
      rw [node?, Array.getElem?_eq_getElem hlt] at hn
      cases hn
    simp [hge]
  | some node =>
    have hlt := lt_size_of_node? hn
    rw [Option.map_some]
    dsimp only
    split
    · rename_i hend
      simp [hend, hlt]
    · rename_i hend
      simp [hend]

namespace Simple

omit [Quantity R] in
theorem empty (kind : FabricKind) : (Topology.empty kind : Topology R).Simple where
  listed h := by cases h
  unique h := by cases h
  loopback h := by cases h

theorem pushNode (h : t.Simple) (name : String) (kind : NodeKind) (bandwidth : R) :
    (t.pushNode name kind bandwidth).Simple := by
  -- The only new link leads from the new node back to itself.
  have hold {l link a b} (hl : (t.pushNode name kind bandwidth).link? l = some link)
      (hc : link.connects a b = true) (hne : a ≠ b) : t.link? l = some link := by
    rw [link?_pushNode] at hl
    split at hl
    · cases hl
      rcases Link.connects_iff.mp hc with ⟨ha, hb⟩ | ⟨hb, ha⟩
      · exact absurd (ha.symm.trans hb) hne
      · exact absurd (ha.symm.trans hb) hne
    · exact hl
  refine ⟨?_, ?_, ?_⟩
  · intro l link a b hl hc hne
    rw [linksOf_pushNode]
    exact h.listed (hold hl hc hne) hc hne
  · intro l l' link link' a b hl hc hl' hc' hne
    exact h.unique (hold hl hc hne) hc (hold hl' hc' hne) hc' hne
  · intro n node hn hhost
    rw [node?_pushNode] at hn
    split at hn
    · cases hn
      have hkind : kind.isHost = true := hhost
      simp [hkind]
    · exact h.loopback hn hhost

theorem pushLink (h : t.Simple) {a b : NodeId} {forward backward : R}
    (hl : t.Linkable a b forward backward) (latency : R) :
    (t.pushLink a b latency forward backward).Simple := by
  have hends : ∀ {m n}, (t.linkFor a b latency forward backward).connects m n = true →
      (m = a ∧ n = b) ∨ (m = b ∧ n = a) := by
    intro m n hc
    rcases linkFor_ends t a b latency forward backward with ⟨hhigh, hlow⟩ | ⟨hhigh, hlow⟩ <;>
      rcases Link.connects_iff.mp hc with ⟨rfl, rfl⟩ | ⟨rfl, rfl⟩ <;> simp [hhigh, hlow]
  -- No old link joins the two ends, or the new one would have been refused.
  have hfresh : ∀ {l link}, t.link? l = some link → ¬ link.connects a b = true := by
    intro l link hlink hc
    have hlisted := h.listed hlink hc hl.ne
    have hnone := hl.fresh
    unfold linkBetween? at hnone
    rw [if_neg hl.ne] at hnone
    exact List.find?_eq_none.mp hnone l hlisted (beq_iff_eq.mpr (neighbour_of_connects hlink hc))
  have hswap : ∀ {link : Link R} {m n}, link.connects m n = true → link.connects n m = true := by
    intro link m n hc
    exact Link.connects_iff.mpr (Link.connects_iff.mp hc).symm
  have hapart : ∀ {l link m n}, t.link? l = some link → link.connects m n = true →
      ¬ (t.linkFor a b latency forward backward).connects m n = true := by
    intro l link m n hlink hc hnew
    rcases hends hnew with ⟨rfl, rfl⟩ | ⟨rfl, rfl⟩
    · exact hfresh hlink hc
    · exact hfresh hlink (hswap hc)
  refine ⟨?_, ?_, ?_⟩
  · intro l link m n hlink hc hne
    rw [mem_linksOf_pushLink hl.ne]
    rw [link?_pushLink] at hlink
    split at hlink
    · rename_i hnew
      cases hlink
      rcases hends hc with ⟨rfl, _⟩ | ⟨rfl, _⟩
      · exact Or.inr ⟨hnew, Or.inl rfl, hl.left⟩
      · exact Or.inr ⟨hnew, Or.inr rfl, hl.right⟩
    · exact Or.inl (h.listed hlink hc hne)
  · intro l l' link link' m n hlink hc hlink' hc' hne
    rw [link?_pushLink] at hlink hlink'
    split at hlink <;> split at hlink'
    · rename_i hnew hnew'
      rw [hnew, hnew']
    · cases hlink
      exact absurd hc (hapart hlink' hc')
    · cases hlink'
      exact absurd hc' (hapart hlink hc)
    · exact h.unique hlink hc hlink' hc' hne
  · intro n node hn hhost
    rw [node?_pushLink t hl.ne, Option.map_eq_some_iff] at hn
    obtain ⟨old, hold, rfl⟩ := hn
    have hloop : old.kind.isHost = true → old.loopback.isSome = true := h.loopback hold
    by_cases hend : n = a ∨ n = b
    · rw [if_pos hend] at hhost ⊢
      exact hloop hhost
    · rw [if_neg hend] at hhost ⊢
      exact hloop hhost

end Simple

theorem Constructed.simple (h : t.Constructed) : t.Simple := by
  obtain ⟨kind, hg⟩ := h
  induction hg with
  | refl => exact .empty kind
  | tail _ hs ih =>
    rcases hs.cases with ⟨name, kind, bandwidth, _, rfl⟩ | ⟨a, b, latency, _, _, hl, rfl⟩
    · exact ih.pushNode name kind bandwidth
    · exact ih.pushLink hl latency

omit [Quantity R] in
theorem linksOf_pushLink {a b : NodeId} (hab : a ≠ b) (latency forward backward : R) (n : NodeId) :
    (t.pushLink a b latency forward backward).linksOf n = t.linksOf n ∨
      (t.pushLink a b latency forward backward).linksOf n = t.linksOf n ++ [t.links.size] := by
  unfold linksOf
  rw [node?_pushLink t hab]
  cases t.node? n with
  | none => exact Or.inl rfl
  | some node =>
    rw [Option.map_some]
    dsimp only
    split
    · exact Or.inr rfl
    · exact Or.inl rfl

theorem WellFormed.lt_of_mem_linksOf (h : t.WellFormed) {n : NodeId} {l : LinkId}
    (hl : l ∈ t.linksOf n) : l < t.links.size := by
  obtain ⟨link, hlink, _⟩ := h.listed hl
  exact lt_size_of_link? hlink

theorem WellFormed.nodup_linksOf_pushLink (h : t.WellFormed) {a b : NodeId} (hab : a ≠ b)
    (latency forward backward : R) {n : NodeId} (hd : (t.linksOf n).Nodup) :
    ((t.pushLink a b latency forward backward).linksOf n).Nodup := by
  rcases linksOf_pushLink hab latency forward backward n with he | he <;> rw [he]
  · exact hd
  · rw [List.nodup_append]
    refine ⟨hd, List.pairwise_singleton _ _, ?_⟩
    intro l hin l' hl' heq
    have hlt := h.lt_of_mem_linksOf hin
    rw [heq, List.mem_singleton.mp hl'] at hlt
    exact Nat.lt_irrefl _ hlt

/-- No node lists a link twice. -/
theorem Constructed.nodup_linksOf (h : t.Constructed) (n : NodeId) : (t.linksOf n).Nodup := by
  obtain ⟨kind, hg⟩ := h
  induction hg with
  | refl =>
    have hnone : (Topology.empty kind : Topology R).linksOf n = [] := rfl
    rw [hnone]
    exact List.nodup_nil
  | tail hg hs ih =>
    rcases hs.cases with ⟨name, kind', bandwidth, _, rfl⟩ | ⟨a, b, latency, _, _, hl, rfl⟩
    · rw [linksOf_pushNode]
      exact ih
    · have hwf : Topology.WellFormed _ := Constructed.wellFormed ⟨kind, hg⟩
      exact hwf.nodup_linksOf_pushLink hl.ne latency _ _ ih

theorem WellFormed.connects (h : t.WellFormed) {n : NodeId} {l : LinkId} (hl : l ∈ t.linksOf n) :
    ∃ link, t.link? l = some link ∧ link.connects n (link.otherEnd n) = true ∧
      t.neighbour n l = link.otherEnd n := by
  obtain ⟨link, hlink, hne, hend⟩ := h.listed hl
  refine ⟨link, hlink, ?_, neighbour_eq hlink n⟩
  unfold Link.connects Link.otherEnd
  rcases hend with rfl | rfl
  · simp
  · simp [hne.symm]

/-- A listed link leads to another node. -/
theorem WellFormed.neighbour_ne (h : t.WellFormed) {n : NodeId} {l : LinkId}
    (hl : l ∈ t.linksOf n) : n ≠ t.neighbour n l := by
  obtain ⟨link, hlink, hne, hend⟩ := h.listed hl
  rw [neighbour_eq hlink]
  unfold Link.otherEnd
  rcases hend with rfl | rfl
  · rw [if_pos rfl]
    exact hne
  · rw [if_neg hne.symm]
    exact hne.symm

/-- Every host has a link to itself. -/
theorem Constructed.hopBetween?_self (h : t.Constructed) {n : NodeId}
    (hn : t.checkHost n = .ok ()) : ∃ hop, Path.hopBetween? t n n = some hop ∧ hop.target = n := by
  unfold checkHost at hn
  split at hn
  · cases hn
  · rename_i node hnode
    split at hn
    · rename_i hhost
      obtain ⟨l, hl⟩ := Option.isSome_iff_exists.mp (h.simple.loopback hnode hhost)
      obtain ⟨_, link, hlink, _⟩ := h.wellFormed.loopback hnode hl
      refine ⟨⟨⟨l, link.directionFrom n⟩, n⟩, ?_, rfl⟩
      unfold Path.hopBetween? linkBetween?
      rw [if_pos rfl, hnode, Option.bind_some, hl, Option.bind_some, hlink]
      rfl
    · cases hn

/-- The link between two nodes is the one that connects them. -/
theorem Constructed.linkBetween?_eq (h : t.Constructed) {a b : NodeId} (hne : a ≠ b) {l : LinkId}
    {link : Link R} (hl : t.link? l = some link) (hc : link.connects a b = true) :
    t.linkBetween? a b = some l := by
  have hlisted := h.simple.listed hl hc hne
  have hneighbour : t.neighbour a l = b := neighbour_of_connects hl hc
  unfold linkBetween?
  rw [if_neg hne]
  cases hfind : (t.linksOf a).find? fun l => t.neighbour a l == b with
  | none => exact absurd (beq_iff_eq.mpr hneighbour) (List.find?_eq_none.mp hfind l hlisted)
  | some l' =>
    obtain ⟨link', hl', hc', hother⟩ := h.wellFormed.connects (List.mem_of_find?_eq_some hfind)
    have hb : t.neighbour a l' = b :=
      eq_of_beq (List.find?_some (p := fun l => t.neighbour a l == b) hfind)
    rw [← hother, hb] at hc'
    rw [h.simple.unique hl' hc' hl hc hne]

end Topology

end FlowFabric
