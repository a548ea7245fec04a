import FlowFabric.Proofs.Network.Readback
import FlowFabric.Proofs.Routing.Reachability

/-! A flow climbs until the host is below and then descends. It turns round on the first level where
both hosts are in one zone. -/

namespace FlowFabric

open Routes (Reaches)

namespace Path

variable {here : NodeId} {hop : Hop} {rest : List Hop}

theorem last_cons (here : NodeId) (hop : Hop) (rest : List Hop) :
    (⟨here, hop :: rest⟩ : Path).last = (⟨hop.target, rest⟩ : Path).last := by
  apply List.getLast_cons

variable {R : Type} {t : Topology R} {dst : NodeId}

/-- The hops lead from a node to another one, over links and without repetition. -/
structure Trail (t : Topology R) (dst here : NodeId) (hops : List Hop) : Prop where
  last : (⟨here, hops⟩ : Path).last = dst
  simple : (⟨here, hops⟩ : Path).nodes.Nodup
  follows : ∀ s ∈ stepsFrom here hops, Follows t s.1 s.2

namespace Trail

theorem tail (h : Trail t dst here (hop :: rest)) : Trail t dst hop.target rest where
  last := (last_cons here hop rest).symm.trans h.last
  simple := (List.nodup_cons.mp h.simple).2
  follows s hs := h.follows s (List.mem_cons_of_mem _ hs)

theorem head (h : Trail t dst here (hop :: rest)) : Follows t here hop :=
  h.follows (here, hop) List.mem_cons_self

theorem not_mem (h : Trail t dst here (hop :: rest)) :
    here ∉ (⟨hop.target, rest⟩ : Path).nodes :=
  (List.nodup_cons.mp h.simple).1

theorem ne (h : Trail t dst here (hop :: rest)) : here ≠ hop.target := by
  intro heq
  apply h.not_mem
  rw [heq]
  exact List.mem_cons_self

end Trail

end Path

namespace Topology

variable {R α : Type} {t : Topology R} {level : NodeId → Nat} {zone : Nat → NodeId → α}
  {n dst here : NodeId} {hop : Hop} {hops rest : List Hop}

/-- Nodes in levels, the hosts on the lowest one. Each level divides the network into zones, which
no link up to that level leaves. A node has a way down to the hosts of its zone on its own level,
and a node that has none to some host has a link up. -/
structure Hierarchy (t : Topology R) (level : NodeId → Nat) (zone : Nat → NodeId → α) : Prop where
  host : ∀ {n}, t.isHost n = true → level n = 0
  step : ∀ {n l}, l ∈ t.linksOf n →
    (t.rankOf (t.neighbour n l) < t.rankOf n ∧ level (t.neighbour n l) = level n + 1) ∨
    (t.rankOf n < t.rankOf (t.neighbour n l) ∧ level n = level (t.neighbour n l) + 1)
  stays : ∀ {n l k}, l ∈ t.linksOf n → level n ≤ k → level (t.neighbour n l) ≤ k →
    zone k (t.neighbour n l) = zone k n
  covers : ∀ {n dst}, n < t.nodes.size → t.isHost dst = true →
    zone (level n) n = zone (level n) dst → Reaches t dst n
  climbs : ∀ {n dst}, n < t.nodes.size → t.isHost dst = true → ¬ Reaches t dst n →
    ∃ l ∈ t.linksOf n, t.rankOf (t.neighbour n l) < t.rankOf n

/-- No node has two links up. -/
def Forest (t : Topology R) : Prop :=
  ∀ {n l l'}, l ∈ t.linksOf n → l' ∈ t.linksOf n → t.rankOf (t.neighbour n l) < t.rankOf n →
    t.rankOf (t.neighbour n l') < t.rankOf n → l = l'

/-- The hops go up as long as the host is not below, and then down to it. -/
inductive Direct (t : Topology R) (dst : NodeId) : NodeId → List Hop → Prop where
  | arrived : Direct t dst dst []
  | up {here : NodeId} {hop : Hop} {rest : List Hop} (hfollows : Path.Follows t here hop)
      (hrank : t.rankOf hop.target < t.rankOf here) (hnot : ¬ Reaches t dst here)
      (h : Direct t dst hop.target rest) : Direct t dst here (hop :: rest)
  | down {here : NodeId} {hop : Hop} {rest : List Hop} (hfollows : Path.Follows t here hop)
      (hrank : t.rankOf here < t.rankOf hop.target) (hreaches : Reaches t dst hop.target)
      (h : Direct t dst hop.target rest) : Direct t dst here (hop :: rest)

/-- The level of a node and its zone there. -/
def spot (level : NodeId → Nat) (zone : Nat → NodeId → α) (n : NodeId) : Nat × α :=
  (level n, zone (level n) n)

section Links

theorem ne_of_rankOf_lt {a b : NodeId} (h : t.rankOf a < t.rankOf b) : a ≠ b :=
  fun heq => Nat.ne_of_lt h (congrArg t.rankOf heq)

theorem lt_size_of_listed {l : LinkId} (hl : l ∈ t.linksOf n) : n < t.nodes.size := by
  obtain ⟨node, hnode, _⟩ := mem_linksOf.mp hl
  exact lt_size_of_node? hnode

variable [Quantity R] (ht : t.Constructed)

include ht

/-- Both ends of a link list it. -/
theorem listed_of_listed {l : LinkId} (hl : l ∈ t.linksOf n) :
    l ∈ t.linksOf (t.neighbour n l) ∧ t.neighbour (t.neighbour n l) l = n := by
  obtain ⟨link, hlink, hconnects, hother⟩ := ht.wellFormed.connects hl
  have hback : link.connects (t.neighbour n l) n = true := by
    rw [hother]
    exact Link.connects_iff.mpr (Link.connects_iff.mp hconnects).symm
  have hne := (ht.wellFormed.neighbour_ne hl).symm
  exact ⟨ht.simple.listed hlink hback hne, neighbour_of_connects hlink hback⟩

variable (hf : Path.Follows t here hop) (hne : here ≠ hop.target)

include hf hne

theorem listed_of_follows :
    hop.lane.link ∈ t.linksOf here ∧ t.neighbour here hop.lane.link = hop.target := by
  obtain ⟨link, hlink, hconnects, _⟩ := hf
  exact ⟨ht.simple.listed hlink hconnects hne, neighbour_of_connects hlink hconnects⟩

theorem listed_back_of_follows :
    hop.lane.link ∈ t.linksOf hop.target ∧ t.neighbour hop.target hop.lane.link = here := by
  obtain ⟨hl, heq⟩ := listed_of_follows ht hf hne
  have hback := listed_of_listed ht hl
  rwa [heq] at hback

end Links

namespace Hierarchy

variable (hier : t.Hierarchy level zone)

include hier

theorem level_of_down {l : LinkId} (hl : l ∈ t.linksOf n)
    (hrank : t.rankOf n < t.rankOf (t.neighbour n l)) : level n = level (t.neighbour n l) + 1 := by
  rcases hier.step hl with ⟨hup, _⟩ | ⟨_, hlevel⟩
  · omega
  · exact hlevel

/-- No link stays within a rank. -/
theorem not_across {l : LinkId} (hl : l ∈ t.linksOf n) :
    ¬ t.rankOf (t.neighbour n l) = t.rankOf n := by
  rcases hier.step hl with ⟨hup, _⟩ | ⟨hdown, _⟩ <;> omega

/-- On all levels from its own up, a node is in the zone of the hosts that it has a way down to. -/
theorem zone_of_reaches (h : Reaches t dst n) {k : Nat} (hk : level n ≤ k) :
    zone k n = zone k dst := by
  induction h with
  | arrived => rfl
  | @down n l hl hrank _ ih =>
    have hlevel := hier.level_of_down hl hrank
    calc
      zone k n = zone k (t.neighbour n l) := (hier.stays hl hk (by omega)).symm
      _ = zone k dst := ih (by omega)
  | across hl _ hrank _ _ => exact absurd hrank (hier.not_across hl)

theorem eq_of_reaches_bottom (h : Reaches t dst n) (hn : level n = 0) : n = dst := by
  cases h with
  | arrived => rfl
  | down hl hrank _ =>
    have hlevel := hier.level_of_down hl hrank
    omega
  | across hl _ hrank _ => exact absurd hrank (hier.not_across hl)

variable [Quantity R] (ht : t.Constructed)

include ht

/-- A hop leads to the next level up or to the next one down. -/
theorem follows_cases (hf : Path.Follows t here hop) (hne : here ≠ hop.target) :
    (t.rankOf hop.target < t.rankOf here ∧ level hop.target = level here + 1) ∨
      (t.rankOf here < t.rankOf hop.target ∧ level here = level hop.target + 1) := by
  obtain ⟨hl, heq⟩ := listed_of_follows ht hf hne
  rw [← heq]
  exact hier.step hl

theorem zone_of_follows (hf : Path.Follows t here hop) (hne : here ≠ hop.target) {k : Nat}
    (hhere : level here ≤ k) (htarget : level hop.target ≤ k) :
    zone k hop.target = zone k here := by
  obtain ⟨hl, heq⟩ := listed_of_follows ht hf hne
  rw [← heq] at htarget ⊢
  exact hier.stays hl hhere htarget

omit hier in
theorem reaches_of_down (hf : Path.Follows t here hop) (hrank : t.rankOf here < t.rankOf hop.target)
    (h : Reaches t dst hop.target) : Reaches t dst here := by
  obtain ⟨hl, heq⟩ := listed_of_follows ht hf (ne_of_rankOf_lt hrank)
  rw [← heq] at hrank h
  exact .down hl hrank h

section Levels

variable (hdst : t.isHost dst = true)

include hdst

/-- The way down from a node leads from level to level through the zones of the host. -/
theorem spots_of_reaches (h : Direct t dst here hops) (hreaches : Reaches t dst here) :
    (here :: hops.map Hop.target).map (spot level zone) =
      ((List.range (level here + 1)).map fun i => (i, zone i dst)).reverse := by
  induction h with
  | arrived =>
    have hbottom := hier.host hdst
    simp [spot, hbottom]
  | up _ _ hnot _ _ => exact absurd hreaches hnot
  | @down here hop rest hf hrank hbelow _ ih =>
    have hlevel := ((hier.follows_cases ht hf (ne_of_rankOf_lt hrank)).resolve_left
      fun hup => by omega).2
    have hspot : spot level zone here = (level here, zone (level here) dst) := by
      unfold spot
      rw [hier.zone_of_reaches hreaches (Nat.le_refl _)]
    have hrest := ih hbelow
    rw [← hlevel] at hrest
    rw [List.range_succ, List.map_append, List.reverse_append, ← hrest]
    show spot level zone here :: _ = _
    rw [hspot]
    rfl

/-- A way down, as a way that turns round where it begins. -/
theorem turn_of_reaches (h : Direct t dst here hops) (hreaches : Reaches t dst here) :
    (here :: hops.map Hop.target).map (spot level zone) =
      ((List.range' (level here) (level here + 1 - level here)).map fun i => (i, zone i here)) ++
        ((List.range (level here)).map fun i => (i, zone i dst)).reverse := by
  have hone : level here + 1 - level here = 1 := Nat.add_sub_cancel_left _ _
  rw [hier.spots_of_reaches ht hdst h hreaches, hone, List.range_succ, List.map_append,
    List.reverse_append]
  show (level here, zone (level here) dst) :: _ = (level here, zone (level here) here) :: _
  rw [hier.zone_of_reaches hreaches (Nat.le_refl _)]
  rfl

/-- A direct way climbs through the zones of its start to the first level where the host is in the
same zone, and descends through those of the host. The induction goes along the climb. -/
theorem spots_of_direct (h : Direct t dst here hops) :
    ∃ top, level here ≤ top ∧
      (here :: hops.map Hop.target).map (spot level zone) =
        ((List.range' (level here) (top + 1 - level here)).map fun i => (i, zone i here)) ++
          ((List.range top).map fun i => (i, zone i dst)).reverse ∧
      zone top here = zone top dst ∧
      ∀ i, level here ≤ i → i < top → zone i here ≠ zone i dst := by
  induction h with
  | arrived =>
    refine ⟨level dst, Nat.le_refl _, ?_, rfl, fun i hle hlt => absurd hlt (Nat.not_lt.mpr hle)⟩
    exact hier.turn_of_reaches ht hdst .arrived .arrived
  | @down here hop rest hf hrank hreaches h _ =>
    have hhere := reaches_of_down ht hf hrank hreaches
    refine ⟨level here, Nat.le_refl _, ?_, hier.zone_of_reaches hhere (Nat.le_refl _),
      fun i hle hlt => absurd hlt (Nat.not_lt.mpr hle)⟩
    exact hier.turn_of_reaches ht hdst (.down hf hrank hreaches h) hhere
  | @up here hop rest hf hrank hnot _ ih =>
    obtain ⟨top, hle, hspots, hmeets, hapart⟩ := ih
    have hne := (ne_of_rankOf_lt hrank).symm
    have hlevel := ((hier.follows_cases ht hf hne).resolve_right fun hdown => by omega).2
    have hstays {k : Nat} (hk : level hop.target ≤ k) : zone k hop.target = zone k here :=
      hier.zone_of_follows ht hf hne (by omega) hk
    refine ⟨top, by omega, ?_, ?_, fun i hi htop => ?_⟩
    · have hlength : top + 1 - level here = (top + 1 - level hop.target) + 1 := by omega
      have hclimb : (List.range' (level here + 1) (top + 1 - level hop.target)).map
          (fun i => (i, zone i here)) =
          (List.range' (level hop.target) (top + 1 - level hop.target)).map
            fun i => (i, zone i hop.target) := by
        rw [hlevel]
        apply List.map_congr_left
        intro i hi
        have hmem := (List.mem_range'_1.mp hi).1
        rw [hstays (by omega)]
      rw [hlength, List.range'_succ]
      show spot level zone here :: (hop.target :: rest.map Hop.target).map (spot level zone) =
        (level here, zone (level here) here) :: (_ ++ _)
      rw [hclimb, hspots]
      rfl
    · rw [← hstays hle]
      exact hmeets
    · rcases Nat.eq_or_lt_of_le hi with rfl | hlater
      · -- A node in one zone with the host on its own level would have a way down.
        have hlt := lt_size_of_listed (listed_of_follows ht hf hne).1
        exact fun heq => hnot (hier.covers hlt hdst heq)
      · rw [← hstays (by omega)]
        exact hapart i (by omega) htop

/-- A way to a host is no shorter than the levels that it has to descend. -/
theorem level_le_length (h : Path.Trail t dst here hops) : level here ≤ hops.length := by
  induction hops generalizing here with
  | nil =>
    obtain rfl : here = dst := h.last
    rw [hier.host hdst]
    exact Nat.zero_le _
  | cons hop rest ih =>
    have hrest := ih h.tail
    rcases hier.follows_cases ht h.head h.ne with ⟨_, hlevel⟩ | ⟨_, hlevel⟩
    · exact Nat.le_succ_of_le (by omega)
    · rw [hlevel, List.length_cons]
      exact Nat.succ_le_succ hrest

/-- A way to a host in another zone of some level goes
beyond that level, and comes back from there. -/
theorem length_of_apart (h : Path.Trail t dst here hops) {i : Nat} (hi : level here ≤ i)
    (hapart : zone i here ≠ zone i dst) : 2 * (i + 1) ≤ hops.length + level here := by
  induction hops generalizing here with
  | nil =>
    obtain rfl : here = dst := h.last
    exact absurd rfl hapart
  | cons hop rest ih =>
    rw [List.length_cons]
    have hcases := hier.follows_cases ht h.head h.ne
    by_cases hwithin : level hop.target ≤ i
    · have hrest := ih h.tail hwithin fun heq =>
        hapart ((hier.zone_of_follows ht h.head h.ne hi hwithin).symm.trans heq)
      omega
    · -- From here on the way is above the level, and all of it is still to be descended.
      have hdescent := hier.level_le_length ht hdst h.tail
      omega

end Levels

section Forest

variable (hforest : t.Forest) (hdst : t.isHost dst = true)

include hforest

/-- Once a way without repetition goes down in a forest,
it cannot turn, for the only link up is the one that it came from. -/
theorem direct_of_down (h : Path.Trail t dst here (hop :: rest))
    (hrank : t.rankOf here < t.rankOf hop.target) :
    Reaches t dst hop.target ∧ Direct t dst hop.target rest := by
  induction rest generalizing here hop with
  | nil =>
    obtain rfl : hop.target = dst := h.tail.last
    exact ⟨.arrived, .arrived⟩
  | cons next rest ih =>
    rcases hier.follows_cases ht h.tail.head h.tail.ne with ⟨hup, _⟩ | ⟨hdown, _⟩
    · exfalso
      obtain ⟨hl, heq⟩ := listed_of_follows ht h.tail.head h.tail.ne
      obtain ⟨hlisted, horigin⟩ := listed_back_of_follows ht h.head h.ne
      have hsame : next.lane.link = hop.lane.link := by
        apply hforest hl hlisted
        · rwa [heq]
        · rwa [horigin]
      apply h.not_mem
      rw [← horigin, ← hsame, heq]
      exact List.mem_cons_of_mem _ List.mem_cons_self
    · obtain ⟨hreaches, hdirect⟩ := ih h.tail hdown
      exact ⟨reaches_of_down ht h.tail.head hdown hreaches,
        .down h.tail.head hdown hreaches hdirect⟩

include hdst

/-- In a forest one node of a level at most has a way down to a host. -/
theorem eq_of_reaches {a b : NodeId} (ha : Reaches t dst a) (hb : Reaches t dst b)
    (hlevel : level a = level b) : a = b := by
  have hbottom := hier.host hdst
  induction ha generalizing b with
  | arrived => exact (hier.eq_of_reaches_bottom hb (by omega)).symm
  | @down a l hl hrank _ ih =>
    have hla := hier.level_of_down hl hrank
    cases hb with
    | arrived => omega
    | @down _ l' hl' hrank' hreaches' =>
      have hlb := hier.level_of_down hl' hrank'
      have hbelow : t.neighbour a l = t.neighbour b l' := ih hreaches' (by omega)
      obtain ⟨hlisted, horigin⟩ := listed_of_listed ht hl
      obtain ⟨hlisted', horigin'⟩ := listed_of_listed ht hl'
      rw [hbelow] at hlisted horigin hrank
      -- Both links lead up from the same node below.
      have hsame : l = l' := by
        apply hforest hlisted hlisted'
        · rwa [horigin]
        · rwa [horigin']
      rw [← horigin, hsame, horigin']
    | across hl' _ hrank' _ => exact absurd hrank' (hier.not_across hl')
  | across hl _ hrank _ _ => exact absurd hrank (hier.not_across hl)

/-- A way without repetition to a host passes through the node below
its start that has a way down to the host. -/
theorem mem_of_reaches_below (h : Path.Trail t dst here hops) {l : LinkId} (hl : l ∈ t.linksOf here)
    (hrank : t.rankOf here < t.rankOf (t.neighbour here l))
    (hreaches : Reaches t dst (t.neighbour here l)) :
    t.neighbour here l ∈ (⟨here, hops⟩ : Path).nodes := by
  have hbelow := hier.level_of_down hl hrank
  induction hops generalizing here l with
  | nil =>
    obtain rfl : here = dst := h.last
    have hbottom := hier.host hdst
    omega
  | cons hop rest ih =>
    rcases hier.follows_cases ht h.head h.ne with ⟨hup, hlevel⟩ | ⟨hdown, hlevel⟩
    · -- Higher up, the start would be the node that the rest of the way passes through.
      exfalso
      obtain ⟨hlisted, horigin⟩ := listed_back_of_follows ht h.head h.ne
      have hmem := ih h.tail hlisted
      rw [horigin] at hmem
      exact h.not_mem (hmem hup (.down hl hrank hreaches) hlevel)
    · obtain ⟨hreaches', _⟩ := hier.direct_of_down ht hforest h hdown
      rw [hier.eq_of_reaches ht hforest hdst hreaches hreaches' (by omega)]
      exact List.mem_cons_of_mem _ List.mem_cons_self

/-- In a forest every way without repetition is direct. -/
theorem direct_of_trail (h : Path.Trail t dst here hops) : Direct t dst here hops := by
  induction hops generalizing here with
  | nil =>
    obtain rfl : here = dst := h.last
    exact .arrived
  | cons hop rest ih =>
    rcases hier.follows_cases ht h.head h.ne with ⟨hup, _⟩ | ⟨hdown, _⟩
    · refine .up h.head hup (fun hreaches => h.not_mem ?_) (ih h.tail)
      obtain ⟨hlisted, horigin⟩ := listed_back_of_follows ht h.head h.ne
      have hmem := hier.mem_of_reaches_below ht hforest hdst h.tail hlisted
      rw [horigin] at hmem
      exact hmem hup hreaches
    · obtain ⟨hreaches, hdirect⟩ := hier.direct_of_down ht hforest h hdown
      exact .down h.head hdown hreaches hdirect

/-- In a forest there is one direct way. -/
theorem direct_unique {hops' : List Hop} (h : Direct t dst here hops)
    (h' : Direct t dst here hops') : hops = hops' := by
  have hsame {here : NodeId} {hop hop' : Hop} (hf : Path.Follows t here hop)
      (hne : here ≠ hop.target) (hf' : Path.Follows t here hop')
      (heq : hop.target = hop'.target) : hop = hop' := by
    apply Option.some.inj
    rw [← hf.hopBetween? ht hne, ← hf'.hopBetween? ht (heq ▸ hne), heq]
  have hbottom := hier.host hdst
  induction h generalizing hops' with
  | arrived =>
    cases h' with
    | arrived => rfl
    | up _ _ hnot _ => exact absurd .arrived hnot
    | down hf' hrank' _ _ =>
      rcases hier.follows_cases ht hf' (ne_of_rankOf_lt hrank') with ⟨hup, _⟩ | ⟨_, hlevel⟩
      all_goals omega
  | @up here hop rest hf hrank hnot _ ih =>
    cases h' with
    | arrived => exact absurd .arrived hnot
    | @up _ hop' rest' hf' hrank' _ h' =>
      have hne := (ne_of_rankOf_lt hrank).symm
      obtain ⟨hl, heq⟩ := listed_of_follows ht hf hne
      obtain ⟨hl', heq'⟩ := listed_of_follows ht hf' (ne_of_rankOf_lt hrank').symm
      -- In a forest one link leads up from a node.
      have hlink : hop.lane.link = hop'.lane.link := by
        apply hforest hl hl'
        · rwa [heq]
        · rwa [heq']
      obtain rfl : hop = hop' := hsame hf hne hf' (by rw [← heq, hlink, heq'])
      rw [ih h']
    | down hf' hrank' hreaches' _ => exact absurd (reaches_of_down ht hf' hrank' hreaches') hnot
  | @down here hop rest hf hrank hreaches _ ih =>
    have hne := ne_of_rankOf_lt hrank
    have hlevel := (hier.follows_cases ht hf hne).resolve_left fun hup => by omega
    cases h' with
    | arrived => omega
    | up _ _ hnot _ => exact absurd (reaches_of_down ht hf hrank hreaches) hnot
    | @down _ hop' rest' hf' hrank' hreaches' h' =>
      have hlevel' := (hier.follows_cases ht hf' (ne_of_rankOf_lt hrank')).resolve_left
        fun hup => by omega
      -- Only one node of the level below has the host beneath it.
      have htarget : hop.target = hop'.target :=
        hier.eq_of_reaches ht hforest hdst hreaches hreaches' (by omega)
      obtain rfl : hop = hop' := hsame hf hne hf' htarget
      rw [ih h']

end Forest

end Hierarchy

end Topology

namespace Network

open FlowFabric.Topology (Hierarchy Forest Direct spot)

variable {R α : Type} [Quantity R] {net : Network R} {level : NodeId → Nat}
  {zone : Nat → NodeId → α} {src dst : NodeId}

/-- The way between two hosts that climbs through the zones of the first one to the first level
where both are in the same, and descends through those of the second one. No other is shorter, and
in a forest there is no other. -/
structure Turns (t : Topology R) (level : NodeId → Nat) (zone : Nat → NodeId → α) (src dst : NodeId)
    (p : Path) (top : Nat) : Prop where
  way : Way t src dst p
  spots : p.nodes.map (spot level zone) = ((List.range (top + 1)).map fun i => (i, zone i src)) ++
    ((List.range top).map fun i => (i, zone i dst)).reverse
  meets : zone top src = zone top dst
  apart : ∀ i < top, zone i src ≠ zone i dst
  shortest : ∀ q : Path, q.Joins src dst → (∀ s ∈ q.steps, Path.Follows t s.1 s.2) →
    p.nodes.length ≤ q.nodes.length
  unique : t.Forest → ∀ q : Path, q.Joins src dst → (∀ s ∈ q.steps, Path.Follows t s.1 s.2) → q = p

/-- What is told by the levels and zones of nodes is known of all nodes of the way. -/
theorem Turns.map_eq {t : Topology R} {p : Path} {top : Nat} (h : Turns t level zone src dst p top)
    (ht : t.WellFormed) (hsrc : src < t.nodes.size) {β : Type} {f : NodeId → β} {g : Nat × α → β}
    (hf : ∀ n < t.nodes.size, f n = g (spot level zone n)) :
    p.nodes.map f = ((List.range (top + 1)).map fun i => g (i, zone i src)) ++
      ((List.range top).map fun i => g (i, zone i dst)).reverse := by
  calc
    p.nodes.map f = p.nodes.map (g ∘ spot level zone) :=
      List.map_congr_left fun n hn => hf n (h.way.lt_size ht hsrc n hn)
    _ = (p.nodes.map (spot level zone)).map g := List.map_map.symm
    _ = _ := by
      rw [h.spots, List.map_append, List.map_reverse, List.map_map, List.map_map]
      rfl

section Search

variable (ht : net.topology.Constructed) (hroutes : net.routes = Routes.ofTopology net.topology)
  (hier : net.topology.Hierarchy level zone) (hdst : net.topology.isHost dst = true)

include ht hroutes hier hdst

/-- Every other node offers a link towards a host. -/
theorem route_ne_nil {n : NodeId} (hn : n < net.topology.nodes.size) (hne : n ≠ dst) :
    (net.routing n).route dst ≠ [] := by
  have hrouting : net.routing n = (Routes.ofTopology net.topology).table n := by
    unfold routing
    rw [hroutes]
  rw [hrouting]
  by_cases hknows : ((Routes.ofTopology net.topology).table n).knows dst = true
  · rw [RoutingTable.route_of_knows hknows]
    have hbelow : Routes.FromBelow net.topology (Routes.ofTopology net.topology) n dst := by
      cases (Routes.knows_iff_reaches ht hdst hn).mp hknows with
      | arrived => exact absurd rfl hne
      | down hl hrank h =>
        have hlt := Routes.neighbour_lt ht.wellFormed hl
        exact ⟨_, hl, hrank, (Routes.knows_iff_reaches ht hdst hlt).mpr h⟩
      | across hl _ hrank _ => exact absurd hrank (hier.not_across hl)
    rw [Routes.links_of_fromBelow ht hn hdst hbelow]
    obtain ⟨l, hl, hleads⟩ := hbelow
    exact List.ne_nil_of_mem (List.mem_filter.mpr ⟨hl, decide_eq_true hleads⟩)
  · have huplinks : (Routes.below net.topology n).uplinks = _ :=
      Routes.uplinks_fromBelow (ht.nodup_linksOf n)
    rw [RoutingTable.route_of_not_knows hknows, Routes.uplinks_ofTopology hn, huplinks]
    have hnot : ¬ Reaches net.topology dst n :=
      fun h => hknows ((Routes.knows_iff_reaches ht hdst hn).mpr h)
    obtain ⟨l, hl, hrank⟩ := hier.climbs hn hdst hnot
    exact List.ne_nil_of_mem (List.mem_filter.mpr ⟨hl, decide_eq_true hrank⟩)

theorem direct_of_progress {here : NodeId} {hops : List Hop}
    (hlast : (⟨here, hops⟩ : Path).last = dst)
    (hprogress : ∀ s ∈ Path.stepsFrom here hops, net.Progress net.topology dst s.1 s.2) :
    Direct net.topology dst here hops := by
  have hrouting (n : NodeId) : net.routing n = (Routes.ofTopology net.topology).table n := by
    unfold routing
    rw [hroutes]
  induction hops generalizing here with
  | nil =>
    obtain rfl : here = dst := hlast
    exact .arrived
  | cons hop rest ih =>
    have hgood := hprogress (here, hop) List.mem_cons_self
    have hrest := ih ((Path.last_cons here hop rest).symm.trans hlast)
      fun s hs => hprogress s (List.mem_cons_of_mem _ hs)
    have hne : here ≠ hop.target := by
      intro heq
      have hless := hgood.remaining
      dsimp only at hless
      rw [← heq] at hless
      exact lt_irrefl _ hless
    have hhere := Topology.lt_size_of_listed (Topology.listed_of_follows ht hgood.follows hne).1
    -- The tables know a host below exactly if it is reached on the way down.
    rcases hgood.rank with ⟨hunknown, hrank⟩ | ⟨hknown, hrank⟩
    · refine .up hgood.follows hrank (fun h => hunknown ?_) hrest
      rw [hrouting]
      exact (Routes.knows_iff_reaches ht hdst hhere).mpr h
    · rw [hrouting] at hknown
      have hreaches := (Routes.knows_iff_reaches ht hdst hgood.target).mp hknown
      rcases hier.follows_cases ht hgood.follows hne with ⟨hup, _⟩ | ⟨hdown, _⟩
      · exact absurd hup (Nat.not_lt.mpr hrank)
      · exact .down hgood.follows hdown hreaches hrest

/-- Between two hosts of a hierarchy every search succeeds, with a direct way. -/
theorem build_direct {select : Selection R}
    (hsel : ∀ entries, Answers select (net.withForwarding entries)) (key : FlowKey)
    (hsrc : net.topology.isHost src = true) (hne : src ≠ dst) :
    ∃ hops, (build select net key src dst).1 = .ok ⟨src, hops⟩ ∧
      Path.Trail net.topology dst src hops ∧ Direct net.topology dst src hops := by
  have hrouted : net.Routed net.topology := ⟨ht.wellFormed, .refl _, hroutes⟩
  have hlt := lt_size_of_checkHost (checkHost_of_isHost hsrc)
  rw [build_of_hosts select key hsrc hdst hne]
  have hbegin : net.Laid net.topology dst ⟨src, []⟩ := .start src hlt
  rcases lay_cases key [] hsel hrouted hbegin rfl with
    ⟨⟨start, hops⟩, hok, hlaid, hstart, hlast⟩ | ⟨here, _, hhere, harrived, hnone⟩
  · obtain rfl : start = src := hstart
    exact ⟨hops, hok, ⟨hlast, hlaid.simple, hlaid.follows⟩,
      direct_of_progress ht hroutes hier hdst hlast hlaid.progress⟩
  · exact absurd hnone (route_ne_nil ht hroutes hier hdst hhere harrived)

/-- The search between two hosts of a hierarchy succeeds, and its way turns round on some level. -/
theorem build_turns {select : Selection R}
    (hsel : ∀ entries, Answers select (net.withForwarding entries)) (key : FlowKey)
    (hsrc : net.topology.isHost src = true) (hne : src ≠ dst) :
    ∃ p top, (build select net key src dst).1 = .ok p ∧
      Turns net.topology level zone src dst p top := by
  obtain ⟨hops, hok, htrail, hdirect⟩ := build_direct ht hroutes hier hdst hsel key hsrc hne
  obtain ⟨top, _, hspots, hmeets, hapart⟩ := hier.spots_of_direct ht hdst hdirect
  have hbottom := hier.host hsrc
  rw [hbottom] at hspots
  have htrailOf {q : Path} (hq : q.Joins src dst)
      (hfollows : ∀ s ∈ q.steps, Path.Follows net.topology s.1 s.2) :
      q = ⟨src, q.hops⟩ ∧ Path.Trail net.topology dst src q.hops := by
    obtain ⟨start, hops⟩ := q
    obtain rfl : start = src := hq.start
    exact ⟨rfl, hq.last, hq.simple, hfollows⟩
  refine ⟨⟨src, hops⟩, top, hok,
    ⟨⟨⟨rfl, htrail.last, fun _ => htrail.simple, fun heq => absurd heq hne⟩,
    htrail.follows⟩, ?_, hmeets, ?_, ?_, ?_⟩⟩
  · rw [List.range_eq_range']
    exact hspots
  · exact fun i hi => hapart i (by omega) hi
  · intro q hq hfollows
    obtain ⟨_, hq'⟩ := htrailOf hq hfollows
    have hlength := congrArg List.length hspots
    simp only [List.length_map, List.length_cons, List.length_append, List.length_range',
      List.length_reverse, List.length_range] at hlength
    have hnodes (p : Path) : p.nodes.length = p.hops.length + 1 := by
      unfold Path.nodes
      rw [List.length_cons, List.length_map]
    rw [hnodes, hnodes]
    show hops.length + 1 ≤ _
    -- Any other path has to climb to the same level and to come back.
    rcases Nat.eq_zero_or_pos top with rfl | hpos
    · omega
    · have hbound := hier.length_of_apart ht hdst hq' (i := top - 1) (by omega)
        (hapart (top - 1) (by omega) (by omega))
      omega
  · intro hforest q hq hfollows
    obtain ⟨heq, hq'⟩ := htrailOf hq hfollows
    rw [heq, hier.direct_unique ht hforest hdst (hier.direct_of_trail ht hforest hdst hq') hdirect]

end Search

end Network

end FlowFabric
