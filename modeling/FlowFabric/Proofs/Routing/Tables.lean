import FlowFabric.Proofs.Routing.Peers

/-! A tier reads only the tables of the tiers below and of its own, so that building it once more
changes nothing: the finished tables are what one tier makes of them. -/

namespace FlowFabric

namespace RoutingTable

/-- The links towards a host that the table has been taught. -/
def links (t : RoutingTable) (dst : NodeId) : List LinkId := (t.specific? dst).getD []

variable {t : RoutingTable} {dst dst' : NodeId} {l l' : LinkId}

theorem mem_addCandidate {ls : List LinkId} : l' ∈ addCandidate ls l ↔ l' ∈ ls ∨ l' = l := by
  unfold addCandidate
  split
  · rename_i h
    constructor
    · exact Or.inl
    · rintro (h' | rfl)
      · exact h'
      · exact h
  · simp

theorem mem_links_addRoute :
    l' ∈ (t.addRoute dst l).links dst' ↔ l' ∈ t.links dst' ∨ (dst' = dst ∧ l' = l) := by
  unfold links specific? addRoute
  by_cases h : dst' = dst
  · subst h
    rw [Table.get?_insert_self, Option.getD_some, mem_addCandidate]
    simp [specific?]
  · rw [Table.get?_insert_of_ne _ h]
    simp [h]

theorem mem_links_addRoutes (routes : List (NodeId × LinkId)) :
    l ∈ (t.addRoutes routes).links dst ↔ l ∈ t.links dst ∨ (dst, l) ∈ routes := by
  induction routes generalizing t with
  | nil => simp [addRoutes]
  | cons r rest ih =>
    have hs : t.addRoutes (r :: rest) = (t.addRoute r.1 r.2).addRoutes rest := rfl
    rw [hs, ih, mem_links_addRoute, List.mem_cons, Prod.ext_iff, or_assoc]

theorem knows_addRoute :
    (t.addRoute dst l).knows dst' = true ↔ t.knows dst' = true ∨ dst' = dst := by
  unfold knows addRoute
  rw [Table.contains_iff_mem_keys, Table.contains_iff_mem_keys, Table.mem_keys_insert, or_comm]

theorem knows_addRoutes (routes : List (NodeId × LinkId)) :
    (t.addRoutes routes).knows dst = true ↔ t.knows dst = true ∨ ∃ l, (dst, l) ∈ routes := by
  induction routes generalizing t with
  | nil => simp [addRoutes]
  | cons r rest ih =>
    have hs : t.addRoutes (r :: rest) = (t.addRoute r.1 r.2).addRoutes rest := rfl
    rw [hs, ih, knows_addRoute, or_assoc]
    simp only [List.mem_cons, exists_or, Prod.ext_iff, exists_and_left, exists_eq, and_true]

theorem uplinks_addRoutes (routes : List (NodeId × LinkId)) :
    (t.addRoutes routes).uplinks = t.uplinks := by
  induction routes generalizing t with
  | nil => rfl
  | cons r rest ih => exact ih

theorem knows_iff_mem_known : t.knows dst = true ↔ dst ∈ t.known := Table.contains_iff_mem_keys

theorem knows_addUplink : (t.addUplink l).knows dst = t.knows dst := rfl

theorem links_addUplink : (t.addUplink l).links dst = t.links dst := rfl

theorem route_of_knows (h : t.knows dst = true) : t.route dst = t.links dst := by
  obtain ⟨ls, hls⟩ := Option.isSome_iff_exists.mp h
  have hs : t.specific? dst = some ls := hls
  unfold route links
  rw [hs, Option.getD_some, Option.getD_some]

theorem route_of_not_knows (h : ¬ t.knows dst = true) : t.route dst = t.uplinks := by
  have hs : t.specific? dst = none := Option.not_isSome_iff_eq_none.mp h
  unfold route
  rw [hs, Option.getD_none]

end RoutingTable

namespace Routes

open RoutingTable

variable {R : Type} {t : Topology R} {rs rs' : Routes}

section FromBelow

/-- A link that leads from a node down to one that knows a host. -/
def LeadsDown (t : Topology R) (rs : Routes) (n dst : NodeId) (l : LinkId) : Prop :=
  t.rankOf n < t.rankOf (t.neighbour n l) ∧ (rs.table (t.neighbour n l)).knows dst = true

theorem learnFrom_cases (t : Topology R) (rs : Routes) (n : NodeId) (tb : RoutingTable)
    (l : LinkId) :
    (t.rankOf (t.neighbour n l) < t.rankOf n ∧ learnFrom t rs n tb l = tb.addUplink l) ∨
    (t.rankOf n < t.rankOf (t.neighbour n l) ∧
      learnFrom t rs n tb l =
        tb.addRoutes (((rs.table (t.neighbour n l)).known).map fun dst => (dst, l))) ∨
    (t.rankOf (t.neighbour n l) = t.rankOf n ∧ learnFrom t rs n tb l = tb) := by
  unfold learnFrom
  dsimp only
  split
  · exact Or.inl ⟨‹_›, rfl⟩
  · split
    · exact Or.inr (Or.inl ⟨‹_›, rfl⟩)
    · exact Or.inr (Or.inr ⟨by omega, rfl⟩)

theorem mem_links_learnFrom {n dst : NodeId} {tb : RoutingTable} {l l' : LinkId} :
    l' ∈ (learnFrom t rs n tb l).links dst ↔
      l' ∈ tb.links dst ∨ (l' = l ∧ LeadsDown t rs n dst l) := by
  unfold LeadsDown
  rcases learnFrom_cases t rs n tb l with ⟨hr, he⟩ | ⟨hr, he⟩ | ⟨hr, he⟩ <;> rw [he]
  -- A link up teaches the way up and no host, a link down the hosts below it, and a link within
  -- the tier nothing.
  · have hno : ¬ t.rankOf n < t.rankOf (t.neighbour n l) := by omega
    simp [links_addUplink, hno]
  · rw [mem_links_addRoutes, knows_iff_mem_known, List.mem_map]
    refine or_congr Iff.rfl ?_
    constructor
    · rintro ⟨d, hd, he⟩
      cases he
      exact ⟨rfl, hr, hd⟩
    · rintro ⟨rfl, _, hd⟩
      exact ⟨dst, hd, rfl⟩
  · have hno : ¬ t.rankOf n < t.rankOf (t.neighbour n l) := by omega
    simp [hno]

theorem knows_learnFrom {n dst : NodeId} {tb : RoutingTable} {l : LinkId} :
    (learnFrom t rs n tb l).knows dst = true ↔ tb.knows dst = true ∨ LeadsDown t rs n dst l := by
  unfold LeadsDown
  rcases learnFrom_cases t rs n tb l with ⟨hr, he⟩ | ⟨hr, he⟩ | ⟨hr, he⟩ <;> rw [he]
  · have hno : ¬ t.rankOf n < t.rankOf (t.neighbour n l) := by omega
    rw [knows_addUplink]
    simp [hno]
  · rw [knows_addRoutes]
    refine or_congr Iff.rfl ?_
    constructor
    · rintro ⟨l', hl'⟩
      obtain ⟨d, hd, he⟩ := List.mem_map.mp hl'
      cases he
      exact ⟨hr, knows_iff_mem_known.mpr hd⟩
    · rintro ⟨_, hd⟩
      exact ⟨l, List.mem_map.mpr ⟨dst, knows_iff_mem_known.mp hd, rfl⟩⟩
  · have hno : ¬ t.rankOf n < t.rankOf (t.neighbour n l) := by omega
    simp [hno]

theorem mem_uplinks_learnFrom {n : NodeId} {tb : RoutingTable} {l l' : LinkId} :
    l' ∈ (learnFrom t rs n tb l).uplinks
      ↔ l' ∈ tb.uplinks ∨ (l' = l ∧ t.rankOf (t.neighbour n l) < t.rankOf n) := by
  rcases learnFrom_cases t rs n tb l with ⟨hr, he⟩ | ⟨hr, he⟩ | ⟨hr, he⟩ <;> rw [he]
  · show l' ∈ addCandidate tb.uplinks l ↔ _
    rw [mem_addCandidate]
    simp [hr]
  · have hno : ¬ t.rankOf (t.neighbour n l) < t.rankOf n := by omega
    rw [uplinks_addRoutes]
    simp [hno]
  · have hno : ¬ t.rankOf (t.neighbour n l) < t.rankOf n := by omega
    simp [hno]

/-- The table that a node starts with: a host knows itself. -/
def own (t : Topology R) (n : NodeId) : RoutingTable :=
  match (t.node? n).bind Node.loopback with
  | some l => RoutingTable.empty.addRoute n l
  | none => RoutingTable.empty

/-- A property of tables that grows link by link is,
after all links of a node, that of one of them or of the start. -/
theorem foldl_learnFrom_iff (rs : Routes) {P : RoutingTable → Prop} {Q : LinkId → Prop} {n : NodeId}
    (hstep : ∀ tb l, P (learnFrom t rs n tb l) ↔ P tb ∨ Q l) (ls : List LinkId)
    (tb : RoutingTable) : P (ls.foldl (learnFrom t rs n) tb) ↔ P tb ∨ ∃ l ∈ ls, Q l := by
  induction ls generalizing tb with
  | nil => simp
  | cons l rest ih =>
    rw [List.foldl_cons, ih, hstep, or_assoc]
    simp only [List.mem_cons, exists_eq_or_imp]

theorem knows_own {n dst : NodeId} :
    (own t n).knows dst = true ↔ dst = n ∧ ((t.node? n).bind Node.loopback).isSome = true := by
  unfold own
  cases (t.node? n).bind Node.loopback with
  | none => simp [RoutingTable.knows, RoutingTable.empty, Table.contains]
  | some l =>
    rw [knows_addRoute]
    simp [RoutingTable.knows, RoutingTable.empty, Table.contains]

theorem mem_links_own {n dst : NodeId} {l : LinkId} :
    l ∈ (own t n).links dst ↔ dst = n ∧ (t.node? n).bind Node.loopback = some l := by
  unfold own
  cases (t.node? n).bind Node.loopback with
  | none => simp [RoutingTable.links, RoutingTable.empty, specific?]
  | some l' =>
    rw [mem_links_addRoute]
    simp [RoutingTable.links, RoutingTable.empty, specific?, eq_comm]

/-- A node knows from below itself, if it is a host, and what is known below it. -/
theorem knows_fromBelow {n dst : NodeId} :
    (fromBelow t rs n).knows dst = true ↔
      (dst = n ∧ ((t.node? n).bind Node.loopback).isSome = true) ∨
        ∃ l ∈ t.linksOf n, LeadsDown t rs n dst l := by
  have h := foldl_learnFrom_iff (t := t) rs (P := fun tb => tb.knows dst = true)
    (fun _ _ => knows_learnFrom (n := n)) (t.linksOf n) (own t n)
  rw [knows_own] at h
  exact h

theorem mem_links_fromBelow {n dst : NodeId} {l : LinkId} :
    l ∈ (fromBelow t rs n).links dst ↔
      (dst = n ∧ (t.node? n).bind Node.loopback = some l) ∨
        (l ∈ t.linksOf n ∧ LeadsDown t rs n dst l) := by
  have h := foldl_learnFrom_iff (t := t) rs (P := fun tb => l ∈ tb.links dst)
    (fun _ _ => mem_links_learnFrom (n := n)) (t.linksOf n) (own t n)
  rw [mem_links_own] at h
  refine h.trans (or_congr Iff.rfl ?_)
  constructor
  · rintro ⟨l', hl', rfl, hd⟩
    exact ⟨hl', hd⟩
  · rintro ⟨hl, hd⟩
    exact ⟨l, hl, rfl, hd⟩

theorem mem_uplinks_fromBelow {n : NodeId} {l : LinkId} :
    l ∈ (fromBelow t rs n).uplinks ↔ l ∈ t.linksOf n ∧ t.rankOf (t.neighbour n l) < t.rankOf n := by
  have h := foldl_learnFrom_iff (t := t) rs (P := fun tb => l ∈ tb.uplinks)
    (fun _ _ => mem_uplinks_learnFrom (n := n)) (t.linksOf n) (own t n)
  have hown : (own t n).uplinks = [] := by
    unfold own
    split <;> rfl
  rw [hown] at h
  refine h.trans ?_
  constructor
  · rintro (hnil | ⟨l', hl', rfl, hd⟩)
    · cases hnil
    · exact ⟨hl', hd⟩
  · rintro ⟨hl, hd⟩
    exact Or.inr ⟨l, hl, rfl, hd⟩

theorem learnFrom_congr {n : NodeId} (h : ∀ m, t.rankOf n < t.rankOf m → rs.table m = rs'.table m)
    (tb : RoutingTable) (l : LinkId) : learnFrom t rs n tb l = learnFrom t rs' n tb l := by
  unfold learnFrom
  dsimp only
  split
  · rfl
  · split
    · rw [h _ ‹_›]
    · rfl

theorem fromBelow_congr {n : NodeId} (h : ∀ m, t.rankOf n < t.rankOf m → rs.table m = rs'.table m) :
    fromBelow t rs n = fromBelow t rs' n := by
  have hf : learnFrom t rs n = learnFrom t rs' n := by
    funext tb l
    exact learnFrom_congr h tb l
  unfold fromBelow
  rw [hf]

end FromBelow

section FromPeers

variable {settled : List NodeId} {ws : List (List (NodeId × LinkId))} {dst : NodeId} {l : LinkId}

/-- The routes that a wave teaches about hosts that are not settled. -/
def taught (rs : Routes) (settled : List NodeId) (wave : List (NodeId × LinkId)) :
    List (NodeId × LinkId) :=
  wave.flatMap fun p =>
    (((rs.table p.1).known).filter fun dst => decide (dst ∉ settled)).map fun dst => (dst, p.2)

theorem learned_cons (wave : List (NodeId × LinkId)) :
    learned rs settled (wave :: ws) = taught rs settled wave ++
      learned rs (settled ++ (taught rs settled wave).map Prod.fst) ws := rfl

theorem mem_taught {wave : List (NodeId × LinkId)} :
    (dst, l) ∈ taught rs settled wave ↔
      dst ∉ settled ∧ ∃ p ∈ wave, p.2 = l ∧ (rs.table p.1).knows dst = true := by
  unfold taught
  rw [List.mem_flatMap]
  constructor
  · rintro ⟨p, hp, hm⟩
    obtain ⟨d, hd, he⟩ := List.mem_map.mp hm
    cases he
    obtain ⟨hk, hs⟩ := List.mem_filter.mp hd
    exact ⟨of_decide_eq_true hs, p, hp, rfl, knows_iff_mem_known.mpr hk⟩
  · rintro ⟨hs, p, hp, rfl, hk⟩
    refine ⟨p, hp, List.mem_map.mpr ⟨dst, List.mem_filter.mpr ⟨?_, ?_⟩, rfl⟩⟩
    · exact knows_iff_mem_known.mp hk
    · exact decide_eq_true hs

/-- A host is learned from the first wave that knows it. -/
theorem of_mem_learned (h : (dst, l) ∈ learned rs settled ws) :
    dst ∉ settled ∧ ∃ (i : Nat) (w : List (NodeId × LinkId)),
      ws[i]? = some w ∧ (∃ p ∈ w, p.2 = l ∧ (rs.table p.1).knows dst = true) ∧
        ∀ (j : Nat) (w' : List (NodeId × LinkId)), j < i → ws[j]? = some w' →
          ∀ q ∈ w', ¬ (rs.table q.1).knows dst = true := by
  induction ws generalizing settled with
  | nil => cases h
  | cons wave rest ih =>
    rw [learned_cons] at h
    rcases List.mem_append.mp h with h | h
    · obtain ⟨hs, hp⟩ := mem_taught.mp h
      exact ⟨hs, 0, wave, rfl, hp, fun j _ hj => absurd hj (Nat.not_lt_zero j)⟩
    · obtain ⟨hs, i, w, hw, hp, hfirst⟩ := ih h
      rw [List.mem_append, not_or] at hs
      refine ⟨hs.1, i + 1, w, hw, hp, ?_⟩
      -- Had the first wave known the host, the host would be settled for the later ones.
      intro j w' hj hw' q hq hk
      cases j with
      | zero =>
        cases hw'
        have hm : (dst, q.2) ∈ taught rs settled wave := mem_taught.mpr ⟨hs.1, q, hq, rfl, hk⟩
        exact hs.2 (List.mem_map.mpr ⟨_, hm, rfl⟩)
      | succ j => exact hfirst j w' (Nat.lt_of_succ_lt_succ hj) hw' q hq hk

theorem exists_mem_learned (hs : dst ∉ settled) {i : Nat} {w : List (NodeId × LinkId)}
    (hw : ws[i]? = some w) {p : NodeId × LinkId} (hp : p ∈ w)
    (hk : (rs.table p.1).knows dst = true) : ∃ l, (dst, l) ∈ learned rs settled ws := by
  induction ws generalizing settled i with
  | nil => cases hw
  | cons wave rest ih =>
    rw [learned_cons]
    cases i with
    | zero =>
      cases hw
      exact ⟨p.2, List.mem_append_left _ (mem_taught.mpr ⟨hs, p, hp, rfl, hk⟩)⟩
    | succ i =>
      -- Either this wave teaches the host already, or it leaves it to the later ones.
      by_cases hnow : dst ∈ (taught rs settled wave).map Prod.fst
      · obtain ⟨r, hr, rfl⟩ := List.mem_map.mp hnow
        exact ⟨r.2, List.mem_append_left _ hr⟩
      · have hs' : dst ∉ settled ++ (taught rs settled wave).map Prod.fst := by
          rw [List.mem_append, not_or]
          exact ⟨hs, hnow⟩
        obtain ⟨l, hl⟩ := ih hs' hw
        exact ⟨l, List.mem_append_right _ hl⟩

theorem learned_congr (h : ∀ w ∈ ws, ∀ p ∈ w, rs.table p.1 = rs'.table p.1) :
    learned rs settled ws = learned rs' settled ws := by
  induction ws generalizing settled with
  | nil => rfl
  | cons wave rest ih =>
    have hwave : taught rs settled wave = taught rs' settled wave := by
      unfold taught
      apply List.flatMap_congr
      intro p hp
      rw [h wave List.mem_cons_self p hp]
    rw [learned_cons, learned_cons, hwave, ih fun w hw => h w (List.mem_cons_of_mem _ hw)]

theorem fromPeers_congr {n : NodeId} (h : ∀ m, t.rankOf m = t.rankOf n → rs.table m = rs'.table m) :
    fromPeers t rs n = fromPeers t rs' n := by
  unfold fromPeers
  rw [h n rfl, learned_congr]
  -- All nodes of the waves belong to the tier.
  intro w hw p hp
  obtain ⟨i, hi⟩ := List.mem_iff_getElem?.mp hw
  have hlead := leads_of_wavesFrom hi p hp
  exact h p.1 (hlead.walk.rankOf_eq.trans hlead.rank)

end FromPeers

section Tiers

variable {n : NodeId} {rank : Nat}

theorem table_of_size_le (h : rs.size ≤ n) : rs.table n = RoutingTable.empty := by
  unfold table
  rw [Array.getD_eq_getD_getElem?, Array.getElem?_eq_none h, Option.getD_none]

theorem table_mapIdx (rs : Routes) (f : Nat → RoutingTable → RoutingTable) (n : NodeId) :
    table (rs.mapIdx f) n = if n < rs.size then f n (rs.table n) else RoutingTable.empty := by
  unfold table
  rw [Array.getD_eq_getD_getElem?, Array.getD_eq_getD_getElem?, Array.getElem?_mapIdx]
  split
  · rename_i h
    rw [Array.getElem?_eq_getElem h]
    rfl
  · rename_i h
    rw [Array.getElem?_eq_none (Nat.le_of_not_lt h)]
    rfl

theorem table_descend : (descend t rank rs).table n
    = if n < rs.size ∧ t.rankOf n = rank then fromBelow t rs n else rs.table n := by
  unfold descend
  rw [table_mapIdx]
  by_cases h : n < rs.size
  · simp [h]
  · simp [h, table_of_size_le (Nat.le_of_not_lt h)]

theorem table_exchange : (exchange t rank rs).table n =
    if n < rs.size ∧ t.rankOf n = rank ∧ propagates t n = true then fromPeers t rs n
    else rs.table n := by
  unfold exchange
  rw [table_mapIdx]
  by_cases h : n < rs.size
  · simp [h]
  · simp [h, table_of_size_le (Nat.le_of_not_lt h)]

theorem size_descend : (descend t rank rs).size = rs.size := Array.size_mapIdx

theorem size_tier : (tier t rank rs).size = rs.size := by
  unfold tier exchange
  rw [Array.size_mapIdx, size_descend]

theorem table_tier_of_ne (h : t.rankOf n ≠ rank) : (tier t rank rs).table n = rs.table n := by
  unfold tier
  rw [table_exchange, if_neg fun hc => h hc.2.1, table_descend, if_neg fun hc => h hc.2]

/-- What a tier makes of its tables depends on the tables of the tiers below. -/
theorem table_tier_congr (hsize : rs.size = rs'.size)
    (h : ∀ m, t.rankOf n < t.rankOf m → rs.table m = rs'.table m) :
    (tier t (t.rankOf n) rs).table n = (tier t (t.rankOf n) rs').table n := by
  -- First all nodes of the tier get the same from below; then they learn the same from each other.
  have hdown (m : NodeId) (hm : t.rankOf m = t.rankOf n) :
      (descend t (t.rankOf n) rs).table m = (descend t (t.rankOf n) rs').table m := by
    rw [table_descend, table_descend, ← hsize]
    by_cases hlt : m < rs.size
    · have hb : fromBelow t rs m = fromBelow t rs' m := fromBelow_congr fun k hk => h k (hm ▸ hk)
      rw [if_pos ⟨hlt, hm⟩, if_pos ⟨hlt, hm⟩, hb]
    · have hle : rs.size ≤ m := Nat.le_of_not_lt hlt
      rw [if_neg fun hc => hlt hc.1, if_neg fun hc => hlt hc.1, table_of_size_le hle,
        table_of_size_le (hsize ▸ hle)]
  unfold tier
  rw [table_exchange, table_exchange, size_descend, size_descend, hsize, hdown n rfl,
    fromPeers_congr hdown]

theorem size_foldl_tier (ranks : List Nat) (rs : Routes) :
    (ranks.foldl (fun rs rank => tier t rank rs) rs).size = rs.size := by
  induction ranks generalizing rs with
  | nil => rfl
  | cons r rest ih =>
    rw [List.foldl_cons, ih, size_tier]

theorem table_foldl_tier_of_not_mem {ranks : List Nat} (h : t.rankOf n ∉ ranks) (rs : Routes) :
    (ranks.foldl (fun rs rank => tier t rank rs) rs).table n = rs.table n := by
  induction ranks generalizing rs with
  | nil => rfl
  | cons r rest ih =>
    rw [List.mem_cons, not_or] at h
    rw [List.foldl_cons, ih h.2, table_tier_of_ne h.1]

/-- Once tiers have been built from the bottom to the top,
building one of them again changes nothing. -/
theorem table_foldl_tier {ranks : List Nat} (hs : ranks.Pairwise (· > ·)) (h : t.rankOf n ∈ ranks)
    (rs : Routes) :
    (ranks.foldl (fun rs rank => tier t rank rs) rs).table n =
    (tier t (t.rankOf n) (ranks.foldl (fun rs rank => tier t rank rs) rs)).table n := by
  induction ranks generalizing rs with
  | nil => cases h
  | cons r rest ih =>
    obtain ⟨hr, hrest⟩ := List.pairwise_cons.mp hs
    rw [List.foldl_cons]
    -- The tier is built later, or it is built now and then only tiers above it follow.
    by_cases hin : t.rankOf n ∈ rest
    · exact ih hrest hin (tier t r rs)
    · have he : t.rankOf n = r := (List.mem_cons.mp h).resolve_right hin
      rw [table_foldl_tier_of_not_mem hin, ← he]
      refine table_tier_congr ?_ ?_
      · rw [size_foldl_tier, size_tier]
      · intro m hm
        have hout : t.rankOf m ∉ rest := by
          intro hmem
          have hlt := hr _ hmem
          omega
        rw [table_foldl_tier_of_not_mem hout, table_tier_of_ne (Nat.ne_of_gt hm)]

end Tiers

section Finished

variable {n : NodeId}

theorem rank_mem_ranks (kind : NodeKind) : kind.rank ∈ ranks := by
  cases kind with
  | host => decide
  | switch tier => cases tier <;> decide

theorem rankOf_mem_ranks (t : Topology R) (n : NodeId) : t.rankOf n ∈ ranks := by
  unfold Topology.rankOf
  split
  · exact rank_mem_ranks _
  · decide

theorem size_ofTopology (t : Topology R) : (ofTopology t).size = t.nodes.size := by
  unfold ofTopology
  rw [size_foldl_tier, Array.size_replicate]

theorem ofTopology_empty (kind : FabricKind) :
    ofTopology (Topology.empty kind : Topology R) = #[] := by
  apply Array.eq_empty_of_size_eq_zero
  rw [size_ofTopology]
  rfl

/-- What a node knows from the tiers below it. -/
def below (t : Topology R) (n : NodeId) : RoutingTable := fromBelow t (ofTopology t) n

theorem table_descend_ofTopology {m : NodeId} (hm : m < t.nodes.size)
    (hr : t.rankOf m = t.rankOf n) :
    (descend t (t.rankOf n) (ofTopology t)).table m = below t m := by
  rw [table_descend, if_pos ⟨by rw [size_ofTopology]; exact hm, hr⟩]
  rfl

/-- The table of a node is what it knows from below,
with what its peers know from below where they pass it on. -/
theorem table_ofTopology (hn : n < t.nodes.size) :
    (ofTopology t).table n =
      if propagates t n = true then fromPeers t (descend t (t.rankOf n) (ofTopology t)) n
      else below t n := by
  -- The finished tables are a fixed point of every tier, which says what a tier made of them.
  have hfixed : (ofTopology t).table n = (tier t (t.rankOf n) (ofTopology t)).table n :=
    table_foldl_tier (by decide) (rankOf_mem_ranks t n) _
  have hsize : n < (descend t (t.rankOf n) (ofTopology t)).size := by
    rw [size_descend, size_ofTopology]
    exact hn
  rw [hfixed]
  unfold tier
  rw [table_exchange, table_descend_ofTopology hn rfl]
  by_cases hp : propagates t n = true
  · rw [if_pos ⟨hsize, rfl, hp⟩, if_pos hp]
  · rw [if_neg fun hc => hp hc.2.2, if_neg hp]

end Finished

end Routes

end FlowFabric
