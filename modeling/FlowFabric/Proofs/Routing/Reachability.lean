import FlowFabric.Proofs.Network.LoopFreedom
import FlowFabric.Proofs.Topology.Links

namespace FlowFabric

namespace RoutingTable

variable {t : RoutingTable} {dst dst' : NodeId} {l : LinkId}

theorem addCandidate_self (ls : List LinkId) (l : LinkId) :
    addCandidate (addCandidate ls l) l = addCandidate ls l :=
  if_pos (mem_addCandidate.mpr (Or.inr rfl))

theorem addCandidate_of_not_mem {ls : List LinkId} (h : l ∉ ls) : addCandidate ls l = ls ++ [l] :=
  if_neg h

theorem links_addRoute :
    (t.addRoute dst l).links dst' =
      if dst' = dst then addCandidate (t.links dst') l else t.links dst' := by
  unfold links specific? addRoute
  split
  · rename_i h
    rw [h, Table.get?_insert_self, Option.getD_some]
    rfl
  · rename_i h
    rw [Table.get?_insert_of_ne _ h]

/-- A link over which many hosts are learned becomes a candidate for each of them, once. -/
theorem links_addRoutes_map (hosts : List NodeId) :
    (t.addRoutes (hosts.map fun dst => (dst, l))).links dst =
      if dst ∈ hosts then addCandidate (t.links dst) l else t.links dst := by
  induction hosts generalizing t with
  | nil => rfl
  | cons host rest ih =>
    have hs : t.addRoutes ((host :: rest).map fun dst => (dst, l)) =
        (t.addRoute host l).addRoutes (rest.map fun dst => (dst, l)) := rfl
    rw [hs, ih, links_addRoute]
    by_cases hd : dst = host
    · rw [if_pos hd, addCandidate_self, ite_self, if_pos (List.mem_cons.mpr (Or.inl hd))]
    · rw [if_neg hd]
      simp only [List.mem_cons, hd, false_or]

theorem links_addRoutes_of_not_mem {routes : List (NodeId × LinkId)}
    (h : ∀ l, (dst, l) ∉ routes) : (t.addRoutes routes).links dst = t.links dst := by
  induction routes generalizing t with
  | nil => rfl
  | cons r rest ih =>
    have hs : t.addRoutes (r :: rest) = (t.addRoute r.1 r.2).addRoutes rest := rfl
    have hr : dst ≠ r.1 := fun he => h r.2 (he ▸ List.mem_cons_self)
    have hrest : ∀ l, (dst, l) ∉ rest := fun l hl => h l (List.mem_cons_of_mem _ hl)
    rw [hs, ih hrest, links_addRoute, if_neg hr]

theorem specific?_of_knows (h : t.knows dst = true) : t.specific? dst = some (t.links dst) := by
  obtain ⟨ls, hls⟩ := Option.isSome_iff_exists.mp h
  have hs : t.specific? dst = some ls := hls
  unfold links
  rw [hs, Option.getD_some]

end RoutingTable

namespace Routes

open RoutingTable

variable {R : Type} {t : Topology R} {rs : Routes} {n m dst : NodeId} {l : LinkId} {k : Nat}

instance : Decidable (LeadsDown t rs n dst l) := inferInstanceAs (Decidable (_ ∧ _))

section Order

theorem links_learnFrom (tb : RoutingTable) (l : LinkId) : (learnFrom t rs n tb l).links dst =
    if LeadsDown t rs n dst l then addCandidate (tb.links dst) l else tb.links dst := by
  rcases learnFrom_cases t rs n tb l with ⟨hr, he⟩ | ⟨hr, he⟩ | ⟨hr, he⟩ <;> rw [he]
  · have hno : ¬ LeadsDown t rs n dst l := fun h => Nat.lt_asymm hr h.1
    rw [if_neg hno, links_addUplink]
  · have hiff : LeadsDown t rs n dst l ↔ dst ∈ (rs.table (t.neighbour n l)).known :=
      ⟨fun h => knows_iff_mem_known.mp h.2, fun h => ⟨hr, knows_iff_mem_known.mpr h⟩⟩
    rw [links_addRoutes_map, if_congr hiff rfl rfl]
  · have hno : ¬ LeadsDown t rs n dst l := fun h => Nat.ne_of_gt h.1 hr
    rw [if_neg hno]

theorem uplinks_learnFrom (tb : RoutingTable) (l : LinkId) : (learnFrom t rs n tb l).uplinks =
    if t.rankOf (t.neighbour n l) < t.rankOf n then addCandidate tb.uplinks l else tb.uplinks := by
  rcases learnFrom_cases t rs n tb l with ⟨hr, he⟩ | ⟨hr, he⟩ | ⟨hr, he⟩ <;> rw [he]
  · rw [if_pos hr]
    rfl
  · have hno : ¬ t.rankOf (t.neighbour n l) < t.rankOf n := by omega
    rw [if_neg hno, uplinks_addRoutes]
  · have hno : ¬ t.rankOf (t.neighbour n l) < t.rankOf n := by omega
    rw [if_neg hno]

/-- Links that are learned from one by one end up in the order in which the node lists them. -/
theorem foldl_learnFrom_eq (part : RoutingTable → List LinkId) {P : LinkId → Prop}
    [DecidablePred P]
    (hstep : ∀ tb l, part (learnFrom t rs n tb l) =
      if P l then addCandidate (part tb) l else part tb)
    {ls : List LinkId} (hd : ls.Nodup) (tb : RoutingTable) (hnew : ∀ l ∈ ls, l ∉ part tb) :
    part (ls.foldl (learnFrom t rs n) tb) = part tb ++ ls.filter P := by
  induction ls generalizing tb with
  | nil => simp
  | cons l rest ih =>
    obtain ⟨hl, hrest⟩ := List.nodup_cons.mp hd
    have hfresh : l ∉ part tb := hnew l List.mem_cons_self
    rw [List.foldl_cons, ih hrest, hstep]
    · by_cases hp : P l
      · rw [if_pos hp, addCandidate_of_not_mem hfresh, List.filter_cons_of_pos (by simpa using hp),
          List.append_assoc, List.singleton_append]
      · rw [if_neg hp, List.filter_cons_of_neg (by simpa using hp)]
    -- The rest lists neither an old candidate nor this link a second time.
    · intro l' hl' hin
      rw [hstep] at hin
      have hold : l' ∉ part tb := hnew l' (List.mem_cons_of_mem _ hl')
      split at hin
      · rcases mem_addCandidate.mp hin with hin | rfl
        · exact hold hin
        · exact hl hl'
      · exact hold hin

theorem links_fromBelow (hd : (t.linksOf n).Nodup) (hne : dst ≠ n) : (fromBelow t rs n).links dst =
    (t.linksOf n).filter fun l => LeadsDown t rs n dst l := by
  have hnone : (own t n).links dst = [] :=
    List.eq_nil_iff_forall_not_mem.mpr fun l hl => hne (mem_links_own.mp hl).1
  have h := foldl_learnFrom_eq (fun tb => tb.links dst) (P := LeadsDown t rs n dst)
    links_learnFrom hd (own t n) (fun l _ => by rw [hnone]; exact List.not_mem_nil)
  rw [hnone, List.nil_append] at h
  exact h

theorem uplinks_fromBelow (hd : (t.linksOf n).Nodup) : (fromBelow t rs n).uplinks =
    (t.linksOf n).filter fun l => t.rankOf (t.neighbour n l) < t.rankOf n := by
  have hnone : (own t n).uplinks = [] := by
    unfold own
    split <;> rfl
  have h : (fromBelow t rs n).uplinks = (own t n).uplinks ++ _ :=
    foldl_learnFrom_eq RoutingTable.uplinks uplinks_learnFrom hd (own t n)
      (fun l _ => by rw [hnone]; exact List.not_mem_nil)
  rw [hnone, List.nil_append] at h
  exact h

end Order

/-- A walk from the node to a host that descends,
and crosses only tiers where peers pass hosts on. -/
inductive Reaches (t : Topology R) (dst : NodeId) : NodeId → Prop where
  | arrived : Reaches t dst dst
  | down {n : NodeId} {l : LinkId} (hl : l ∈ t.linksOf n)
      (hr : t.rankOf n < t.rankOf (t.neighbour n l)) (h : Reaches t dst (t.neighbour n l)) :
        Reaches t dst n
  | across {n : NodeId} {l : LinkId} (hl : l ∈ t.linksOf n) (hp : propagates t n = true)
      (hr : t.rankOf (t.neighbour n l) = t.rankOf n) (h : Reaches t dst (t.neighbour n l)) :
        Reaches t dst n

/-- Some lower neighbour knows the host. -/
def FromBelow (t : Topology R) (rs : Routes) (n dst : NodeId) : Prop :=
  ∃ l ∈ t.linksOf n, LeadsDown t rs n dst l

/-- The link leads to a peer, and fewer links within the tier lead on from there to a node that
knows the host from below than lead from the node itself to any such node. -/
structure Nearer (t : Topology R) (rs : Routes) (n dst : NodeId) (l : LinkId) : Prop where
  link : l ∈ t.linksOf n
  peer : t.rankOf (t.neighbour n l) = t.rankOf n
  closer : ∃ k m, PeerWalk t k (t.neighbour n l) m ∧ FromBelow t rs m dst ∧
    ∀ k' m', PeerWalk t k' n m' → FromBelow t rs m' dst → k < k'

/-- What the table of a node holds about a host. -/
structure Content (t : Topology R) (rs : Routes) (n dst : NodeId) : Prop where
  known : (rs.table n).knows dst = true ↔ Reaches t dst n
  /-- The order is that of the links of the node, which lists none twice. -/
  down : FromBelow t rs n dst →
    (rs.table n).specific? dst = some ((t.linksOf n).filter fun l => LeadsDown t rs n dst l)
  across : (rs.table n).knows dst = true → ¬ FromBelow t rs n dst → n ≠ dst →
    ∃ ls, (rs.table n).specific? dst = some ls ∧ ls ≠ [] ∧ ∀ l ∈ ls, Nearer t rs n dst l
  up : (rs.table n).uplinks =
    (t.linksOf n).filter fun l => t.rankOf (t.neighbour n l) < t.rankOf n
  once : (t.linksOf n).Nodup
  incident : ∀ l ∈ (rs.table n).route dst,
    ∃ link, t.link? l = some link ∧ (link.high = n ∨ link.low = n)

section Knowledge

/-- Hosts do not pass anything on. -/
theorem isHost_of_propagates (h : propagates t n = true) : t.isHost n = false := by
  unfold propagates at h
  split at h
  · rename_i node hn
    have hnode : t.isHost n = node.kind.isHost := by
      unfold Topology.isHost
      rw [hn]
    rw [hnode]
    cases hk : node.kind with
    | host =>
      rw [hk] at h
      cases hf : t.kind <;> rw [hf] at h <;> cases h
    | switch tier => rfl
  · cases h

variable [Quantity R] (ht : t.Constructed) (hdst : t.isHost dst = true)

include ht hdst in
theorem knows_below_self : (below t dst).knows dst = true := by
  unfold Topology.isHost at hdst
  split at hdst
  · rename_i node hn
    have hloop : node.loopback.isSome = true := ht.simple.loopback hn hdst
    refine knows_fromBelow.mpr (Or.inl ⟨rfl, ?_⟩)
    rw [hn]
    exact hloop
  · cases hdst

omit [Quantity R] in
/-- Apart from itself a node knows from below what a lower neighbour knows. -/
theorem fromBelow_of_knows_below (hne : dst ≠ n) (h : (below t n).knows dst = true) :
    FromBelow t (ofTopology t) n dst := by
  rcases knows_fromBelow.mp h with ⟨he, _⟩ | h
  · exact absurd he hne
  · exact h

omit [Quantity R] in
theorem knows_below_of_fromBelow (h : FromBelow t (ofTopology t) n dst) :
    (below t n).knows dst = true := knows_fromBelow.mpr (Or.inr h)

omit [Quantity R] in
/-- Below every node the ranks grow, and there is none below the last rank. -/
theorem ne_of_fromBelow (hdst : t.isHost dst = true) (h : FromBelow t rs n dst) : dst ≠ n := by
  rintro rfl
  obtain ⟨l, _, hr, _⟩ := h
  have hle := t.rankOf_le (t.neighbour dst l)
  have hrank := Topology.rankOf_of_isHost hdst
  omega

include ht in
/-- A walk within a tier that passes hosts on extends what is reached. -/
theorem PeerWalk.reaches (hn : n < t.nodes.size) (hp : propagates t n = true)
    (hw : PeerWalk t k n m) (h : Reaches t dst m) : Reaches t dst n := by
  induction hw with
  | refl => exact h
  | step hl hr _ ih =>
    have hb := neighbour_lt ht.wellFormed hl
    exact .across hl hp hr (ih hb ((propagates_congr hn hb hr).trans hp) h)

include ht in
/-- What is known is reached. The induction is on the tiers, from the lowest one up. -/
theorem reaches_of_knows (hn : n < t.nodes.size)
    (h : ((ofTopology t).table n).knows dst = true) : Reaches t dst n := by
  induction hheight : 5 - t.rankOf n using Nat.strong_induction_on generalizing n with
  | _ height ih =>
    have hbelow : ∀ m, t.rankOf m = t.rankOf n → (below t m).knows dst = true →
        Reaches t dst m := by
      intro m hm hknows
      rcases knows_fromBelow.mp hknows with ⟨rfl, _⟩ | ⟨l, hl, hr, hk⟩
      · exact .arrived
      · have hle := t.rankOf_le (t.neighbour m l)
        have hlower : 5 - t.rankOf (t.neighbour m l) < height := by omega
        exact .down hl hr (ih _ hlower (neighbour_lt ht.wellFormed hl) hk rfl)
    rcases (knows_ofTopology ht.wellFormed hn).mp h with h | ⟨hp, k, m, hw, hm⟩
    · exact hbelow n rfl h
    · exact hw.reaches ht hn hp (hbelow m hw.rankOf_eq hm)

include ht hdst in
theorem knows_of_reaches (hn : n < t.nodes.size) (h : Reaches t dst n) :
    ((ofTopology t).table n).knows dst = true := by
  induction h with
  | arrived => exact (knows_ofTopology ht.wellFormed hn).mpr (Or.inl (knows_below_self ht hdst))
  | down hl hr _ ih =>
    have hb := neighbour_lt ht.wellFormed hl
    have hbelow := knows_below_of_fromBelow ⟨_, hl, hr, ih hb⟩
    exact (knows_ofTopology ht.wellFormed hn).mpr (Or.inl hbelow)
  | @across n l hl hp hr _ ih =>
    -- A peer knows what it knows from below itself or from a node that it can walk to.
    have hb := neighbour_lt ht.wellFormed hl
    have hnear : ∃ k, Near t (t.neighbour n l) dst k := by
      rcases (knows_ofTopology ht.wellFormed hb).mp (ih hb) with h | ⟨_, hnear⟩
      · exact ⟨0, _, .refl _, h⟩
      · exact hnear
    obtain ⟨k, hnear⟩ := hnear
    exact knows_of_across ht.wellFormed hn hl hp hr hnear

include ht hdst in
theorem knows_iff_reaches (hn : n < t.nodes.size) :
    ((ofTopology t).table n).knows dst = true ↔ Reaches t dst n :=
  ⟨reaches_of_knows ht hn, knows_of_reaches ht hdst hn⟩

end Knowledge

section Candidates

variable [Quantity R] (ht : t.Constructed) (hn : n < t.nodes.size)

include ht hn in
/-- Peers add nothing to the links towards a host that is known from below. -/
theorem links_of_fromBelow (hdst : t.isHost dst = true) (h : FromBelow t (ofTopology t) n dst) :
    ((ofTopology t).table n).links dst =
      (t.linksOf n).filter fun l => LeadsDown t (ofTopology t) n dst l := by
  have hbelow : (below t n).links dst = _ :=
    links_fromBelow (ht.nodup_linksOf n) (ne_of_fromBelow hdst h)
  by_cases hp : propagates t n = true
  · rw [table_of_propagates hn hp, links_addRoutes_of_not_mem, hbelow]
    intro l hl
    exact (of_mem_learned_tierBelow ht.wellFormed hn hl).1 (knows_below_of_fromBelow h)
  · rw [table_of_not_propagates hn hp, hbelow]

include ht in
/-- Among nodes that pass hosts on,
those that know a host from below have it from a lower neighbour. -/
theorem near_iff (hn : n < t.nodes.size) (hdst : t.isHost dst = true)
    (hp : propagates t n = true) :
    Near t n dst k ↔ ∃ m, PeerWalk t k n m ∧ FromBelow t (ofTopology t) m dst := by
  constructor
  · rintro ⟨m, hw, hm⟩
    have hpm : propagates t m = true :=
      (propagates_congr hn (hw.lt ht.wellFormed hn) hw.rankOf_eq).trans hp
    have hne : dst ≠ m := by
      rintro rfl
      rw [isHost_of_propagates hpm] at hdst
      cases hdst
    exact ⟨m, hw, fromBelow_of_knows_below hne hm⟩
  · rintro ⟨m, hw, hm⟩
    exact ⟨m, hw, knows_below_of_fromBelow hm⟩

include ht hn in
theorem nearer_of_mem_learned (hdst : t.isHost dst = true) (hp : propagates t n = true)
    (hl : (dst, l) ∈ learned (tierBelow t n) (below t n).known (wavesFrom t n)) :
    Nearer t (ofTopology t) n dst l := by
  obtain ⟨_, hlink, hr, k, hnear, hfar⟩ := of_mem_learned_tierBelow ht.wellFormed hn hl
  have hb := neighbour_lt ht.wellFormed hlink
  have hpb : propagates t (t.neighbour n l) = true := (propagates_congr hn hb hr).trans hp
  obtain ⟨m, hw, hm⟩ := (near_iff ht hb hdst hpb).mp hnear
  refine ⟨hlink, hr, k, m, hw, hm, ?_⟩
  intro k' m' hw' hm'
  exact hfar k' ((near_iff ht hn hdst hp).mpr ⟨m', hw', hm'⟩)

include ht hn in
/-- A host that no lower neighbour knows is learned from peers only. -/
theorem links_of_not_fromBelow (hdst : t.isHost dst = true) (hne : n ≠ dst)
    (hk : ((ofTopology t).table n).knows dst = true)
    (hnot : ¬ FromBelow t (ofTopology t) n dst) :
    ((ofTopology t).table n).links dst ≠ [] ∧
      ∀ l ∈ ((ofTopology t).table n).links dst, Nearer t (ofTopology t) n dst l := by
  have hunknown : ¬ (below t n).knows dst = true :=
    fun h => hnot (fromBelow_of_knows_below hne.symm h)
  obtain ⟨hp, k, hnear⟩ := ((knows_ofTopology ht.wellFormed hn).mp hk).resolve_left hunknown
  rw [table_of_propagates hn hp]
  constructor
  · obtain ⟨l, hl⟩ := exists_mem_learned_tierBelow ht.wellFormed hn hunknown hnear
    exact List.ne_nil_of_mem ((mem_links_addRoutes _).mpr (Or.inr hl))
  · intro l hl
    rcases (mem_links_addRoutes _).mp hl with hl | hl
    · rcases mem_links_fromBelow.mp hl with ⟨he, _⟩ | ⟨hmem, hdown⟩
      · exact absurd he hne.symm
      · exact absurd ⟨l, hmem, hdown⟩ hnot
    · exact nearer_of_mem_learned ht hn hdst hp hl

include ht hn in
theorem incident_of_mem_route (hl : l ∈ ((ofTopology t).table n).route dst) :
    ∃ link, t.link? l = some link ∧ (link.high = n ∨ link.low = n) := by
  obtain ⟨node, hnode⟩ := Topology.node?_of_lt hn
  have hlisted (hmem : l ∈ t.linksOf n) :
      ∃ link, t.link? l = some link ∧ (link.high = n ∨ link.low = n) := by
    obtain ⟨link, hlink, _, hend⟩ := ht.wellFormed.listed hmem
    exact ⟨link, hlink, hend.imp Eq.symm Eq.symm⟩
  -- What comes from below is a link of the node, or the loop-back of a host.
  have hbelow (hmem : l ∈ (below t n).links dst) :
      ∃ link, t.link? l = some link ∧ (link.high = n ∨ link.low = n) := by
    rcases mem_links_fromBelow.mp hmem with ⟨_, hloop⟩ | ⟨hmem, _⟩
    · rw [hnode, Option.bind_some] at hloop
      obtain ⟨_, link, hlink, hhigh, _⟩ := ht.wellFormed.loopback hnode hloop
      exact ⟨link, hlink, Or.inl hhigh⟩
    · exact hlisted hmem
  by_cases hk : ((ofTopology t).table n).knows dst = true
  · rw [route_of_knows hk] at hl
    by_cases hp : propagates t n = true
    · rw [table_of_propagates hn hp, mem_links_addRoutes] at hl
      rcases hl with hl | hl
      · exact hbelow hl
      · exact hlisted (of_mem_learned_tierBelow ht.wellFormed hn hl).2.1
    · rw [table_of_not_propagates hn hp] at hl
      exact hbelow hl
  · rw [route_of_not_knows hk, uplinks_ofTopology hn] at hl
    exact hlisted (mem_uplinks_fromBelow.mp hl).1

end Candidates

end Routes

namespace Topology

/-- A host, an edge switch and two aggregation switches, not linked yet. -/
def spurNodes : Topology Exact :=
  ((((empty .fatTree).pushNode "host" .host 1000).pushNode "edge" (.switch .edge) 1000).pushNode
    "near" (.switch .aggregate) 1000).pushNode "far" (.switch .aggregate) 1000

/-- Only one of the two aggregation switches is linked to the edge, and the other one to it. -/
def spur : Topology Exact :=
  ((spurNodes.pushLink 1 0 0 1000 1000).pushLink 2 1 0 1000 1000).pushLink 3 2 0 1000 1000

theorem spur_constructed : spur.Constructed := by
  have hb : Admitted (1000 : Exact) := ⟨by decide, rfl⟩
  have hempty : (empty .fatTree : Topology Exact).Constructed := ⟨.fatTree, .refl⟩
  have hnodes : spurNodes.Constructed := by
    refine (((hempty.pushNode hb ?_ _).pushNode hb ?_ _).pushNode hb ?_ _).pushNode hb ?_ _ <;>
      simp [findNode?, pushNode, NodeKind.isHost, empty]
  have hhost := hnodes.pushLink (a := 1) (b := 0) ⟨by decide, by decide, by decide, hb, hb, rfl⟩ 0
  have hnear := hhost.pushLink (a := 2) (b := 1) ⟨by decide, by decide, by decide, hb, hb, rfl⟩ 0
  exact hnear.pushLink ⟨by decide, by decide, by decide, hb, hb, rfl⟩ 0

end Topology

namespace Network

variable {R : Type} [Quantity R]

/-- The tables of a node are told by the graph and by the tables of its neighbours. -/
theorem tables_tell_reach (net : Network R) (ht : net.topology.Constructed) {n dst : NodeId}
    (hn : n < net.topology.nodes.size) (hdst : net.topology.isHost dst = true) :
    Routes.Content net.topology net.buildRoutes.routes n dst := by
  rw [routes_buildRoutes]
  have hknows := Routes.knows_iff_reaches ht hdst hn
  have honce := ht.nodup_linksOf n
  refine ⟨hknows, ?_, ?_, ?_, honce, fun l hl => Routes.incident_of_mem_route ht hn hl⟩
  · intro hbelow
    have hknown : ((Routes.ofTopology net.topology).table n).knows dst = true :=
      (Routes.knows_ofTopology ht.wellFormed hn).mpr
        (Or.inl (Routes.knows_below_of_fromBelow hbelow))
    rw [RoutingTable.specific?_of_knows hknown, Routes.links_of_fromBelow ht hn hdst hbelow]
  · intro hknown hnot hne
    exact ⟨_, RoutingTable.specific?_of_knows hknown,
      Routes.links_of_not_fromBelow ht hn hdst hne hknown hnot⟩
  · rw [Routes.uplinks_ofTopology hn]
    exact Routes.uplinks_fromBelow honce

theorem spur_tables_tell_reach :
    let net : Network Exact := { Network.empty .fatTree with topology := Topology.spur }
    net.topology.Constructed ∧ 3 < net.topology.nodes.size ∧ net.topology.isHost 0 = true ∧
      Routes.Content net.topology net.buildRoutes.routes 3 0 := by
  intro net
  have ht : net.topology.Constructed := Topology.spur_constructed
  have hn : 3 < net.topology.nodes.size := by decide
  have hdst : net.topology.isHost 0 = true := by decide
  exact ⟨ht, hn, hdst, tables_tell_reach net ht hn hdst⟩

-- The far switch has no way down, so it goes over its peer.
example : ((Routes.ofTopology Topology.spur).table 3).specific? 0 = some [3] := by decide

end Network

end FlowFabric
