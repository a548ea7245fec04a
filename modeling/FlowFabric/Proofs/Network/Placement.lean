import FlowFabric.Proofs.Network.Recovery
import FlowFabric.Proofs.Network.Removal
import FlowFabric.Proofs.Routing.Reachability

namespace FlowFabric

namespace Topology

variable {R : Type} {t t' : Topology R} {n : NodeId}

theorem Extends.isHost (h : t.Extends t') (hn : n < t.nodes.size) : t'.isHost n = t.isHost n := by
  obtain ⟨node, hnode⟩ := node?_of_lt hn
  obtain ⟨more, hmore⟩ := h.node hnode
  unfold Topology.isHost
  rw [hmore, hnode]

theorem isHost_of_checkHost (h : t.checkHost n = .ok ()) : t.isHost n = true := by
  unfold checkHost at h
  unfold Topology.isHost
  split at h
  · cases h
  · rename_i node hnode
    rw [hnode]
    by_contra hno
    rw [if_neg hno] at h
    cases h

end Topology

namespace Path

variable {R : Type} {t : Topology R} {src dst : NodeId} {p : Path} {hop : Hop}

/-- All hosts that a path meets are its ends. -/
def Between (t : Topology R) (src dst : NodeId) (p : Path) : Prop :=
  ∀ n ∈ p.nodes, t.isHost n = true → n = src ∨ n = dst

theorem between_start (t : Topology R) (src dst : NodeId) : (⟨src, []⟩ : Path).Between t src dst :=
  fun _ hn _ => Or.inl (List.mem_singleton.mp hn)

theorem Between.push (h : p.Between t src dst)
    (hhop : t.isHost hop.target = true → hop.target = dst) : (p.push hop).Between t src dst :=
  forall_nodes_push h fun hhost => Or.inr (hhop hhost)

end Path

namespace Network

variable {R : Type} {net net' : Network R} {key : FlowKey} {src dst a : NodeId} {p q : Path}
  {select : Selection R}

/-- No host has an entry of the flow but this one. -/
def EntersAt (net : Network R) (key : FlowKey) (a : NodeId) : Prop :=
  ∀ n m, net.topology.isHost n = true → net.next? n key = some m → n = a

theorem EntersAt.of_lacks (h : net.Lacks key) (a : NodeId) : net.EntersAt key a := by
  intro n m _ hm
  cases (h n).symm.trans hm

theorem EntersAt.dropAll (h : net.EntersAt key a) (ns : List NodeId) :
    (net.dropAll key ns).EntersAt key a := by
  intro n m hhost hm
  rw [(Touches.dropAll net key ns).topology] at hhost
  rw [next?_dropAll] at hm
  split at hm
  · cases hm
  · exact h n m hhost hm

theorem EntersAt.removeFrom (h : net.EntersAt key a) (start : NodeId) :
    (net.removeFrom key start).2.EntersAt key a := by
  obtain ⟨ns, _, hremoved⟩ := removeFrom_trail net key start
  rw [hremoved]
  exact h.dropAll ns

theorem EntersAt.setNext (h : net.EntersAt key a) {n m : NodeId}
    (hn : net.topology.isHost n = true → n = a) : (net.setNext n key m).EntersAt key a := by
  intro n' m' hhost hm
  by_cases heq : n' = n
  · rw [heq]
    exact hn (heq ▸ hhost)
  · have hne : (n', key) ≠ (n, key) := fun hpair => heq (Prod.mk.inj hpair).1
    rw [next?_setNext_of_ne net hne] at hm
    exact h n' m' hhost hm

variable [Quantity R]

section Hosts

variable {t : Topology R} {here : NodeId} {hop : Hop}

/-- Flows go to no host but the one that they are for:
hosts are below all switches, and all that a host knows is itself. -/
theorem Progress.target_host (h : net.Progress t dst here hop) (hrouted : net.Routed t)
    (hhost : net.topology.isHost hop.target = true) : hop.target = dst := by
  rcases h.rank with ⟨_, hrank⟩ | ⟨hknows, _⟩
  · -- The hop goes up, and no host is above anything.
    rw [Topology.rankOf_of_isHost hhost] at hrank
    have hle := net.topology.rankOf_le here
    omega
  · -- The host that it leads to knows the destination, from below or from a peer, or is it.
    rw [hrouted.routing_eq] at hknows
    have hlt : hop.target < t.nodes.size := by
      by_contra hge
      have hsize : (Routes.ofTopology t).size ≤ hop.target := by
        rw [Routes.size_ofTopology]
        exact Nat.le_of_not_lt hge
      rw [Routes.table_of_size_le hsize] at hknows
      cases hknows
    rw [hrouted.extends_.isHost hlt] at hhost
    rcases (Routes.knows_ofTopology hrouted.wellFormed hlt).mp hknows with hbelow | ⟨hpasses, _⟩
    · rcases Routes.knows_fromBelow.mp hbelow with ⟨heq, _⟩ | ⟨l, _, hrank, _⟩
      · exact heq.symm
      · rw [Topology.rankOf_of_isHost hhost] at hrank
        have hle := t.rankOf_le (t.neighbour hop.target l)
        omega
    · rw [Routes.isHost_of_propagates hpasses] at hhost
      cases hhost

variable (hpicks : ∀ net : Network R, Picks select net)

include hpicks

theorem target_host_of_choose? (hrouted : net.Routed t) (hne : here ≠ dst)
    (hc : net.choose? select here dst key = .ok (some hop)) :
    net.topology.isHost hop.target = true → hop.target = dst := by
  rcases choose?_ends (fun _ => hpicks _) hrouted hne with hnone | ⟨hop', hgood, hc'⟩ | herror
  · cases hnone.symm.trans hc
  · cases hc'.symm.trans hc
    exact hgood.target_host hrouted
  · cases herror.symm.trans hc

/-- A path that is laid meets no other hosts, and its start is the only one that gets an entry. -/
theorem lay_hosts {budget : Nat} {laid : List NodeId} (hrouted : net.Routed t)
    (hp : p.Between net.topology src dst) :
    (∀ p', (lay select key dst budget net laid p).1 = .ok p' → p'.Between net.topology src dst) ∧
    (net.EntersAt key src → (lay select key dst budget net laid p).2.EntersAt key src) := by
  have hall := lay_induction select key dst
    (P := fun net _ p result => net.Routed t → p.Between net.topology src dst →
      (∀ p', result.1 = .ok p' → p'.Between net.topology src dst) ∧
      (net.EntersAt key src → result.2.EntersAt key src))
    ?_ ?_ ?_ budget net laid p
  · exact hall hrouted hp
  · intro net laid p _ _ hp
    refine ⟨?_, id⟩
    rintro p' ⟨⟩
    exact hp
  · intro net laid p e _ _
    refine ⟨?_, fun h => h.dropAll laid⟩
    rintro p' ⟨⟩
  · intro net laid p hop result hne _ hc ih hrouted hp
    have hrouted' : (net.setNext p.last key hop.target).Routed t :=
      ⟨hrouted.wellFormed, hrouted.extends_, hrouted.routes⟩
    have hpushed := hp.push (target_host_of_choose? hpicks hrouted hne hc)
    obtain ⟨hbetween, henters⟩ := ih hrouted' hpushed
    -- A host that is left and not arrived at is the one from which the path starts.
    refine ⟨hbetween, fun h => henters (h.setNext fun hhost => ?_)⟩
    exact (hp p.last p.last_mem hhost).resolve_right hne

theorem build_hosts (hrouted : net.Routed t) :
    (∀ p, (build select net key src dst).1 = .ok p → p.Between net.topology src dst) ∧
    (net.EntersAt key src → (build select net key src dst).2.EntersAt key src) := by
  rcases build_cases select net key src dst with ⟨e, _, _, hb⟩ | ⟨_, hop, hhop, hb⟩ | ⟨_, _, hb⟩
  · rw [hb]
    refine ⟨?_, id⟩
    rintro p ⟨⟩
  · rw [hb]
    refine ⟨?_, fun h => h.setNext fun _ => rfl⟩
    rintro p ⟨⟩
    have hback : hop.target = src := Path.target_of_hopBetween? hhop
    exact Path.forall_nodes_push (Path.between_start net.topology src dst) fun _ => Or.inl hback
  · rw [hb]
    exact lay_hosts hpicks hrouted (Path.between_start net.topology src dst)

theorem follow_hosts {budget : Nat} (hrouted : net.Routed t) (hp : p.Between net.topology src dst)
    (h : net.EntersAt key src) : (follow select key dst budget net p).2.EntersAt key src := by
  have hanew (p : Path) (hp : p.Between net.topology src dst) :
      (layFrom select (net.removeFrom key p.last).2 key dst p).2.EntersAt key src := by
    have htouches := touches_removeFrom net key p.last
    have hrouted' : (net.removeFrom key p.last).2.Routed t := by
      refine ⟨hrouted.wellFormed, ?_, htouches.routes.trans hrouted.routes⟩
      exact htouches.topology.symm ▸ hrouted.extends_
    have hp' : p.Between (net.removeFrom key p.last).2.topology src dst :=
      htouches.topology.symm ▸ hp
    exact (lay_hosts hpicks hrouted' hp').2 (h.removeFrom p.last)
  fun_induction follow select key dst budget net p with
  | case1 => exact h
  | case2 => exact h
  | case3 net p here hne chosen hc agreed budget hop hagreed ih =>
    have hchosen : chosen = some hop := (Option.filter_eq_some_iff.mp hagreed).1
    exact ih hrouted (hp.push (target_host_of_choose? hpicks hrouted hne (hchosen ▸ hc))) h hanew
  | case4 _ net p _ _ _ _ _ _ net' hlaid =>
    have henters := hanew p hp
    rwa [hlaid] at henters
  | case5 _ net p _ _ _ _ _ _ net' hlaid =>
    have henters := hanew p hp
    rwa [hlaid] at henters

theorem update_hosts (hrouted : net.Routed t) (h : net.EntersAt key src) :
    (net.update select key src dst).2.EntersAt key src := by
  unfold update
  split
  · exact h
  · exact h
  · split
    · exact h
    · exact follow_hosts hpicks hrouted (Path.between_start net.topology src dst) h

end Hosts

section Leads

omit [Quantity R]

/-- The entries of a flow lead from a node along a path
that they describe, or back to it at once. -/
inductive Leads (net : Network R) (key : FlowKey) (a : NodeId) : Prop where
  | path (more : List Hop) (h : net.Traced key ⟨a, more⟩)
  | back (hop : Hop) (hself : hop.target = a) (h : net.Describes key ⟨a, [hop]⟩)

theorem Leads.of_lacks (h : net.Lacks key) (a : NodeId) : net.Leads key a :=
  .path [] ⟨List.pairwise_singleton _ a, (fun _ hs => by cases hs), .empty h a⟩

theorem Way.leads (hway : Way net.topology src dst p) (hp : net.Describes key p) :
    net.Leads key src := by
  by_cases heq : src = dst
  · obtain ⟨hop, hhop, hhops⟩ := hway.loopback heq
    have hback : p = ⟨src, [hop]⟩ := by
      rw [← hway.start, ← hhops]
    exact .back hop (Path.target_of_hopBetween? hhop) (hback ▸ hp)
  · exact .path p.hops (hway.traced heq hp)

/-- All entries are met from there. -/
theorem Leads.exists_trail (h : net.Leads key a) :
    ∃ ns, Trail net key [] a ns ∧ ∀ n m, net.next? n key = some m → n ∈ ns := by
  have hsources {p : Path} (hp : net.Describes key p) (n m : NodeId)
      (hm : net.next? n key = some m) : n ∈ p.nodes.dropLast := by
    obtain ⟨hop, hmem, _⟩ := (hp n m).mp hm
    exact Path.source_mem_dropLast hmem
  cases h with
  | path more h =>
    refine ⟨_, .of_steps h.describes.guides (h.describes.next?_end h.simple) h.simple, ?_⟩
    exact hsources h.describes
  | back hop hself h =>
    have hnext : net.next? a key = some a := (h a a).mpr ⟨hop, List.mem_cons_self, hself⟩
    exact ⟨_, .closed hnext (List.mem_singleton_self a), hsources h⟩

theorem Leads.lacks_removeFrom (h : net.Leads key a) : (net.removeFrom key a).2.Lacks key := by
  obtain ⟨ns, htrail, hall⟩ := h.exists_trail
  obtain ⟨ns', htrail', hremoved⟩ := removeFrom_trail net key a
  rw [hremoved, htrail'.unique htrail]
  intro n
  rw [next?_dropAll]
  split
  · rfl
  · rename_i hn
    refine Option.eq_none_iff_forall_ne_some.mpr fun m hm => ?_
    exact hn ⟨rfl, hall n m hm⟩

theorem Leads.exists_next (h : net.Leads key a) (hsome : ¬ net.Lacks key) :
    ∃ m, net.next? a key = some m := by
  obtain ⟨ns, htrail, hall⟩ := h.exists_trail
  cases htrail with
  | ended _ =>
    refine absurd (fun n => Option.eq_none_iff_forall_ne_some.mpr fun m hm => ?_) hsome
    cases hall n m hm
  | closed hnext _ => exact ⟨_, hnext⟩
  | step hnext _ _ => exact ⟨_, hnext⟩

/-- If they lead along a way to where there is no entry, they are all met on it. -/
theorem Leads.describes (h : net.Leads key src) (hroute : Route net.topology src dst q)
    (hguides : net.Guides key q) (hlast : src ≠ dst → net.next? dst key = none) :
    net.Describes key q := by
  obtain ⟨ns, htrail, hall⟩ := h.exists_trail
  have hway := Trail.of_route hroute hguides hlast
  rw [hroute.start] at hway
  have hsources : q.steps.map Prod.fst = ns :=
    (Path.map_fst_stepsFrom q.start q.hops).trans (hway.unique htrail)
  intro n m
  constructor
  · intro hm
    have hn := hall n m hm
    rw [← hsources] at hn
    obtain ⟨s, hs, rfl⟩ := List.mem_map.mp hn
    exact ⟨s.2, hs, Option.some.inj ((hguides s hs).symm.trans hm)⟩
  · rintro ⟨hop, hmem, rfl⟩
    exact hguides (n, hop) hmem

/-- What is read back follows the entries. -/
theorem walkAlong_guides {budget : Nat} {p' : Path} (h : walkAlong net key dst budget p = .ok p')
    (hguides : net.Guides key p) : net.Guides key p' := by
  have hnext {here : NodeId} {hop : Hop}
      (hhop : (net.next? here key).bind (Path.hopBetween? net.topology here) = some hop) :
      net.next? here key = some hop.target := by
    obtain ⟨next, hnext, hbetween⟩ := Option.bind_eq_some_iff.mp hhop
    rw [hnext, Path.target_of_hopBetween? hbetween]
  fun_induction walkAlong net key dst budget p with
  | case1 => cases h
  | case2 _ p here hop hhop _ _ =>
    cases h
    exact Path.forall_steps_push hguides (hnext hhop)
  | case3 => cases h
  | case4 => cases h
  | case5 _ p here hop hhop _ _ _ =>
    cases h
    exact Path.forall_steps_push hguides (hnext hhop)
  | case6 => cases h
  | case7 p here hop hhop _ _ _ _ ih =>
    exact ih h (Path.forall_steps_push hguides (hnext hhop))

theorem walk_guides (h : net.walk key src dst = .ok p) : net.Guides key p := by
  unfold walk at h
  split at h
  · exact walkAlong_guides h fun _ hs => by cases hs
  · cases h

/-- Entries are overwritten by a search, but those of a flow do not go. -/
theorem exists_next_of_build (h : build select net key src dst = (.ok p, net')) {n : NodeId}
    (hn : ∃ m, net.next? n key = some m) : ∃ m, net'.next? n key = some m := by
  have hset (net : Network R) (here next : NodeId) (hn : ∃ m, net.next? n key = some m) :
      ∃ m, (net.setNext here key next).next? n key = some m := by
    by_cases heq : n = here
    · exact ⟨next, heq ▸ next?_setNext_self net here key next⟩
    · rwa [next?_setNext_of_ne net fun hpair => heq (Prod.mk.inj hpair).1]
  rcases build_cases select net key src dst with ⟨e, _, _, hb⟩ | ⟨_, hop, _, hb⟩ | ⟨_, _, hb⟩
  · cases hb.symm.trans h
  · cases hb.symm.trans h
    exact hset net src src hn
  · obtain ⟨laid, hattempt⟩ := Attempt.start.of_lay (hb.symm.trans h)
    clear h hb
    induction hattempt with
    | start => exact hn
    | hop _ _ _ _ ih => exact hset _ _ _ ih

end Leads

/-- All entries of a flow are met from a host, and no other host has one. -/
structure Settled (net : Network R) (key : FlowKey) (a : NodeId) : Prop where
  host : net.topology.isHost a = true
  enters : net.EntersAt key a
  leads : net.Leads key a

omit [Quantity R] in
theorem Settled.of_lacks (h : net.Lacks key) (ha : net.topology.isHost a = true) :
    net.Settled key a :=
  ⟨ha, .of_lacks h a, .of_lacks h a⟩

omit [Quantity R] in
theorem Settled.congr (h : net.Settled key a) (htopology : net'.topology = net.topology)
    (hsame : ∀ n, net'.next? n key = net.next? n key) : net'.Settled key a := by
  have hdescribes {p : Path} (hp : net.Describes key p) : net'.Describes key p := by
    intro n m
    rw [hsame]
    exact hp n m
  refine ⟨htopology.symm ▸ h.host, fun n m hhost hm => ?_, ?_⟩
  · rw [htopology] at hhost
    rw [hsame] at hm
    exact h.enters n m hhost hm
  · cases h.leads with
    | path more h => exact .path more ⟨h.simple, htopology.symm ▸ h.follows, hdescribes h.describes⟩
    | back hop hself h => exact .back hop hself (hdescribes h)

/-- A path that is read back is described by the entries, for it ends at a host. -/
theorem Settled.describes_of_walk (h : net.Settled key src) (ht : net.topology.WellFormed)
    (hdst : net.topology.isHost dst = true) (hwalk : net.walk key src dst = .ok q) :
    net.Describes key q := by
  apply h.leads.describes (way_of_walk ht hwalk).toRoute (walk_guides hwalk)
  intro hne
  refine Option.eq_none_iff_forall_ne_some.mpr fun m hm => hne ?_
  exact (h.enters dst m hdst hm).symm

section Calls

variable (hpicks : ∀ net : Network R, Picks select net) (hnet : net.Built)

include hpicks hnet

theorem build_settled (hlacks : net.Lacks key) (hsrc : net.topology.isHost src = true) :
    (∀ p, (build select net key src dst).1 = .ok p →
      (build select net key src dst).2.Describes key p) ∧
    (build select net key src dst).2.Settled key src := by
  obtain ⟨_, t, hrouted⟩ := hnet.routed
  have htopology := (touches_build select net key src dst).topology
  have henters : (build select net key src dst).2.EntersAt key src :=
    (build_hosts hpicks hrouted).2 (.of_lacks hlacks src)
  rcases hb : build select net key src dst with ⟨outcome, net'⟩
  rw [hb] at htopology henters
  cases outcome with
  | error e =>
    refine ⟨(fun p hp => by cases hp), .of_lacks (build_error hb hlacks) ?_⟩
    rwa [htopology]
  | ok p =>
    have hdescribes := (build_ok hb).2 hlacks
    have hway := way_of_build hnet (fun _ => hpicks _) (congrArg Prod.fst hb)
    rw [← htopology] at hway hsrc
    refine ⟨?_, hsrc, henters, hway.leads hdescribes⟩
    rintro p' ⟨⟩
    exact hdescribes

variable (hsrc : net.topology.checkHost src = .ok ()) (hdst : net.topology.checkHost dst = .ok ())

include hsrc hdst

/-- From the loop-back of a host a path is laid as if there were no entries. -/
theorem update_of_back {hop : Hop} (hself : hop.target = src)
    (h : net.Describes key ⟨src, [hop]⟩) :
    (net.update select key src dst).2 = net ∨
      (net.update select key src dst).2 =
        (build select (net.removeFrom key src).2 key src dst).2 := by
  obtain ⟨_, t, hrouted⟩ := hnet.routed
  have hnext : net.next? src key = some src := (h src src).mpr ⟨hop, List.mem_cons_self, hself⟩
  have htouches := touches_removeFrom net key src
  unfold update
  rw [hsrc, hdst]
  dsimp only
  by_cases heq : src = dst
  · rw [if_pos heq]
    exact Or.inl rfl
  · have hne : (⟨src, []⟩ : Path).last ≠ dst := heq
    rw [if_neg heq]
    have hlaid : build select (net.removeFrom key src).2 key src dst =
        layFrom select (net.removeFrom key src).2 key dst ⟨src, []⟩ := by
      apply build_of_hosts select key _ _ heq
      · rw [htouches.topology]
        exact Topology.isHost_of_checkHost hsrc
      · rw [htouches.topology]
        exact Topology.isHost_of_checkHost hdst
    -- The entry leads back to a node on the path, so that no choice agrees with it.
    have hanew (chosen : Option Hop) (hc : net.choose? select src dst key = .ok chosen) :
        (follow select key dst net.topology.nodes.size net ⟨src, []⟩).2 =
          (build select (net.removeFrom key src).2 key src dst).2 := by
      have hdisagreed : ∀ hop, chosen = some hop →
          ¬ (net.next? src key = some hop.target ∧ hop.target ∉ (⟨src, []⟩ : Path).nodes) := by
        rintro hop - ⟨hsome, hnew⟩
        exact hnew (List.mem_singleton.mpr (Option.some.inj (hsome.symm.trans hnext)))
      rw [hlaid]
      exact congrArg Prod.snd (follow_anew hne hc (Or.inr hdisagreed))
    rcases choose?_ends (fun _ => hpicks _) hrouted heq with hc | ⟨hop, _, hc⟩ | hc
    · exact Or.inr (hanew none hc)
    · exact Or.inr (hanew (some hop) hc)
    · exact Or.inl (congrArg Prod.snd (follow_of_error hne hc))

theorem Settled.update (h : net.Settled key src) :
    (net.update select key src dst).2.Settled key src := by
  obtain ⟨_, t, hrouted⟩ := hnet.routed
  have htopology := (touches_update select net key src dst).topology
  have henters : (net.update select key src dst).2.EntersAt key src :=
    update_hosts hpicks hrouted h.enters
  refine ⟨htopology.symm ▸ h.host, henters, ?_⟩
  cases h.leads with
  | path more htraced =>
    rcases update_ends hnet (fun _ => hpicks _) hsrc hdst (fun _ => htraced) with
      hsame | ⟨p, net', hupdate, hway, hp⟩ | ⟨e, net', hupdate, _, kept, _, hkept⟩
    · rw [hsame]
      exact h.leads
    · rw [hupdate] at htopology ⊢
      rw [← htopology] at hway
      exact hway.leads hp
    · rw [hupdate]
      exact .path kept hkept
  | back hop hself hback =>
    rcases update_of_back hpicks hnet hsrc hdst hself hback with hsame | hbuild
    · rw [hsame]
      exact h.leads
    · have htouches := touches_removeFrom net key src
      have hhost : (net.removeFrom key src).2.topology.isHost src = true := by
        rw [htouches.topology]
        exact h.host
      rw [hbuild]
      exact (build_settled hpicks (hnet.of_touches htouches) h.leads.lacks_removeFrom hhost).2.leads

theorem Settled.refresh (h : net.Settled key src) (dynamic : Bool) :
    (net.refresh select key src dst dynamic).2.Settled key src := by
  unfold Network.refresh
  split
  · exact h.update hpicks hnet hsrc hdst
  · exact h

end Calls

/-- The flow has an entry at its source if it has any. -/
def Ready (net : Network R) (key : FlowKey) (src : NodeId) : Prop :=
  net.Lacks key ∨ ∃ m, net.next? src key = some m

section Resolve

variable (hpicks : ∀ net : Network R, Picks select net) (hnet : net.Built)

include hpicks hnet

/-- A path that is resolved for a flow with an entry at its source is described by the entries, and
they are all met from one host again. -/
theorem resolve_settled (h : net.Lacks key ∨ ∃ a, net.Settled key a) (hready : net.Ready key src)
    (dst : NodeId) (dynamic : Bool) :
    (∀ p, (net.resolve select key src dst dynamic).1 = .ok p →
      (net.resolve select key src dst dynamic).2.Describes key p) ∧
    ((net.resolve select key src dst dynamic).2.Lacks key ∨
      ∃ a, (net.resolve select key src dst dynamic).2.Settled key a) := by
  rcases resolve_ends select net key src dst dynamic with
    ⟨e, _, hend⟩ | ⟨hsrc, hdst, ⟨hnext, hend⟩ | ⟨m, hnext, hends⟩⟩
  · rw [hend]
    exact ⟨(fun p hp => by cases hp), h⟩
  · -- Without an entry at the source there is none at all.
    have hlacks : net.Lacks key := by
      apply hready.resolve_right
      rintro ⟨m, hm⟩
      cases hnext.symm.trans hm
    obtain ⟨hanswer, hsettled⟩ :=
      build_settled hpicks hnet hlacks (Topology.isHost_of_checkHost hsrc)
    rw [hend]
    exact ⟨hanswer, Or.inr ⟨src, hsettled⟩⟩
  · -- The only host with an entry is the source, so that all entries are met from there.
    have hstart : net.Settled key src := by
      rcases h with hlacks | ⟨a, ha⟩
      · exact .of_lacks hlacks (Topology.isHost_of_checkHost hsrc)
      · exact ha.enters src m (Topology.isHost_of_checkHost hsrc) hnext ▸ ha
    have hsettled := hstart.refresh hpicks hnet hsrc hdst dynamic
    have htouches := touches_refresh select net key src dst dynamic
    generalize net.refresh select key src dst dynamic = result at hends hsettled htouches
    have hbuilt : result.2.Built := hnet.of_touches htouches
    rcases hends with ⟨e, _, hend⟩ | ⟨q, hwalk, hend⟩ | hend
    · rw [hend]
      exact ⟨(fun p hp => by cases hp), Or.inr ⟨src, hsettled⟩⟩
    · rw [hend]
      refine ⟨?_, Or.inr ⟨src, hsettled⟩⟩
      rintro p ⟨⟩
      apply hsettled.describes_of_walk hbuilt.routed.1.wellFormed _ hwalk
      rw [htouches.topology]
      exact Topology.isHost_of_checkHost hdst
    · obtain ⟨hanswer, hagain⟩ := build_settled hpicks (hbuilt.of_touches (.clear result.2 key))
        (lacks_clear result.2 key) hsettled.host
      rw [hend]
      exact ⟨hanswer, Or.inr ⟨src, hagain⟩⟩

omit hnet in
/-- Where there is no entry at the source, what an earlier source has set stays. -/
theorem ready_of_describes (hnet : net.Built) (h : net.Lacks key ∨ ∃ a, net.Settled key a)
    {dynamic : Bool} (hresolve : net.resolve select key src dst dynamic = (.ok p, net'))
    (hp : net'.Describes key p) : net.Ready key src := by
  by_contra hstale
  obtain ⟨hsome, hnone⟩ := not_or.mp hstale
  obtain ⟨a, hsettled⟩ := h.resolve_left hsome
  obtain ⟨m, hm⟩ := hsettled.leads.exists_next hsome
  have hbuild : build select net key src dst = (.ok p, net') := by
    rcases resolve_ends select net key src dst dynamic with
      ⟨e, _, hend⟩ | ⟨_, _, ⟨_, hend⟩ | ⟨m, hm, _⟩⟩
    · cases hend.symm.trans hresolve
    · exact hend.symm.trans hresolve
    · exact absurd ⟨m, hm⟩ hnone
  -- The old start is left by the new path, so it is an end of it, and that is no end to be left.
  obtain ⟨m', hm'⟩ := exists_next_of_build hbuild ⟨m, hm⟩
  obtain ⟨hop, hmem, _⟩ := (hp a m').mp hm'
  obtain ⟨_, t, hrouted⟩ := hnet.routed
  have hbetween : p.Between net.topology src dst :=
    (build_hosts hpicks hrouted).1 p (congrArg Prod.fst hbuild)
  have hroute := (build_ok hbuild).1
  have hfirst : a ≠ src := by
    rintro rfl
    exact hnone ⟨m, hm⟩
  have hlast : a = dst :=
    (hbetween a (List.dropLast_subset _ (Path.source_mem_dropLast hmem)) hsettled.host).resolve_left
      hfirst
  have hne : src ≠ dst := fun heq => hfirst (hlast.trans heq.symm)
  exact Path.source_ne_last (hroute.simple hne) hmem (hlast.trans hroute.last.symm)

end Resolve

/-- Networks in which the path of a flow was resolved again and again, for hosts that may change,
but never for a source without an entry while others have one. Meanwhile loads and the entries of
other flows change in any way. -/
inductive Resolved (select : Selection R) (key : FlowKey) (net : Network R) : Network R → Prop where
  | start : Resolved select key net net
  | others {net' : Network R} (h : Resolved select key net net') (load : Load R)
      (forwarding : Forwarding) (hsame : ∀ n, forwarding.get? (n, key) = net'.next? n key) :
      Resolved select key net { net' with load, forwarding }
  | call {net' : Network R} (h : Resolved select key net net') {src : NodeId}
      (hready : net'.Ready key src) (dst : NodeId) (dynamic : Bool) :
      Resolved select key net (net'.resolve select key src dst dynamic).2

theorem Resolved.settled (hpicks : ∀ net : Network R, Picks select net) (hnet : net.Built)
    (hlacks : net.Lacks key) (h : Resolved select key net net') :
    net'.Built ∧ (net'.Lacks key ∨ ∃ a, net'.Settled key a) := by
  induction h with
  | start => exact ⟨hnet, Or.inl hlacks⟩
  | @others net' h load forwarding hsame ih =>
    obtain ⟨hbuilt, hstate⟩ := ih
    exact ⟨hbuilt.traffic load forwarding, hstate.imp (fun h n => (hsame n).trans (h n))
      fun ⟨a, ha⟩ => ⟨a, ha.congr rfl hsame⟩⟩
  | @call net' h src hready dst dynamic ih =>
    obtain ⟨hbuilt, hstate⟩ := ih
    exact ⟨hbuilt.of_touches (touches_resolve select net' key src dst dynamic),
      (resolve_settled hpicks hbuilt hstate hready dst dynamic).2⟩

/-- After a call that answers with a path, the entries of the flow are the hops of this path and no
others, if and only if the flow had an entry at the source of the call or none at all. -/
theorem resolve_replaces_entries (rule : SelectionRule) {net net' net'' : Network R}
    (hnet : net.Built) {key : FlowKey} (hlacks : net.Lacks key)
    (h : Resolved rule.select key net net') {src dst : NodeId}
    {dynamic : Bool} {p : Path}
    (hresolve : net'.resolve rule.select key src dst dynamic = (.ok p, net'')) :
    net''.Describes key p ↔ net'.Ready key src := by
  obtain ⟨hbuilt, hstate⟩ := h.settled (picks_select rule) hnet hlacks
  constructor
  · exact ready_of_describes (picks_select rule) hbuilt hstate hresolve
  · intro hready
    have hanswer := (resolve_settled (picks_select rule) hbuilt hstate hready dst dynamic).1
    rw [hresolve] at hanswer
    exact hanswer p rfl

/-- A flow of the first host goes to the second one, and then to the first one itself. -/
theorem rack_resolve_replaces_entries :
    let key : FlowKey := ⟨1, 2, 7⟩
    let net : Network Exact :=
      ({ Network.empty .tree with topology := Topology.rack } : Network Exact).buildRoutes
    let net' := (net.resolve SelectionRule.first.select key 0 1 false).2
    let within : Path := ⟨0, [⟨⟨0, .up⟩, 0⟩]⟩
    net.Built ∧ net.Lacks key ∧ Resolved SelectionRule.first.select key net net' ∧
      net'.Ready key 0 ∧
      ∃ net'', net'.resolve SelectionRule.first.select key 0 0 false = (.ok within, net'') ∧
        net''.Describes key within := by
  intro key net net' within
  have hnet : net.Built := (Built.of_constructed Topology.rack_constructed).buildRoutes
  have hlacks : net.Lacks key := fun _ => rfl
  have hcall : Resolved SelectionRule.first.select key net net' :=
    .call .start (Or.inl hlacks) 1 false
  have hready : net'.Ready key 0 := by
    have hnext : net'.next? 0 key = some 2 := by decide +kernel
    exact Or.inr ⟨2, hnext⟩
  have hwithin : (net'.resolve SelectionRule.first.select key 0 0 false).1 = .ok within := by
    decide +kernel
  have hreplaced {net'' : Network Exact}
      (h : net'.resolve SelectionRule.first.select key 0 0 false = (.ok within, net'')) :=
    (resolve_replaces_entries .first hnet hlacks hcall h).mpr hready
  generalize net'.resolve SelectionRule.first.select key 0 0 false = result at hwithin hreplaced ⊢
  exact ⟨hnet, hlacks, hcall, hready, result.2, Prod.ext hwithin rfl,
    hreplaced (Prod.ext hwithin rfl)⟩

/-- A flow of the first host goes to the second one,
and then it goes back from there: the entry of the first host stays. -/
theorem turned_flow_keeps_entry :
    let key : FlowKey := ⟨1, 2, 7⟩
    let net : Network Exact :=
      ({ Network.empty .tree with topology := Topology.rack } : Network Exact).buildRoutes
    let there : Path := ⟨0, [⟨⟨2, .up⟩, 2⟩, ⟨⟨3, .down⟩, 1⟩]⟩
    let back : Path := ⟨1, [⟨⟨3, .up⟩, 2⟩, ⟨⟨2, .down⟩, 0⟩]⟩
    net.Built ∧ net.Lacks key ∧
      ∃ net' net'', net.resolve SelectionRule.first.select key 0 1 false = (.ok there, net') ∧
        net'.resolve SelectionRule.first.select key 1 0 false = (.ok back, net'') ∧
        ¬ net''.Describes key back := by
  intro key net there back
  have hthere : (net.resolve SelectionRule.first.select key 0 1 false).1 = .ok there := by
    decide +kernel
  have hback : ((net.resolve SelectionRule.first.select key 0 1 false).2.resolve
      SelectionRule.first.select key 1 0 false).1 = .ok back := by decide +kernel
  have hstays : ((net.resolve SelectionRule.first.select key 0 1 false).2.resolve
      SelectionRule.first.select key 1 0 false).2.next? 0 key = some 2 := by decide +kernel
  have hleft : ∀ hop, (0, hop) ∉ back.steps := by
    intro hop hmem
    have hsource : (0 : NodeId) ∈ back.steps.map Prod.fst := List.mem_map_of_mem hmem
    revert hsource
    decide
  generalize net.resolve SelectionRule.first.select key 0 1 false = first at hthere hback hstays ⊢
  generalize hsecond : first.2.resolve SelectionRule.first.select key 1 0 false = second
    at hback hstays
  refine ⟨(Built.of_constructed Topology.rack_constructed).buildRoutes, fun _ => rfl, first.2,
    second.2, Prod.ext hthere rfl, hsecond.trans (Prod.ext hback rfl), fun hp => ?_⟩
  obtain ⟨hop, hmem, _⟩ := (hp 0 2).mp hstays
  exact hleft hop hmem

end Network

end FlowFabric
