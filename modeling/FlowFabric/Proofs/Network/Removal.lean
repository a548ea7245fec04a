import FlowFabric.Proofs.Network.Attempts

namespace FlowFabric

namespace Network

variable {R : Type} {key : FlowKey} {net net' : Network R} {here : NodeId} {met ns : List NodeId}

/-- A simple path that its entries describe ends where there is no entry. -/
theorem Describes.next?_end {p : Path} (h : net.Describes key p) (hp : p.nodes.Nodup) :
    net.next? p.last key = none := by
  have hend : net.Describes key (p.extend []) := by rwa [Path.extend_nil]
  apply hend.next?_last
  rwa [Path.extend_nil]

/-- The nodes at which entries are removed from a node on, those that were met before given. -/
inductive Trail (net : Network R) (key : FlowKey) : List NodeId → NodeId → List NodeId → Prop where
  | ended {met : List NodeId} {here : NodeId} (h : net.next? here key = none) :
    Trail net key met here []
  | closed {met : List NodeId} {here next : NodeId} (h : net.next? here key = some next)
      (hmet : next ∈ met ++ [here]) : Trail net key met here [here]
  | step {met : List NodeId} {here next : NodeId} {rest : List NodeId}
      (h : net.next? here key = some next) (hnew : next ∉ met ++ [here])
      (hrest : Trail net key (met ++ [here]) next rest) : Trail net key met here (here :: rest)

namespace Trail

/-- The entries leave no choice. -/
theorem unique {ns' : List NodeId} (h : Trail net key met here ns)
    (h' : Trail net key met here ns') : ns = ns' := by
  -- The entry of a node, and whether it leads to a node that was met, tell the rule.
  induction h generalizing ns' with
  | ended hnone =>
    cases h' with
    | ended _ => rfl
    | closed hsome _ => cases hnone.symm.trans hsome
    | step hsome _ _ => cases hnone.symm.trans hsome
  | closed hsome hmet =>
    cases h' with
    | ended hnone => cases hnone.symm.trans hsome
    | closed _ _ => rfl
    | step hsome' hnew _ =>
      cases hsome.symm.trans hsome'
      exact absurd hmet hnew
  | step hsome hnew _ ih =>
    cases h' with
    | ended hnone => cases hnone.symm.trans hsome
    | closed hsome' hmet =>
      cases hsome.symm.trans hsome'
      exact absurd hmet hnew
    | step hsome' _ hrest =>
      cases hsome.symm.trans hsome'
      rw [ih hrest]

/-- Every node of it had an entry. -/
theorem exists_next (h : Trail net key met here ns) : ∀ n ∈ ns, ∃ m, net.next? n key = some m := by
  induction h with
  | ended _ => exact fun n hn => by cases hn
  | closed hsome _ =>
    intro n hn
    rw [List.mem_singleton.mp hn]
    exact ⟨_, hsome⟩
  | step hsome _ _ ih =>
    intro n hn
    rcases List.mem_cons.mp hn with rfl | hrest
    · exact ⟨_, hsome⟩
    · exact ih n hrest

/-- It never comes back, neither to itself nor to what was met before. -/
theorem nodup_append (h : Trail net key met here ns) (hmet : met.Nodup) (hhere : here ∉ met) :
    (met ++ ns).Nodup := by
  have hnext {met : List NodeId} {here : NodeId} (hmet : met.Nodup) (hhere : here ∉ met) :
      (met ++ [here]).Nodup :=
    List.nodup_append.mpr ⟨hmet, List.nodup_singleton here, fun a ha b hb heq =>
      hhere (List.mem_singleton.mp hb ▸ heq ▸ ha)⟩
  induction h with
  | ended _ => rwa [List.append_nil]
  | closed _ _ => exact hnext hmet hhere
  | step _ hnew _ ih =>
    rw [List.append_cons]
    exact ih (hnext hmet hhere) hnew

theorem nodup (h : Trail net key [] here ns) : ns.Nodup :=
  h.nodup_append List.nodup_nil List.not_mem_nil

/-- Along a simple path that its entries describe, it takes the nodes that the path leaves. -/
theorem of_steps {hops : List Hop}
    (hsteps : ∀ s ∈ Path.stepsFrom here hops, net.next? s.1 key = some s.2.target)
    (hlast : net.next? ((here :: hops.map Hop.target).getLast (List.cons_ne_nil _ _)) key = none)
    (hsimple : (met ++ here :: hops.map Hop.target).Nodup) :
    Trail net key met here (here :: hops.map Hop.target).dropLast := by
  -- With each hop the node that it leaves joins those that were met.
  induction hops generalizing here met with
  | nil => exact .ended hlast
  | cons hop rest ih =>
    have hnext : net.next? here key = some hop.target := hsteps (here, hop) List.mem_cons_self
    have hrest : ∀ s ∈ Path.stepsFrom hop.target rest, net.next? s.1 key = some s.2.target :=
      fun s hs => hsteps s (List.mem_cons_of_mem _ hs)
    rw [List.map_cons] at hlast hsimple ⊢
    rw [List.getLast_cons (List.cons_ne_nil _ _)] at hlast
    rw [List.append_cons] at hsimple
    rw [List.dropLast_cons_of_ne_nil (List.cons_ne_nil _ _)]
    refine .step hnext ?_ (ih hrest hlast hsimple)
    intro hmem
    exact (List.nodup_append.mp hsimple).2.2 hop.target hmem hop.target List.mem_cons_self rfl

/-- A way along which entries lead is left behind node by node, the last one apart. -/
theorem of_route {src dst : NodeId} {p : Path} (hroute : Route net.topology src dst p)
    (hguides : net.Guides key p) (hlast : src ≠ dst → net.next? dst key = none) :
    Trail net key [] p.start p.nodes.dropLast := by
  by_cases heq : src = dst
  · -- Within one host the entry leads back to where it is.
    obtain ⟨hop, hhop, hhops⟩ := hroute.loopback heq
    have hstart := hroute.start
    have htarget : hop.target = src := Path.target_of_hopBetween? hhop
    obtain ⟨start, hops⟩ := p
    cases hhops
    cases hstart
    have hself : net.next? start key = some start := by
      have hstep := hguides (start, hop) List.mem_cons_self
      rwa [htarget] at hstep
    exact .closed hself (List.mem_singleton_self _)
  · have hend := hlast heq
    rw [← hroute.last] at hend
    exact of_steps hguides hend (hroute.simple heq)

end Trail

section Along

/-- Entries are removed along the trail. The budget is for the entries that are left, so that it is
never what ends the removal. -/
theorem removeAlong_trail {budget : Nat} (hhere : here ∉ met)
    (hbudget : (net.dropAll key met).forwarding.size ≤ budget) :
    ∃ ns, Trail net key met here ns ∧
      removeAlong key budget (net.dropAll key met) met here =
        (met ++ ns, net.dropAll key (met ++ ns)) := by
  have hsame (n : NodeId) (hn : n ∉ met) : (net.dropAll key met).next? n key = net.next? n key := by
    rw [next?_dropAll, if_neg fun h => hn h.2]
  induction budget generalizing met here with
  | zero =>
    -- There are no entries left, so that there is none here.
    refine ⟨[], .ended ?_, ?_⟩
    · rw [← hsame here hhere]
      refine Option.eq_none_iff_forall_ne_some.mpr fun next hnext => ?_
      have hlt := Table.size_erase_lt (t := (net.dropAll key met).forwarding) hnext
      omega
    · rw [List.append_nil]
      rfl
  | succ budget ih =>
    cases hnext : net.next? here key with
    | none =>
      refine ⟨[], .ended hnext, ?_⟩
      unfold removeAlong
      rw [hsame here hhere, hnext, List.append_nil]
    | some next =>
      have hfound := (hsame here hhere).trans hnext
      have hdrop : (net.dropAll key met).dropNext here key = net.dropAll key (met ++ [here]) := by
        unfold dropAll
        rw [List.foldl_append]
        rfl
      by_cases hmet : next ∈ met ++ [here]
      · refine ⟨[here], .closed hnext hmet, ?_⟩
        unfold removeAlong
        rw [hfound]
        dsimp only
        rw [if_pos hmet, hdrop]
      · -- With the entry that goes the table gets smaller, and so may the budget.
        have hlt := Table.size_erase_lt (t := (net.dropAll key met).forwarding) hfound
        have hleft : (net.dropAll key (met ++ [here])).forwarding.size ≤ budget := by
          rw [← hdrop]
          exact Nat.le_of_lt_succ (hlt.trans_le hbudget)
        obtain ⟨rest, hrest, hremoved⟩ := ih hmet hleft fun n hn => by
          rw [next?_dropAll, if_neg fun h => hn h.2]
        refine ⟨here :: rest, .step hnext hmet hrest, ?_⟩
        unfold removeAlong
        rw [hfound]
        dsimp only
        rw [if_neg hmet, hdrop, hremoved, ← List.append_cons]

theorem removeFrom_trail (net : Network R) (key : FlowKey) (start : NodeId) :
    ∃ ns, Trail net key [] start ns ∧ net.removeFrom key start = (ns, net.dropAll key ns) :=
  removeAlong_trail List.not_mem_nil (le_refl (net.dropAll key []).forwarding.size)

end Along

section Clear

theorem clear_dropAll (net : Network R) (key : FlowKey) (ns : List NodeId) :
    ((net.dropAll key ns).clear key).2 = (net.clear key).2 := by
  induction ns generalizing net with
  | nil => rfl
  | cons n rest ih => exact (ih (net.dropNext n key)).trans (clear_dropNext net n key)

theorem clear_of_lacks (h : net.Lacks key) : (net.clear key).2 = net := by
  have hall : net.forwarding.filter (fun e => e.1.2 != key) = net.forwarding := by
    apply Table.ext
    apply List.filter_eq_self.mpr
    intro e he
    obtain ⟨⟨n, k⟩, m⟩ := e
    apply bne_iff_ne.mpr
    rintro rfl
    cases (Table.get?_eq_some_iff.mpr he).symm.trans (h n)
  show net.withForwarding _ = net
  rw [hall]
  rfl

/-- Clearing counts one entry for each hop of a path, if no node is left twice. -/
theorem clear_count {p : Path} (hp : net.Describes key p) (hnodup : p.nodes.dropLast.Nodup) :
    (net.clear key).1 = p.links.length := by
  have hsources : p.steps.map Prod.fst = p.nodes.dropLast := Path.map_fst_stepsFrom p.start p.hops
  have hkeys : (net.forwarding.keys.filter fun e => e.2 == key).Nodup :=
    net.forwarding.keys_nodup.filter _
  have hentries : ((p.steps.map Prod.fst).map fun n => (n, key)).Nodup := by
    rw [hsources]
    exact hnodup.map fun _ _ heq => (Prod.mk.inj heq).1
  -- Neither list has an entry twice, so that they are as long if they have the same entries.
  have hperm : (net.forwarding.keys.filter fun e => e.2 == key).Perm
      ((p.steps.map Prod.fst).map fun n => (n, key)) := by
    refine (List.perm_ext_iff_of_nodup hkeys hentries).mpr fun e => ?_
    obtain ⟨n, k⟩ := e
    rw [List.mem_filter, beq_iff_eq, ← Table.contains_iff_mem_keys, Table.contains,
      Option.isSome_iff_exists]
    constructor
    · rintro ⟨⟨m, hm⟩, rfl⟩
      obtain ⟨hop, hmem, _⟩ := (hp n m).mp hm
      exact List.mem_map_of_mem (List.mem_map_of_mem hmem)
    · intro hmem
      obtain ⟨n', hn', heq⟩ := List.mem_map.mp hmem
      obtain ⟨s, hs, rfl⟩ := List.mem_map.mp hn'
      cases heq
      exact ⟨⟨s.2.target, hp.guides s hs⟩, rfl⟩
  calc (net.clear key).1 = ((p.steps.map Prod.fst).map fun n => (n, key)).length := hperm.length_eq
    _ = p.hops.length := by
      rw [List.length_map, List.length_map]
      exact Path.length_stepsFrom p.start p.hops
    _ = p.links.length := by
      unfold Path.links Path.lanes
      rw [List.length_map, List.length_map]

end Clear

section Undo

variable {select : Selection R} {src dst : NodeId}

/-- A search that goes on from an attempt and arrives is an attempt. -/
theorem Attempt.of_lay {origin p : Path} {laid : List NodeId} {reached : Network R}
    (h : Attempt select key dst net origin laid p reached) {budget : Nat} {p' : Path}
    (hlay : Network.lay select key dst budget reached laid p = (.ok p', net')) :
    ∃ laid', Attempt select key dst net origin laid' p' net' := by
  have hall := lay_induction select key dst
    (P := fun reached laid p result => Attempt select key dst net origin laid p reached →
      ∀ p' net', result = (.ok p', net') → ∃ laid', Attempt select key dst net origin laid' p' net')
    ?_ ?_ ?_ budget reached laid p
  · exact hall h p' net' hlay
  · rintro reached laid p _ h p' net' heq
    cases heq
    exact ⟨laid, h⟩
  · rintro reached laid p e _ p' net' heq
    cases heq
  · intro reached laid p hop result hne hnew hc ih h p' net' heq
    exact ih (h.hop hne hc hnew) p' net' heq

/-- Once the entries of the path that was found are dropped,
nothing tells that there was a search. -/
theorem dropAll_build {p : Path} (h : build select net key src dst = (.ok p, net')) :
    net'.dropAll key p.nodes.dropLast = net.dropAll key p.nodes.dropLast := by
  rcases build_cases select net key src dst with ⟨e, _, _, hb⟩ | ⟨_, hop, _, hb⟩ | ⟨_, _, hb⟩
  · cases hb.symm.trans h
  · cases hb.symm.trans h
    exact dropAll_setNext (List.mem_singleton_self src) net src
  · obtain ⟨laid, hattempt⟩ := Attempt.start.of_lay (hb.symm.trans h)
    have hlaid : p.nodes.dropLast = laid :=
      (Path.map_fst_stepsFrom p.start p.hops).symm.trans hattempt.map_fst_steps
    exact hattempt.dropAll_eq (hlaid ▸ List.Subset.refl laid)

/-- A path that was found for a flow without entries is removed from its start, node by node up to
the last one, and the network is as it was before the search. Clearing the flow removes as many
entries as the path has links and leaves the same. Whatever the entries are, removal from a node
follows the trail of the entries. Its nodes are all different, each had an entry, and exactly these
entries go. -/
theorem removal_undoes_search (select : Selection R) (net : Network R) (key : FlowKey) :
    (net.Lacks key → ∀ src dst p net', build select net key src dst = (.ok p, net') →
      net'.removeFrom key p.start = (p.nodes.dropLast, net) ∧
      net'.clear key = (p.links.length, net)) ∧
    ∀ start, ∃ ns, net.removeFrom key start = (ns, net.dropAll key ns) ∧ Trail net key [] start ns ∧
      ns.Nodup ∧ (∀ n ∈ ns, ∃ m, net.next? n key = some m) ∧
      Touches key net (net.dropAll key ns) ∧
      ∀ n k, (net.dropAll key ns).next? n k = if k = key ∧ n ∈ ns then none else net.next? n k := by
  constructor
  -- The trail from the start is unique, and the path that was found is one.
  · intro hlacks src dst p net' h
    obtain ⟨hroute, hdescribes⟩ := build_ok h
    have hp := hdescribes hlacks
    have htopology : net'.topology = net.topology := by
      have htouches := touches_build select net key src dst
      rw [h] at htouches
      exact htouches.topology
    have hend : src ≠ dst → net'.next? dst key = none := by
      intro hne
      rw [← hroute.last]
      exact hp.next?_end (hroute.simple hne)
    have htrail : Trail net' key [] p.start p.nodes.dropLast :=
      .of_route (htopology ▸ hroute) hp.guides hend
    have hbefore : net'.dropAll key p.nodes.dropLast = net :=
      (dropAll_build h).trans (dropAll_of_lacks hlacks _)
    constructor
    · obtain ⟨ns, hns, hremoved⟩ := removeFrom_trail net' key p.start
      rw [hremoved, hns.unique htrail, hbefore]
    · refine Prod.ext (clear_count hp htrail.nodup) ?_
      calc (net'.clear key).2 = ((net'.dropAll key p.nodes.dropLast).clear key).2 :=
            (clear_dropAll net' key _).symm
        _ = (net.clear key).2 := by rw [hbefore]
        _ = net := clear_of_lacks hlacks
  · intro start
    obtain ⟨ns, hns, hremoved⟩ := removeFrom_trail net key start
    exact ⟨ns, hremoved, hns, hns.nodup, hns.exists_next, .dropAll net key ns,
      fun n k => next?_dropAll net key k ns n⟩

/-- Between the hosts of a rack, and within one of them. -/
theorem rack_removal_undoes_search :
    let key : FlowKey := ⟨1, 2, 7⟩
    let net : Network Exact :=
      ({ Network.empty .tree with topology := Topology.rack } : Network Exact).buildRoutes
    let across : Path := ⟨0, [⟨⟨2, .up⟩, 2⟩, ⟨⟨3, .down⟩, 1⟩]⟩
    let within : Path := ⟨0, [⟨⟨0, .up⟩, 0⟩]⟩
    net.Lacks key ∧
      (∃ net', build Selection.first net key 0 1 = (.ok across, net') ∧
        net'.removeFrom key 0 = ([0, 2], net) ∧ net'.clear key = (2, net)) ∧
      ∃ net', build Selection.first net key 0 0 = (.ok within, net') ∧
        net'.removeFrom key 0 = ([0], net) ∧ net'.clear key = (1, net) := by
  intro key net across within
  have hlacks : net.Lacks key := fun _ => rfl
  have hacross : (build Selection.first net key 0 1).1 = .ok across := by decide +kernel
  have hwithin : (build Selection.first net key 0 0).1 = .ok within := by decide +kernel
  have hundo := (removal_undoes_search Selection.first net key).1 hlacks
  have hundone := hundo 0 1 across _ (Prod.ext hacross rfl)
  have hundone' := hundo 0 0 within _ (Prod.ext hwithin rfl)
  exact ⟨hlacks, ⟨_, Prod.ext hacross rfl, hundone⟩, ⟨_, Prod.ext hwithin rfl, hundone'⟩⟩

end Undo

end Network

end FlowFabric
