import FlowFabric.Proofs.Network.Readback

/-! A selection that does not look at entries decides where a search goes before the search has set
any. To follow a path and lay the rest anew therefore ends where a search from the start would. -/

namespace FlowFabric

namespace Path

/-- The nodes of a path in pairs tell where each of its hops leads. -/
theorem map_target_stepsFrom (here : NodeId) (hops : List Hop) :
    (stepsFrom here hops).map (fun s => (s.1, s.2.target)) =
      (here :: hops.map Hop.target).zip (hops.map Hop.target) := by
  induction hops generalizing here with
  | nil => rfl
  | cons h rest ih =>
    simp only [stepsFrom, List.map_cons, List.zip_cons_cons]
    exact congrArg _ (ih h.target)

end Path

namespace Topology

/-- Two hosts and two switches, not linked yet. -/
def twinNodes : Topology Exact :=
  ((((empty .tree).pushNode "left" .host 1000).pushNode "right" .host 1000).pushNode "first"
    (.switch .edge) 1000).pushNode "second" (.switch .edge) 1000

/-- Two hosts below both of two switches. -/
def twin : Topology Exact :=
  (((twinNodes.pushLink 2 0 0 1000 1000).pushLink 2 1 0 1000 1000).pushLink
    3 0 0 1000 1000).pushLink 3 1 0 1000 1000

theorem twinNodes_constructed : twinNodes.Constructed := by
  have hb : Admitted (1000 : Exact) := ⟨by decide, rfl⟩
  have hempty : (empty .tree : Topology Exact).Constructed := ⟨.tree, .refl⟩
  refine (((hempty.pushNode hb ?_ _).pushNode hb ?_ _).pushNode hb ?_ _).pushNode hb ?_ _ <;>
    simp [findNode?, pushNode, NodeKind.isHost, empty]

theorem twin_constructed : twin.Constructed := by
  have hb : Admitted (1000 : Exact) := ⟨by decide, rfl⟩
  have hfirst := twinNodes_constructed.pushLink (a := 2) (b := 0)
    ⟨by decide, by decide, by decide, hb, hb, rfl⟩ 0
  have hsecond := hfirst.pushLink (a := 2) (b := 1) ⟨by decide, by decide, by decide, hb, hb, rfl⟩ 0
  have hthird := hsecond.pushLink (a := 3) (b := 0) ⟨by decide, by decide, by decide, hb, hb, rfl⟩ 0
  exact hthird.pushLink ⟨by decide, by decide, by decide, hb, hb, rfl⟩ 0

end Topology

namespace Network

variable {R : Type}

/-- A path is described by its nodes: over which links it goes is not kept in the entries. -/
theorem Describes.congr {net : Network R} {key : FlowKey} {p q : Path} (h : net.Describes key p)
    (hnodes : q.nodes = p.nodes) : net.Describes key q := by
  obtain ⟨hstart, htargets⟩ := List.cons.inj hnodes
  have hsteps : q.steps.map (fun s => (s.1, s.2.target)) =
      p.steps.map fun s => (s.1, s.2.target) := by
    unfold Path.steps
    rw [Path.map_target_stepsFrom, Path.map_target_stepsFrom, hstart, htargets]
  have hmem (r : Path) (n m : NodeId) : (∃ hop, (n, hop) ∈ r.steps ∧ hop.target = m) ↔
      (n, m) ∈ r.steps.map fun s => (s.1, s.2.target) := by
    rw [List.mem_map]
    constructor
    · rintro ⟨hop, hstep, rfl⟩
      exact ⟨(n, hop), hstep, rfl⟩
    · rintro ⟨⟨n', hop⟩, hstep, heq⟩
      obtain ⟨rfl, rfl⟩ := Prod.mk.inj heq
      exact ⟨hop, hstep, rfl⟩
  intro n m
  rw [hmem, hsteps, ← hmem]
  exact h n m

/-- The selection does not look at forwarding entries. -/
def Oblivious (select : Selection R) : Prop :=
  ∀ net entries, select (net.withForwarding entries) = select net

theorem oblivious_select [Quantity R] (rule : SelectionRule) :
    Oblivious (rule.select : Selection R) := by
  intro net entries
  cases rule with
  | first => rfl
  | destinationAddress => rfl
  | bandwidthAllocation => rfl

variable {select : Selection R} {net : Network R} {key : FlowKey} {dst : NodeId} {p : Path}

/-- A search goes on from where it starts. -/
theorem lay_extends {budget : Nat} {laid : List NodeId} {p' : Path}
    (h : (lay select key dst budget net laid p).1 = .ok p') : ∃ more, p' = p.extend more := by
  have hall := lay_induction select key dst
    (P := fun _ _ p result => ∀ p', result.1 = .ok p' → ∃ more, p' = p.extend more)
    ?_ ?_ ?_ budget net laid p
  · exact hall p' h
  · intro net laid p _ p' heq
    cases heq
    exact ⟨[], p.extend_nil.symm⟩
  · intro net laid p e p' heq
    cases heq
  · intro net laid p hop result _ _ _ ih p' heq
    obtain ⟨more, rfl⟩ := ih p' heq
    exact ⟨hop :: more, (p.extend_cons hop more).symm⟩

section Search

variable [Quantity R] (hblind : Oblivious select) (hpicks : Picks select net)

include hblind

omit [Quantity R] in
theorem choose?_withForwarding (entries : Forwarding) (here : NodeId) :
    (net.withForwarding entries).choose? select here dst key = net.choose? select here dst key := by
  unfold choose?
  rw [hblind net entries]
  rfl

include hpicks

omit [Quantity R] in
theorem picks_withForwarding (entries : Forwarding) :
    Picks select (net.withForwarding entries) := by
  intro here dst key cs hcs l hl
  rw [hblind net entries] at hl
  exact hpicks here dst key cs hcs l hl

variable {t : Topology R} (hrouted : net.Routed t)

include hrouted

/-- Where a search ends depends neither on the entries that there are
nor on its budget, as long as that is enough. -/
theorem lay_outcome {budget budget' : Nat} {net₁ net₂ : Network R}
    (h₁ : net₁ = net.withForwarding net₁.forwarding)
    (h₂ : net₂ = net.withForwarding net₂.forwarding) (laid₁ laid₂ : List NodeId)
    (hlaid : net.Laid t dst p)
    (hbudget : net.topology.nodes.size < budget + p.nodes.length)
    (hbudget' : net.topology.nodes.size < budget' + p.nodes.length) :
    (lay select key dst budget net₁ laid₁ p).1 = (lay select key dst budget' net₂ laid₂ p).1 := by
  induction budget generalizing budget' net₁ net₂ laid₁ laid₂ p with
  | zero =>
    have hle := hlaid.length_le
    omega
  -- Neither budget is used up, for a path has at most as many nodes as the network.
  | succ budget ih =>
    obtain ⟨budget', rfl⟩ : ∃ k, budget' = k + 1 := by
      have hle := hlaid.length_le
      exact ⟨budget' - 1, by omega⟩
    by_cases harrived : p.last = dst
    · rw [lay_of_arrived harrived, lay_of_arrived harrived]
    · have hchoose {net' : Network R} (h : net' = net.withForwarding net'.forwarding) :
          net'.choose? select p.last dst key = net.choose? select p.last dst key := by
        rw [h]
        exact choose?_withForwarding hblind _ _
      rcases choose?_ends (picks_withForwarding hblind hpicks) hrouted harrived with
        hc | ⟨hop, hgood, hc⟩ | hc
      · rw [lay_of_no_route harrived ((hchoose h₁).trans hc),
          lay_of_no_route harrived ((hchoose h₂).trans hc)]
      · have hnew := hlaid.not_mem hgood
        have hlength : (p.push hop).nodes.length = p.nodes.length + 1 := by
          rw [Path.nodes_push, List.length_append, List.length_singleton]
        rw [lay_of_hop harrived ((hchoose h₁).trans hc) hnew,
          lay_of_hop harrived ((hchoose h₂).trans hc) hnew]
        apply ih
        · rw [h₁]
          rfl
        · rw [h₂]
          rfl
        · exact hlaid.push hgood
        · omega
        · omega
      · rw [lay_of_error harrived ((hchoose h₁).trans hc),
          lay_of_error harrived ((hchoose h₂).trans hc)]

/-- Where a search from the end of a path ends. -/
theorem layFrom_outcome {net' : Network R} (h : net' = net.withForwarding net'.forwarding)
    (hlaid : net.Laid t dst p) :
    (layFrom select net' key dst p).1 = (layFrom select net key dst p).1 := by
  have hpos : 0 < p.nodes.length := List.length_pos_of_ne_nil (List.cons_ne_nil _ _)
  have hsize : net'.topology.nodes.size = net.topology.nodes.size := by
    rw [h]
    rfl
  unfold layFrom
  apply lay_outcome hblind hpicks hrouted h rfl [] [] hlaid
  · omega
  · omega

/-- A search that takes a hop ends where a search from behind the hop ends. -/
theorem layFrom_push (hlaid : net.Laid t dst p) (hne : p.last ≠ dst) {hop : Hop}
    (hgood : net.Progress t dst p.last hop)
    (hc : net.choose? select p.last dst key = .ok (some hop)) :
    (layFrom select net key dst p).1 = (layFrom select net key dst (p.push hop)).1 := by
  have hpos : 0 < p.nodes.length := List.length_pos_of_ne_nil (List.cons_ne_nil _ _)
  have hlength : (p.push hop).nodes.length = p.nodes.length + 1 := by
    rw [Path.nodes_push, List.length_append, List.length_singleton]
  unfold layFrom
  calc (lay select key dst net.topology.nodes.size net [] p).1
      = (lay select key dst (net.topology.nodes.size + 1) net [] p).1 := by
        apply lay_outcome hblind hpicks hrouted rfl rfl [] [] hlaid <;> omega
    _ = (lay select key dst net.topology.nodes.size (net.setNext p.last key hop.target)
          ([] ++ [p.last]) (p.push hop)).1 := by
        rw [lay_of_hop hne hc (hlaid.not_mem hgood)]
    _ = (lay select key dst net.topology.nodes.size net [] (p.push hop)).1 := by
        apply lay_outcome hblind hpicks hrouted rfl rfl _ [] (hlaid.push hgood) <;> omega

/-- The first hop of what a search finds is the one that is chosen. -/
theorem layFrom_ok (hlaid : net.Laid t dst p) (hne : p.last ≠ dst) {p' : Path}
    (h : (layFrom select net key dst p).1 = .ok p') :
    ∃ hop rest, net.choose? select p.last dst key = .ok (some hop) ∧
      p' = p.extend (hop :: rest) := by
  rcases choose?_ends (picks_withForwarding hblind hpicks) hrouted hne with
    hc | ⟨hop, hgood, hc⟩ | hc
  · unfold layFrom at h
    rw [lay_of_no_route hne hc] at h
    cases h
  · rw [layFrom_push hblind hpicks hrouted hlaid hne hgood hc] at h
    obtain ⟨rest, rfl⟩ := lay_extends h
    exact ⟨hop, rest, hc, (p.extend_cons hop rest).symm⟩
  · unfold layFrom at h
    rw [lay_of_error hne hc] at h
    cases h

/-- How the adaption of a path ends, compared with a search from the same node. -/
inductive Matches (select : Selection R) (key : FlowKey) (dst : NodeId) (net : Network R)
    (p : Path) : Except (Fault R) Bool × Network R → Prop where
  /-- Both fail for the same reason. -/
  | failed (e : Fault R) (net' : Network R) (h : (layFrom select net key dst p).1 = .error e) :
      Matches select key dst net p (.error e, net')
  /-- The entries describe what the search would find. -/
  | kept (p' : Path) (h : (layFrom select net key dst p).1 = .ok p') (hp : net.Describes key p') :
      Matches select key dst net p (.ok false, net)
  /-- They did not, and now they do. -/
  | changed (p' : Path) (net' : Network R) (h : (layFrom select net key dst p).1 = .ok p')
      (hp : net'.Describes key p') (hold : ¬ net.Describes key p') :
      Matches select key dst net p (.ok true, net')

omit [Quantity R] hblind hpicks hrouted in
theorem Matches.congr {p' : Path} {result : Except (Fault R) Bool × Network R}
    (h : Matches select key dst net p' result)
    (heq : (layFrom select net key dst p).1 = (layFrom select net key dst p').1) :
    Matches select key dst net p result := by
  cases h with
  | failed e net' h => exact .failed e net' (heq.trans h)
  | kept p' h hp => exact .kept p' (heq.trans h) hp
  | changed p' net' h hp hold => exact .changed p' net' (heq.trans h) hp hold

omit [Quantity R] hblind hpicks hrouted in
theorem Matches.error_iff {result : Except (Fault R) Bool × Network R}
    (h : Matches select key dst net p result) (e : Fault R) :
    result.1 = .error e ↔ (layFrom select net key dst p).1 = .error e := by
  cases h with
  | failed e' net' h =>
    rw [h]
    simp
  | kept p' h hp =>
    rw [h]
    simp
  | changed p' net' h hp hold =>
    rw [h]
    simp

omit [Quantity R] hblind hpicks hrouted in
/-- Where the search finds a path, the entries describe it in the end,
and nothing changes if they did before. -/
theorem Matches.of_found {result : Except (Fault R) Bool × Network R}
    (h : Matches select key dst net p result) {p' : Path}
    (hfound : (layFrom select net key dst p).1 = .ok p') :
    ∃ changed net', result = (.ok changed, net') ∧ net'.Describes key p' ∧
      (changed = true ↔ ¬ net.Describes key p') ∧ (changed = false → net' = net) := by
  cases h with
  | failed e net' h => cases h.symm.trans hfound
  | kept q h hp =>
    obtain rfl : q = p' := Except.ok.inj (h.symm.trans hfound)
    exact ⟨false, net, rfl, hp, by simp [hp], fun _ => rfl⟩
  | changed q net' h hp hold =>
    obtain rfl : q = p' := Except.ok.inj (h.symm.trans hfound)
    exact ⟨true, net', rfl, hp, by simp [hold], fun h => by cases h⟩

variable {more : List Hop}

/-- Where the entry of a node is not the one that would be set now,
the rest is laid anew as by a search from the node. -/
theorem matches_anew {budget : Nat} (hlaid : net.Laid t dst p)
    (h : net.Describes key (p.extend more)) (hsimple : (p.extend more).nodes.Nodup)
    (hne : p.last ≠ dst) {chosen : Option Hop}
    (hc : net.choose? select p.last dst key = .ok chosen)
    (hdisagreed : ∀ hop, chosen = some hop →
      ¬ (net.next? p.last key = some hop.target ∧ hop.target ∉ p.nodes)) :
    Matches select key dst net p (follow select key dst budget net p) := by
  have htouches := touches_removeAlong key net.forwarding.size net [] p.last
  have houtcome : (layFrom select (net.removeFrom key p.last).2 key dst p).1 =
      (layFrom select net key dst p).1 :=
    layFrom_outcome hblind hpicks hrouted htouches.rest hlaid
  rw [follow_anew hne hc (Or.inr hdisagreed)]
  generalize hresult : layFrom select (net.removeFrom key p.last).2 key dst p = result at houtcome
  obtain ⟨outcome, net'⟩ := result
  cases outcome with
  | error e => exact .failed e net' houtcome.symm
  | ok p' =>
    obtain ⟨hjoins, hdescribes⟩ := lay_ok hresult hlaid.simple
    refine .changed p' net' houtcome.symm (hdescribes (h.removeFrom hsimple)) fun hold => ?_
    -- Had the entries described the path, the one at this node would lead where it was chosen to
    -- go.
    obtain ⟨hop, rest, hc', rfl⟩ := layFrom_ok hblind hpicks hrouted hlaid hne houtcome.symm
    have hchosen : chosen = some hop := Except.ok.inj (hc.symm.trans hc')
    apply hdisagreed hop hchosen
    constructor
    · exact hold.next?_last hjoins.simple
    · have hnodes := hjoins.simple
      rw [Path.nodes_extend] at hnodes
      intro hmem
      exact (List.nodup_append.mp hnodes).2.2 _ hmem _ List.mem_cons_self rfl

/-- A path whose entries lead to the host, or end where the path does, is adapted to the one that a
search would find. The induction follows the part that is kept. -/
theorem follow_matches {budget : Nat} (hlaid : net.Laid t dst p)
    (h : net.Describes key (p.extend more)) (hsimple : (p.extend more).nodes.Nodup)
    (hend : more = [] ∨ (p.extend more).last = dst)
    (hbudget : net.topology.nodes.size < budget + p.nodes.length) :
    Matches select key dst net p (follow select key dst budget net p) := by
  induction budget generalizing p more with
  | zero =>
    have hle := hlaid.length_le
    omega
  | succ budget ih =>
    by_cases harrived : p.last = dst
    · -- A simple path that has arrived does not go on.
      have hmore : more = [] := by
        apply hend.elim id
        intro hlast
        by_contra hne
        obtain ⟨hop, rest, rfl⟩ := List.exists_cons_of_ne_nil hne
        have hmem : (p.last, hop) ∈ (p.extend (hop :: rest)).steps := by
          rw [Path.steps_extend]
          exact List.mem_append_right _ List.mem_cons_self
        apply Path.source_ne_last hsimple hmem
        rw [hlast, harrived]
      rw [hmore, Path.extend_nil] at h
      rw [follow_of_arrived harrived]
      refine .kept p ?_ h
      unfold layFrom
      rw [lay_of_arrived harrived]
    -- Without a route from here the entry cannot agree, whatever it is.
    · rcases choose?_ends (picks_withForwarding hblind hpicks) hrouted harrived with
        hc | ⟨hop, hgood, hc⟩ | hc
      · apply matches_anew hblind hpicks hrouted hlaid h hsimple harrived hc
        intro hop hchosen
        cases hchosen
      · by_cases hagreed : net.next? p.last key = some hop.target ∧ hop.target ∉ p.nodes
        · rw [follow_of_agreed harrived hc hagreed.1 hagreed.2]
          -- The entry agrees with the search, and the part that is kept grows by this hop.
          have hnext := h.next?_last hsimple
          cases more with
          | nil => cases hagreed.1.symm.trans hnext
          | cons hop' rest =>
            have htarget : hop.target = hop'.target :=
              Option.some.inj (hagreed.1.symm.trans hnext)
            have hnodes : ((p.push hop).extend rest).nodes = (p.extend (hop' :: rest)).nodes := by
              rw [← Path.extend_cons, Path.nodes_extend, Path.nodes_extend, List.map_cons,
                List.map_cons, htarget]
            have hlast : ((p.push hop).extend rest).last = (p.extend (hop' :: rest)).last := by
              simp only [Path.last, hnodes]
            have hlength : (p.push hop).nodes.length = p.nodes.length + 1 := by
              rw [Path.nodes_push, List.length_append, List.length_singleton]
            have hrest : rest = [] ∨ ((p.push hop).extend rest).last = dst :=
              Or.inr (hlast.trans (hend.resolve_left (List.cons_ne_nil _ _)))
            have hmatches := ih (hlaid.push hgood) (h.congr hnodes) (hnodes ▸ hsimple) hrest
              (by omega)
            exact hmatches.congr (layFrom_push hblind hpicks hrouted hlaid harrived hgood hc)
        · apply matches_anew hblind hpicks hrouted hlaid h hsimple harrived hc
          intro hop' hchosen
          cases hchosen
          exact hagreed
      · rw [follow_of_error harrived hc]
        refine .failed _ _ ?_
        unfold layFrom
        rw [lay_of_error harrived hc]

section Hosts

variable {src : NodeId} (hsrc : net.topology.isHost src = true)
  (hdst : net.topology.isHost dst = true) (hne : src ≠ dst)

include hsrc hdst hne

/-- The way of a flow that has one, or none at all, is adapted to what a search would find. -/
theorem update_matches
    (h : net.Lacks key ∨ ∃ p : Path, p.Joins src dst ∧ net.Describes key p) :
    Matches select key dst net ⟨src, []⟩ (net.update select key src dst) := by
  have hlaid : net.Laid t dst ⟨src, []⟩ :=
    .start src (lt_size_of_checkHost (checkHost_of_isHost hsrc))
  obtain ⟨more, hdescribes, hsimple, hend⟩ : ∃ more, net.Describes key (⟨src, more⟩ : Path) ∧
      (⟨src, more⟩ : Path).nodes.Nodup ∧ (more = [] ∨ (⟨src, more⟩ : Path).last = dst) := by
    rcases h with hlacks | ⟨⟨_, more⟩, ⟨rfl, hlast, hsimple⟩, hp⟩
    · exact ⟨[], .empty hlacks src, List.pairwise_singleton _ _, Or.inl rfl⟩
    · exact ⟨more, hp, hsimple, Or.inr hlast⟩
  unfold update
  rw [checkHost_of_isHost hsrc, checkHost_of_isHost hdst]
  dsimp only
  rw [if_neg hne]
  exact follow_matches hblind hpicks hrouted hlaid hdescribes hsimple hend (Nat.lt_succ_self _)

/-- What a search in a network finds, described by the entries of a network that differs in them
only, stays when it is adapted there. -/
theorem update_of_found {net' : Network R} (htouches : Touches key net net')
    (hfound : (layFrom select net key dst ⟨src, []⟩).1 = .ok p) (hp : net'.Describes key p) :
    net'.update select key src dst = (.ok false, net') := by
  have htopology := htouches.topology
  have hlaid : net.Laid t dst ⟨src, []⟩ :=
    .start src (lt_size_of_checkHost (checkHost_of_isHost hsrc))
  have hjoins : p.Joins src dst := (lay_ok (Prod.ext hfound rfl) hlaid.simple).1
  have hpicks' : Picks select net' := by
    rw [htouches.rest]
    exact picks_withForwarding hblind hpicks _
  have hrouted' : net'.Routed t := by
    refine ⟨hrouted.wellFormed, ?_, ?_⟩
    · rw [htopology]
      exact hrouted.extends_
    · rw [htouches.routes]
      exact hrouted.routes
  have hfound' : (layFrom select net' key dst ⟨src, []⟩).1 = .ok p :=
    (layFrom_outcome hblind hpicks hrouted htouches.rest hlaid).trans hfound
  have hmatches := update_matches hblind hpicks' hrouted' (htopology ▸ hsrc) (htopology ▸ hdst) hne
    (Or.inr ⟨p, hjoins, hp⟩)
  obtain ⟨changed, net'', hresult, _, hchanged, hsame⟩ := hmatches.of_found hfound'
  have hkept : changed = false := by
    rw [← Bool.not_eq_true, hchanged, not_not]
    exact hp
  rw [hresult, hsame hkept, hkept]

end Hosts

end Search

/-- To adapt the path of a flow to a selection of the library is to search for it anew: either both
fail for the same reason, or the entries describe what the search would find, and a change is
reported if they did not before. To adapt the path once more changes nothing. -/
theorem update_agrees_with_search [Quantity R] (rule : SelectionRule) {net : Network R}
    (hnet : net.Built) (key : FlowKey) {src dst : NodeId} (hsrc : net.topology.isHost src = true)
    (hdst : net.topology.isHost dst = true) (hne : src ≠ dst)
    (h : net.Lacks key ∨ ∃ p : Path, p.Joins src dst ∧ net.Describes key p) :
    (∀ e, (net.update rule.select key src dst).1 = .error e ↔
      (build rule.select net key src dst).1 = .error e) ∧
    ∀ p, (build rule.select net key src dst).1 = .ok p →
      ∃ changed net', net.update rule.select key src dst = (.ok changed, net') ∧
        net'.Describes key p ∧ Touches key net net' ∧ (changed = true ↔ ¬ net.Describes key p) ∧
        net'.update rule.select key src dst = (.ok false, net') := by
  obtain ⟨_, t, hrouted⟩ := hnet.routed
  have hblind : Oblivious (rule.select : Selection R) := oblivious_select rule
  have hpicks : Picks rule.select net := picks_select rule net
  have hmatches := update_matches hblind hpicks hrouted hsrc hdst hne h
  rw [build_of_hosts rule.select key hsrc hdst hne]
  refine ⟨hmatches.error_iff, fun p hfound => ?_⟩
  obtain ⟨changed, net', hresult, hp, hchanged, _⟩ := hmatches.of_found hfound
  have htouches : Touches key net net' := by
    have htouches := touches_update rule.select net key src dst
    rwa [hresult] at htouches
  have hagain := update_of_found hblind hpicks hrouted hsrc hdst hne htouches hfound hp
  exact ⟨changed, net', hresult, hp, htouches, hchanged, hagain⟩

/-- Two hosts below both of two switches, with routing tables. -/
def twinNetwork : Network Exact :=
  ({ Network.empty .tree with topology := Topology.twin } : Network Exact).buildRoutes

/-- A flow goes over the second switch, and the selection prefers the first one. -/
theorem twin_update_agrees_with_search :
    let key : FlowKey := ⟨1, 2, 7⟩
    let net := (twinNetwork.setNext 0 key 3).setNext 3 key 1
    let old : Path := ⟨0, [⟨⟨4, .up⟩, 3⟩, ⟨⟨5, .down⟩, 1⟩]⟩
    let new : Path := ⟨0, [⟨⟨2, .up⟩, 2⟩, ⟨⟨3, .down⟩, 1⟩]⟩
    net.Built ∧ net.topology.isHost 0 = true ∧ net.topology.isHost 1 = true ∧ (0 : NodeId) ≠ 1 ∧
      old.Joins 0 1 ∧ net.Describes key old ∧ ¬ net.Describes key new ∧
      (build Selection.first net key 0 1).1 = .ok new ∧
      ∃ net', net.update Selection.first key 0 1 = (.ok true, net') ∧
        net'.Describes key new ∧ Touches key net net' ∧
        net'.update Selection.first key 0 1 = (.ok false, net') := by
  intro key net old new
  have hbase : twinNetwork.Built := (Built.of_constructed Topology.twin_constructed).buildRoutes
  have hnet : net.Built := hbase.traffic Table.empty net.forwarding
  have hjoins : old.Joins 0 1 := ⟨rfl, rfl, by decide⟩
  have hold : net.Describes key old := by
    have hlacks : twinNetwork.Lacks key := fun _ => rfl
    have hstart := Describes.empty hlacks 0
    exact (hstart.push (by decide) ⟨⟨4, .up⟩, 3⟩).push (by decide) ⟨⟨5, .down⟩, 1⟩
  have hfound : (build Selection.first net key 0 1).1 = .ok new := by decide +kernel
  have hnew : ¬ net.Describes key new := by
    intro h
    have hnext : net.next? 0 key = some 2 := (h 0 2).mpr ⟨_, List.mem_cons_self, rfl⟩
    have hset : net.next? 0 key = some 3 := by decide
    cases hset.symm.trans hnext
  obtain ⟨changed, net', hupdate, hp, htouches, hchanged, hagain⟩ :=
    (update_agrees_with_search .first hnet key rfl rfl (by decide) (Or.inr ⟨old, hjoins, hold⟩)).2
      new hfound
  rw [hchanged.mpr hnew] at hupdate
  exact ⟨hnet, rfl, rfl, by decide, hjoins, hold, hnew, hfound, net', hupdate, hp, htouches, hagain⟩

end Network

end FlowFabric
