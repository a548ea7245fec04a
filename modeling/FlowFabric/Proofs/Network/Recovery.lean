import FlowFabric.Proofs.Network.Readback

namespace FlowFabric

namespace Network

variable {R : Type} {net net' : Network R} {key : FlowKey} {src dst : NodeId} {p p' : Path}
  {select : Selection R}

theorem Guides.push (h : net.Guides key p) (hp : p.nodes.Nodup) (hop : Hop) :
    (net.setNext p.last key hop.target).Guides key (p.push hop) := by
  refine Path.forall_steps_push (fun s hs => ?_) (next?_setNext_self net p.last key hop.target)
  have hne : (s.1, key) ≠ (p.last, key) := fun heq => Path.source_ne_last hp hs (Prod.mk.inj heq).1
  rw [next?_setNext_of_ne net hne]
  exact h s hs

/-- Entries that led elsewhere are overwritten along a path that is laid. -/
theorem lay_guides {budget : Nat} {laid : List NodeId}
    (h : lay select key dst budget net laid p = (.ok p', net')) (hp : p.nodes.Nodup)
    (hguides : net.Guides key p) : net'.Guides key p' := by
  have hall := lay_induction select key dst
    (P := fun net _ p result => p.nodes.Nodup → net.Guides key p →
      ∀ p' net', result = (.ok p', net') → net'.Guides key p')
    ?_ ?_ ?_ budget net laid p
  · exact hall hp hguides p' net' h
  · intro net laid p _ _ hguides p' net' heq
    cases heq
    exact hguides
  · intro net laid p e _ _ p' net' heq
    cases heq
  · intro net laid p hop result _ hnew _ ih hp hguides p' net' heq
    exact ih (Path.nodup_push hp hnew) (hguides.push hp hop) p' net' heq

theorem build_guides (h : build select net key src dst = (.ok p, net')) : net'.Guides key p := by
  have hsimple : (⟨src, []⟩ : Path).nodes.Nodup := List.pairwise_singleton _ _
  have hguides : net.Guides key ⟨src, []⟩ := fun _ hs => by cases hs
  rcases build_cases select net key src dst with ⟨e, _, _, hb⟩ | ⟨_, hop, hhop, hb⟩ | ⟨_, _, hb⟩
  · cases hb.symm.trans h
  · cases hb.symm.trans h
    have hpushed := hguides.push hsimple hop
    rw [Path.target_of_hopBetween? hhop] at hpushed
    exact hpushed
  · rw [hb] at h
    exact lay_guides h hsimple hguides

variable [Quantity R]

theorem Built.of_touches (h : net.Built) (htouches : Touches key net net') : net'.Built := by
  rw [htouches.rest]
  exact h.traffic net.load net'.forwarding

section Walk

/-- What is read back from any entries goes on along links without repetition, or it is the
loop-back of the node where it begins. -/
theorem walkAlong_cases (ht : net.topology.WellFormed) {budget : Nat}
    (h : walkAlong net key dst budget p = .ok p') (hsimple : p.nodes.Nodup)
    (hfollows : ∀ s ∈ p.steps, Path.Follows net.topology s.1 s.2) :
    (∀ s ∈ p'.steps, Path.Follows net.topology s.1 s.2) ∧
      (p'.nodes.Nodup ∨ p.last = dst ∧
        ∃ hop, Path.hopBetween? net.topology p.last p.last = some hop ∧ p' = p.push hop) := by
  have hlink {here : NodeId} {hop : Hop}
      (hhop : (net.next? here key).bind (Path.hopBetween? net.topology here) = some hop) :
      Path.hopBetween? net.topology here hop.target = some hop := by
    obtain ⟨next, _, hbetween⟩ := Option.bind_eq_some_iff.mp hhop
    rwa [Path.target_of_hopBetween? hbetween]
  fun_induction walkAlong net key dst budget p with
  | case1 => cases h
  | case2 _ p here hop hhop htarget hdst =>
    cases h
    have hloop := hlink hhop
    refine ⟨Path.forall_steps_push hfollows (follows_of_hopBetween? ht hloop),
      Or.inr ⟨hdst, hop, ?_, rfl⟩⟩
    rwa [htarget] at hloop
  | case3 => cases h
  | case4 => cases h
  | case5 _ p here hop hhop _ hnew _ =>
    cases h
    exact ⟨Path.forall_steps_push hfollows (follows_of_hopBetween? ht (hlink hhop)),
      Or.inl (Path.nodup_push hsimple hnew)⟩
  | case6 => cases h
  | case7 p here hop hhop _ hnew hdst _ ih =>
    obtain ⟨hfollows', hends⟩ := ih h (Path.nodup_push hsimple hnew)
      (Path.forall_steps_push hfollows (follows_of_hopBetween? ht (hlink hhop)))
    refine ⟨hfollows', Or.inl (hends.resolve_right fun hback => ?_)⟩
    rw [Path.last_push] at hback
    exact hdst hback.1

/-- Whatever the entries, what is read back from them is a way between the hosts. -/
theorem way_of_walk (ht : net.topology.WellFormed) (h : net.walk key src dst = .ok p) :
    Way net.topology src dst p := by
  obtain ⟨hstart, hlast, hhops⟩ := walk_ok h
  unfold walk at h
  split at h
  · obtain ⟨hfollows, hends⟩ := walkAlong_cases ht h (List.pairwise_singleton _ _)
      fun _ hs => by cases hs
    refine ⟨⟨hstart, hlast, fun hne => ?_, fun heq => ?_⟩, hfollows⟩
    · exact hends.resolve_right fun hback => hne hback.1
    · rcases hends with hsimple | ⟨_, hop, hhop, rfl⟩
      · -- A path that has left a node does not end there without repeating it.
        exfalso
        obtain ⟨start, hops⟩ := p
        obtain ⟨hop, rest, rfl⟩ := List.exists_cons_of_ne_nil hhops
        apply Path.source_ne_last hsimple List.mem_cons_self
        rw [hlast, ← heq]
        exact hstart
      · exact ⟨hop, hhop, rfl⟩
  · cases h

omit [Quantity R] in
/-- A path that is read back begins with an entry. -/
theorem next?_of_walk (h : net.walk key src dst = .ok p) : ∃ m, net.next? src key = some m := by
  cases hnext : net.next? src key with
  | some m => exact ⟨m, rfl⟩
  | none =>
    have hlast : (⟨src, []⟩ : Path).last = src := rfl
    unfold walk walkAlong at h
    dsimp only at h
    rw [hlast, hnext] at h
    split at h <;> cases h

omit [Quantity R] in
/-- Between hosts, whatever can be read back is resolved so, and nothing changes. -/
theorem resolve_of_walk (hsrc : net.topology.checkHost src = .ok ())
    (hdst : net.topology.checkHost dst = .ok ()) (h : net.walk key src dst = .ok p) :
    net.resolve select key src dst false = (.ok p, net) := by
  obtain ⟨m, hnext⟩ := next?_of_walk h
  exact resolve_of_updated hsrc hdst hnext rfl h

end Walk

section Build

/-- It is read back even if entries are left that it does not use. -/
theorem build_reads_back (hnet : net.Built)
    (hpicks : ∀ entries, Picks select (net.withForwarding entries))
    (h : build select net key src dst = (.ok p, net')) :
    Way net.topology src dst p ∧ net'.walk key src dst = .ok p := by
  have htopology : net'.topology = net.topology := by
    have htouches := touches_build select net key src dst
    rw [h] at htouches
    exact htouches.topology
  have hway : Way net.topology src dst p := way_of_build hnet hpicks (congrArg Prod.fst h)
  have hsrc : src < net.topology.nodes.size := by
    rcases build_cases select net key src dst with
      ⟨e, _, _, hb⟩ | ⟨_, hop, hhop, _⟩ | ⟨hlt, _, _⟩
    · cases hb.symm.trans h
    · rw [← Path.target_of_hopBetween? hhop]
      have ht := hnet.routed.1.wellFormed
      exact (follows_of_hopBetween? ht hhop).lt_size ht
    · exact hlt
  refine ⟨hway, ?_⟩
  apply walk_of_guides
  · rw [htopology]
    exact hnet.routed.1
  · rwa [htopology]
  · rwa [htopology]
  · exact build_guides h

/-- Between hosts the only thing that a search can want is a route. -/
theorem build_error_of_hosts (hsel : ∀ entries, Answers select (net.withForwarding entries))
    (hnet : net.Built) (hsrc : net.topology.checkHost src = .ok ())
    (hdst : net.topology.checkHost dst = .ok ()) {e : Fault R}
    (h : (build select net key src dst).1 = .error e) : ∃ here, e = .noRoute here dst := by
  obtain ⟨hconstructed, t, hrouted⟩ := hnet.routed
  rcases build_cases select net key src dst with ⟨_, _, hnone, _⟩ | ⟨_, _, _, hb⟩ | ⟨hlt, _, hb⟩
  · obtain ⟨hop, hhop, _⟩ := hconstructed.hopBetween?_self hsrc
    cases (hnone hsrc hdst).symm.trans hhop
  · rw [hb] at h
    cases h
  · rw [hb] at h
    rcases lay_cases key [] hsel hrouted (Laid.start src hlt) rfl with
      ⟨p, hok, _⟩ | ⟨here, herror, _⟩
    · cases hok.symm.trans h
    · exact ⟨here, Except.error.inj (h.symm.trans herror)⟩

end Build

section Resolve

omit [Quantity R]

/-- The outcome of an adaption, if one is asked for. -/
def refresh (select : Selection R) (net : Network R) (key : FlowKey) (src dst : NodeId)
    (dynamic : Bool) : Except (Fault R) Bool × Network R :=
  if dynamic then net.update select key src dst else (.ok false, net)

theorem touches_refresh (select : Selection R) (net : Network R) (key : FlowKey) (src dst : NodeId)
    (dynamic : Bool) : Touches key net (net.refresh select key src dst dynamic).2 := by
  unfold refresh
  split
  · exact touches_update select net key src dst
  · exact .refl key net

/-- Between hosts, a path is laid if there is no entry at its start. Otherwise the entries may be
adapted, and what cannot be read back from them is cleared and laid anew. -/
theorem resolve_ends (select : Selection R) (net : Network R) (key : FlowKey) (src dst : NodeId)
    (dynamic : Bool) :
    (∃ e, ¬ (net.topology.checkHost src = .ok () ∧ net.topology.checkHost dst = .ok ()) ∧
      net.resolve select key src dst dynamic = (.error e, net)) ∨
    net.topology.checkHost src = .ok () ∧ net.topology.checkHost dst = .ok () ∧
      (net.next? src key = none ∧
          net.resolve select key src dst dynamic = build select net key src dst ∨
        ∃ m, net.next? src key = some m ∧
          ((∃ e, (net.refresh select key src dst dynamic).1 = .error e ∧
              net.resolve select key src dst dynamic =
                (.error e, (net.refresh select key src dst dynamic).2)) ∨
            (∃ p, (net.refresh select key src dst dynamic).2.walk key src dst = .ok p ∧
              net.resolve select key src dst dynamic =
                (.ok p, (net.refresh select key src dst dynamic).2)) ∨
            net.resolve select key src dst dynamic =
              build select ((net.refresh select key src dst dynamic).2.clear key).2 key src
                dst)) := by
  have htopology := (touches_refresh select net key src dst dynamic).topology
  unfold resolve
  rcases checkHost_cases net.topology src with ⟨hsrc, hlt⟩ | ⟨e, he, _⟩
  · rcases checkHost_cases net.topology dst with ⟨hdst, _⟩ | ⟨e, he, _⟩
    · rw [hsrc, hdst]
      refine Or.inr ⟨rfl, rfl, ?_⟩
      cases net.next? src key with
      | none => exact Or.inl ⟨rfl, rfl⟩
      | some m =>
        refine Or.inr ⟨m, rfl, ?_⟩
        dsimp only
        rw [← refresh]
        generalize net.refresh select key src dst dynamic = result at htopology
        obtain ⟨outcome, adapted⟩ := result
        cases outcome with
        | error e => exact Or.inl ⟨e, rfl, rfl⟩
        | ok changed =>
          dsimp only
          cases hwalk : adapted.walk key src dst with
          | ok p => exact Or.inr (Or.inl ⟨p, rfl, rfl⟩)
          | error e =>
            -- To clear the flow does not fail, since its source is a node.
            have hcontains : adapted.topology.containsNode src = true := by
              rw [htopology]
              exact decide_eq_true hlt
            exact Or.inr (Or.inr (rebuild_eq hcontains select key src dst))
    · rw [hsrc, he]
      refine Or.inl ⟨e, ?_, rfl⟩
      rintro ⟨_, hdst⟩
      cases hdst
  · rw [he]
    refine Or.inl ⟨e, ?_, rfl⟩
    rintro ⟨hsrc, _⟩
    cases hsrc

/-- A path is resolved by a search, by reading back what is there or has been adapted, or by
clearing what cannot be read back and a search from there. Otherwise an end is no host, or the
adaption fails. -/
theorem resolve_cases (select : Selection R) (net : Network R) (key : FlowKey) (src dst : NodeId)
    (dynamic : Bool) :
    (∃ e net', net.resolve select key src dst dynamic = (.error e, net') ∧
      (net.topology.checkHost src = .ok () → net.topology.checkHost dst = .ok () →
        dynamic = true)) ∨
    (net.resolve select key src dst dynamic = build select net key src dst) ∨
    ∃ adapted, Touches key net adapted ∧ (dynamic = false → adapted = net) ∧
      ((∃ p, adapted.walk key src dst = .ok p ∧
        net.resolve select key src dst dynamic = (.ok p, adapted)) ∨
        net.resolve select key src dst dynamic = build select
          (adapted.clear key).2 key src dst) := by
  have htouches := touches_refresh select net key src dst dynamic
  have hsame : dynamic = false → net.refresh select key src dst dynamic = (.ok false, net) := by
    rintro rfl
    rfl
  rcases resolve_ends select net key src dst dynamic with
    ⟨e, hends, hend⟩ | ⟨_, _, ⟨_, hend⟩ | ⟨_, _, ⟨e, he, hend⟩ | hfound⟩⟩
  · exact Or.inl ⟨e, net, hend, fun hsrc hdst => absurd ⟨hsrc, hdst⟩ hends⟩
  · exact Or.inr (Or.inl hend)
  · refine Or.inl ⟨e, _, hend, fun _ _ => ?_⟩
    by_contra hstatic
    rw [hsame (Bool.eq_false_iff.mpr hstatic)] at he
    cases he
  · exact Or.inr (Or.inr ⟨_, htouches, fun hstatic => congrArg Prod.snd (hsame hstatic), hfound⟩)

end Resolve

section Resolved

variable {dynamic : Bool} (h : net.resolve select key src dst dynamic = (.ok p, net'))

include h

omit [Quantity R] in
/-- Nothing is resolved but between hosts. -/
theorem checkHost_of_resolve :
    net.topology.checkHost src = .ok () ∧ net.topology.checkHost dst = .ok () := by
  rcases resolve_ends select net key src dst dynamic with ⟨e, _, herror⟩ | ⟨hsrc, hdst, _⟩
  · cases herror.symm.trans h
  · exact ⟨hsrc, hdst⟩

variable (hnet : net.Built) (hpicks : ∀ entries, Picks select (net.withForwarding entries))

include hnet hpicks

/-- A path that is resolved is read back from the entries,
even by a selection that now and then takes none of its links. -/
theorem resolve_reads_back : Way net.topology src dst p ∧ net'.walk key src dst = .ok p := by
  rcases resolve_cases select net key src dst dynamic with
    ⟨e, _, herror, _⟩ | hbuild | ⟨adapted, hadapted, _, ⟨q, hwalk, hread⟩ | hrebuild⟩
  · cases herror.symm.trans h
  · exact build_reads_back hnet hpicks (hbuild.symm.trans h)
  · cases hread.symm.trans h
    have hway := way_of_walk (hnet.of_touches hadapted).routed.1.wellFormed hwalk
    rw [hadapted.topology] at hway
    exact ⟨hway, hwalk⟩
  · have hcleared := hadapted.trans (Touches.clear adapted key)
    have hpicks' (entries : Forwarding) :
        Picks select ((adapted.clear key).2.withForwarding entries) := by
      rw [hcleared.rest]
      exact hpicks entries
    obtain ⟨hway, hwalk⟩ :=
      build_reads_back (hnet.of_touches hcleared) hpicks' (hrebuild.symm.trans h)
    rw [hcleared.topology] at hway
    exact ⟨hway, hwalk⟩

end Resolved

/-- Whatever entries a flow has, a path that is resolved for it is a way between the hosts, and it
is the one that the entries lead along afterwards. Between two hosts, if nothing is to be adapted,
the only fault is a route that a search has missed, in the network as it was or without the entries
of the flow. -/
theorem resolve_recovers {select : Selection R} {net : Network R}
    (hsel : ∀ entries, Answers select (net.withForwarding entries)) (hnet : net.Built)
    (key : FlowKey) (src dst : NodeId) :
    (∀ dynamic p net', net.resolve select key src dst dynamic = (.ok p, net') →
      Way net.topology src dst p ∧ Touches key net net' ∧ net'.walk key src dst = .ok p) ∧
    (net.topology.isHost src = true → net.topology.isHost dst = true →
      ∀ e, (net.resolve select key src dst false).1 = .error e →
        (∃ here, e = .noRoute here dst) ∧
          ((build select net key src dst).1 = .error e ∨
            (build select (net.clear key).2 key src dst).1 = .error e)) := by
  constructor
  · intro dynamic p net' hresolve
    have htouches := touches_resolve select net key src dst dynamic
    rw [hresolve] at htouches
    obtain ⟨hway, hwalk⟩ := resolve_reads_back hresolve hnet fun entries => (hsel entries).picks
    exact ⟨hway, htouches, hwalk⟩
  · intro hsrc hdst e herror
    have hsrcOk := checkHost_of_isHost hsrc
    have hdstOk := checkHost_of_isHost hdst
    rcases resolve_cases select net key src dst false with
      ⟨_, _, _, hdynamic⟩ | hbuild | ⟨adapted, _, hsame, ⟨q, _, hread⟩ | hrebuild⟩
    · cases hdynamic hsrcOk hdstOk
    · rw [hbuild] at herror
      exact ⟨build_error_of_hosts hsel hnet hsrcOk hdstOk herror, Or.inl herror⟩
    · rw [hread] at herror
      cases herror
    · rw [hsame rfl] at hrebuild
      rw [hrebuild] at herror
      -- Without its entries the network is the same one to the selection.
      have hcleared (entries : Forwarding) :
          Answers select ((net.clear key).2.withForwarding entries) := hsel entries
      exact ⟨build_error_of_hosts hcleared (hnet.of_touches (.clear net key)) hsrcOk hdstOk herror,
        Or.inr herror⟩

/-- The entries lead from the first host up to the switch and back again, for every selection of the
library. Where nothing is linked there is no route. -/
theorem rack_resolve_recovers :
    let key : FlowKey := ⟨1, 2, 7⟩
    let rack : Network Exact :=
      ({ Network.empty .tree with topology := Topology.rack } : Network Exact).buildRoutes
    let stale := (rack.setNext 0 key 2).setNext 2 key 0
    let unlinked : Network Exact :=
      ({ Network.empty .tree with topology := Topology.rackNodes } : Network Exact).buildRoutes
    let p : Path := ⟨0, [⟨⟨2, .up⟩, 2⟩, ⟨⟨3, .down⟩, 1⟩]⟩
    stale.Built ∧ unlinked.Built ∧ unlinked.topology.isHost 0 = true ∧
      unlinked.topology.isHost 1 = true ∧ ∀ rule : SelectionRule,
        (∀ entries, Answers rule.select (stale.withForwarding entries)) ∧
        (∀ dynamic, ∃ net', stale.resolve rule.select key 0 1 dynamic = (.ok p, net') ∧
          Way stale.topology 0 1 p ∧ Touches key stale net' ∧ net'.walk key 0 1 = .ok p) ∧
        (∀ entries, Answers rule.select (unlinked.withForwarding entries)) ∧
        ∃ e, (unlinked.resolve rule.select key 0 1 false).1 = .error e ∧
          (∃ here, e = .noRoute here 1) ∧ (build rule.select unlinked key 0 1).1 = .error e := by
  intro key rack stale unlinked p
  have hrack : rack.Built := (Built.of_constructed Topology.rack_constructed).buildRoutes
  have hstale : stale.Built := hrack.traffic rack.load stale.forwarding
  have hunlinked : unlinked.Built :=
    (Built.of_constructed Topology.rackNodes_constructed).buildRoutes
  refine ⟨hstale, hunlinked, rfl, rfl, fun rule => ?_⟩
  have hanswers := hstale.answers_select rfl rule
  have hanswers' := hunlinked.answers_select rfl rule
  have hnone : (unlinked.resolve rule.select key 0 1 false).1 = .error (.noRoute 0 1) := rfl
  refine ⟨hanswers, fun dynamic => ?_, hanswers', .noRoute 0 1, hnone, ?_, rfl⟩
  · have hresolve : (stale.resolve rule.select key 0 1 dynamic).1 = .ok p := by
      cases rule <;> cases dynamic <;> decide +kernel
    have hpair : stale.resolve rule.select key 0 1 dynamic =
        (.ok p, (stale.resolve rule.select key 0 1 dynamic).2) := Prod.ext hresolve rfl
    exact ⟨_, hpair, (resolve_recovers hanswers hstale key 0 1).1 dynamic p _ hpair⟩
  · exact ((resolve_recovers hanswers' hunlinked key 0 1).2 rfl rfl _ hnone).1

end Network

end FlowFabric
