import FlowFabric.Proofs.Network.LoopFreedom

namespace FlowFabric

namespace Path

theorem source_mem_dropLast {p : Path} {n : NodeId} {hop : Hop} (h : (n, hop) ∈ p.steps) :
    n ∈ p.nodes.dropLast := by
  obtain ⟨start, hops⟩ := p
  show n ∈ (start :: hops.map Hop.target).dropLast
  have hmem : (n, hop) ∈ stepsFrom start hops := h
  clear h
  induction hops generalizing start with
  | nil => cases hmem
  | cons first rest ih =>
    rw [List.map_cons, List.dropLast_cons_of_ne_nil (List.cons_ne_nil _ _)]
    rcases List.mem_cons.mp hmem with heq | hrest
    · rw [(Prod.mk.inj heq).1]
      exact List.mem_cons_self
    · exact List.mem_cons_of_mem _ (ih first.target hrest)

/-- A path without repetition never leaves its last node. -/
theorem source_ne_last {p : Path} (hp : p.nodes.Nodup) {n : NodeId} {hop : Hop}
    (h : (n, hop) ∈ p.steps) : n ≠ p.last := by
  rintro rfl
  have hmem := source_mem_dropLast h
  have hsplit := List.dropLast_append_getLast (List.cons_ne_nil p.start (p.hops.map Hop.target))
  have hdisjoint : (p.nodes.dropLast ++ [p.last]).Nodup := by
    rw [show p.nodes.dropLast ++ [p.last] = p.nodes from hsplit]
    exact hp
  exact (List.nodup_append.mp hdisjoint).2.2 _ hmem _ (List.mem_singleton_self _) rfl

theorem target_of_hopBetween? {R : Type} {t : Topology R} {a b : NodeId} {hop : Hop}
    (h : hopBetween? t a b = some hop) : hop.target = b := by
  obtain ⟨l, _, hl⟩ := Option.bind_eq_some_iff.mp h
  obtain ⟨link, _, rfl⟩ := Option.map_eq_some_iff.mp hl
  rfl

theorem last_mem (p : Path) : p.last ∈ p.nodes := List.getLast_mem _

theorem hops_ne_nil {p : Path} (h : p.start ≠ p.last) : p.hops ≠ [] := by
  obtain ⟨start, hops⟩ := p
  rintro rfl
  exact h rfl

/-- A simple path from one node to another. -/
structure Joins (p : Path) (src dst : NodeId) : Prop where
  start : p.start = src
  last : p.last = dst
  simple : p.nodes.Nodup

end Path

namespace Network

variable {R : Type}

/-- The entries of a flow over all nodes are the hops of a path and nothing else. -/
def Describes (net : Network R) (key : FlowKey) (p : Path) : Prop :=
  ∀ n m, net.next? n key = some m ↔ ∃ hop, (n, hop) ∈ p.steps ∧ hop.target = m

/-- No node has an entry for the flow. -/
def Lacks (net : Network R) (key : FlowKey) : Prop := ∀ n, net.next? n key = none

/-- The second network is the first one but for entries of one flow. -/
structure Touches (key : FlowKey) (net net' : Network R) : Prop where
  rest : net' = net.withForwarding net'.forwarding
  others : ∀ n k, k ≠ key → net'.next? n k = net.next? n k

namespace Touches

variable {key : FlowKey} {net net' net'' : Network R}

theorem refl (key : FlowKey) (net : Network R) : Touches key net net := ⟨rfl, fun _ _ _ => rfl⟩

theorem trans (h : Touches key net net') (h' : Touches key net' net'') : Touches key net net'' where
  rest := by
    rw [h'.rest, h.rest]
    rfl
  others n k hk := (h'.others n k hk).trans (h.others n k hk)

theorem topology (h : Touches key net net') : net'.topology = net.topology := by
  rw [h.rest]
  rfl

theorem routes (h : Touches key net net') : net'.routes = net.routes := by
  rw [h.rest]
  rfl

theorem load (h : Touches key net net') : net'.load = net.load := by
  rw [h.rest]
  rfl

theorem setNext (net : Network R) (n : NodeId) (key : FlowKey) (m : NodeId) :
    Touches key net (net.setNext n key m) where
  rest := rfl
  others n' k hk := by
    have hne : (n', k) ≠ (n, key) := fun h => hk (Prod.mk.inj h).2
    exact next?_setNext_of_ne net hne m

theorem dropNext (net : Network R) (n : NodeId) (key : FlowKey) :
    Touches key net (net.dropNext n key) where
  rest := rfl
  others n' k hk := by
    have hne : (n', k) ≠ (n, key) := fun h => hk (Prod.mk.inj h).2
    exact next?_dropNext_of_ne net hne

theorem dropAll (net : Network R) (key : FlowKey) (ns : List NodeId) :
    Touches key net (net.dropAll key ns) := by
  induction ns generalizing net with
  | nil => exact refl key net
  | cons n rest ih => exact (dropNext net n key).trans (ih (net.dropNext n key))

theorem clear (net : Network R) (key : FlowKey) : Touches key net (net.clear key).2 where
  rest := rfl
  others n k hk := by
    rw [next?_clear, if_neg hk]

end Touches

section Lay

variable {select : Selection R} {key : FlowKey} {dst : NodeId}

/-- Laying a path has arrived, gives up and takes its entries back,
or goes on by one hop to a new node. -/
theorem lay_induction (select : Selection R) (key : FlowKey) (dst : NodeId)
    {P : Network R → List NodeId → Path → Except (Fault R) Path × Network R → Prop}
    (arrived : ∀ net laid p, p.last = dst → P net laid p (.ok p, net))
    (failed : ∀ net laid p e, P net laid p (.error e, net.dropAll key laid))
    (hop : ∀ net laid p hop result, p.last ≠ dst → hop.target ∉ p.nodes →
      net.choose? select p.last dst key = .ok (some hop) →
      P (net.setNext p.last key hop.target) (laid ++ [p.last]) (p.push hop) result →
      P net laid p result)
    (budget : Nat) (net : Network R) (laid : List NodeId) (p : Path) :
    P net laid p (lay select key dst budget net laid p) := by
  fun_induction lay select key dst budget net laid p with
  | case1 budget net laid p h => exact arrived net laid p h
  | case2 budget net laid p _ e => exact failed net laid p e
  | case3 budget net laid p => exact failed net laid p _
  | case4 net laid p => exact failed net laid p _
  | case5 net laid p => exact failed net laid p _
  | case6 net laid p h budget next hc hnew ih => exact hop net laid p next _ h hnew hc ih

theorem touches_lay (select : Selection R) (key : FlowKey) (dst : NodeId) (budget : Nat)
    (net : Network R) (laid : List NodeId) (p : Path) :
    Touches key net (lay select key dst budget net laid p).2 := by
  apply lay_induction select key dst (P := fun net _ _ result => Touches key net result.2)
  · intro net laid p _
    exact .refl key net
  · intro net laid p e
    exact .dropAll net key laid
  · intro net laid p hop result _ _ _ ih
    exact (Touches.setNext net p.last key hop.target).trans ih

theorem Describes.push {net : Network R} {p : Path} (h : net.Describes key p)
    (hp : p.nodes.Nodup) (hop : Hop) :
    (net.setNext p.last key hop.target).Describes key (p.push hop) := by
  intro n m
  rw [Path.steps_push]
  by_cases hn : n = p.last
  · subst hn
    rw [next?_setNext_self]
    constructor
    · intro hm
      exact ⟨hop, List.mem_append_right _ (List.mem_singleton_self _), Option.some.inj hm⟩
    · rintro ⟨hop', hmem, rfl⟩
      rcases List.mem_append.mp hmem with hold | hnew
      · exact absurd rfl (Path.source_ne_last hp hold)
      · rw [(Prod.mk.inj (List.mem_singleton.mp hnew)).2]
  · have hne : (n, key) ≠ (p.last, key) := fun heq => hn (Prod.mk.inj heq).1
    rw [next?_setNext_of_ne net hne, h n m]
    constructor
    · rintro ⟨hop', hmem, htarget⟩
      exact ⟨hop', List.mem_append_left _ hmem, htarget⟩
    · rintro ⟨hop', hmem, htarget⟩
      rcases List.mem_append.mp hmem with hold | hnew
      · exact ⟨hop', hold, htarget⟩
      · exact absurd (Prod.mk.inj (List.mem_singleton.mp hnew)).1 hn

/-- A path that is laid from a simple one is simple and ends at the destination. It is described by
its entries if the first one was. -/
theorem lay_ok {budget : Nat} {net net' : Network R} {laid : List NodeId} {p p' : Path}
    (h : lay select key dst budget net laid p = (.ok p', net')) (hp : p.nodes.Nodup) :
    p'.Joins p.start dst ∧ (net.Describes key p → net'.Describes key p') := by
  have hall := lay_induction select key dst
    (P := fun net _ p result => p.nodes.Nodup → ∀ p' net', result = (.ok p', net') →
      p'.Joins p.start dst ∧ (net.Describes key p → net'.Describes key p'))
    ?_ ?_ ?_ budget net laid p
  · exact hall hp p' net' h
  · rintro net laid p harrived hp p' net' heq
    cases heq
    exact ⟨⟨rfl, harrived, hp⟩, id⟩
  · rintro net laid p e hp p' net' heq
    cases heq
  · intro net laid p hop result _ hnew _ ih hp p' net' heq
    obtain ⟨hjoins, hdescribes⟩ := ih (Path.nodup_push hp hnew) p' net' heq
    exact ⟨hjoins, fun hd => hdescribes (hd.push hp hop)⟩

/-- A search that fails leaves the entries as they were without its own. Those that were there
before stand at nodes that the path has left. -/
theorem lay_error {budget : Nat} {net net' : Network R} {laid : List NodeId} {p : Path}
    {e : Fault R} (h : lay select key dst budget net laid p = (.error e, net'))
    {before : NodeId → Option NodeId}
    (hbefore : ∀ n m, before n = some m → n ∈ p.nodes ∧ n ≠ p.last)
    (hlaid : ∀ n ∈ laid, before n = none) (hrest : ∀ n, n ∉ laid → net.next? n key = before n)
    (n : NodeId) : net'.next? n key = before n := by
  -- The entries that were there, apart from those of the search, stay the same in every step.
  have hall := lay_induction select key dst
    (P := fun net laid p result =>
      (∀ n m, before n = some m → n ∈ p.nodes ∧ n ≠ p.last) → (∀ n ∈ laid, before n = none) →
        (∀ n, n ∉ laid → net.next? n key = before n) → ∀ e net', result = (.error e, net') →
          ∀ n, net'.next? n key = before n)
    ?_ ?_ ?_ budget net laid p
  · exact hall hbefore hlaid hrest e net' h n
  · rintro net laid p harrived hbefore hlaid hrest e net' heq
    cases heq
  · rintro net laid p e hbefore hlaid hrest e' net' heq n
    cases heq
    rw [next?_dropAll]
    split
    · rename_i hn
      exact (hlaid n hn.2).symm
    · rename_i hn
      exact hrest n fun hmem => hn ⟨rfl, hmem⟩
  · intro net laid p hop result _ hnew _ ih hbefore hlaid hrest e' net' heq
    have hlast : before p.last = none :=
      Option.eq_none_iff_forall_ne_some.mpr fun m hm => (hbefore p.last m hm).2 rfl
    refine ih ?_ ?_ ?_ e' net' heq
    · intro n m hm
      obtain ⟨hmem, _⟩ := hbefore n m hm
      rw [Path.nodes_push, Path.last_push]
      exact ⟨List.mem_append_left _ hmem, fun htarget => hnew (htarget ▸ hmem)⟩
    · intro n hn
      rcases List.mem_append.mp hn with hold | hself
      · exact hlaid n hold
      · exact List.mem_singleton.mp hself ▸ hlast
    · intro n hn
      rw [List.mem_append, List.mem_singleton, not_or] at hn
      have hne : (n, key) ≠ (p.last, key) := fun heq => hn.2 (Prod.mk.inj heq).1
      rw [next?_setNext_of_ne net hne]
      exact hrest n hn.1

end Lay

section Build

variable {select : Selection R} {key : FlowKey} {src dst : NodeId} {net net' : Network R}

theorem checkHost_cases (t : Topology R) (n : NodeId) :
    (t.checkHost n = .ok () ∧ n < t.nodes.size) ∨
      ∃ e, t.checkHost n = .error e ∧ e.isBreach = false := by
  unfold Topology.checkHost
  split
  · exact Or.inr ⟨_, rfl, rfl⟩
  · rename_i node hnode
    split
    · exact Or.inl ⟨rfl, Topology.lt_size_of_node? hnode⟩
    · exact Or.inr ⟨_, rfl, rfl⟩

theorem checkHost_of_isHost {t : Topology R} {n : NodeId} (h : t.isHost n = true) :
    t.checkHost n = .ok () := by
  unfold Topology.isHost at h
  unfold Topology.checkHost
  split at h
  · rename_i node hnode
    rw [hnode]
    exact if_pos h
  · cases h

/-- Between different hosts a path is laid. -/
theorem build_of_hosts (select : Selection R) (key : FlowKey)
    (hsrc : net.topology.isHost src = true) (hdst : net.topology.isHost dst = true)
    (hne : src ≠ dst) :
    build select net key src dst = layFrom select net key dst ⟨src, []⟩ := by
  unfold build
  rw [checkHost_of_isHost hsrc, checkHost_of_isHost hdst]
  dsimp only
  rw [if_neg hne]

/-- A search stops at an end that is no host, takes the loop-back within a host, or lays a path. -/
theorem build_cases (select : Selection R) (net : Network R) (key : FlowKey) (src dst : NodeId) :
    (∃ e, e.isBreach = false ∧
      (net.topology.checkHost src = .ok () → net.topology.checkHost dst = .ok () →
        Path.hopBetween? net.topology src src = none) ∧
      build select net key src dst = (.error e, net)) ∨
    (src = dst ∧ ∃ hop, Path.hopBetween? net.topology src src = some hop ∧
      build select net key src dst = (.ok ⟨src, [hop]⟩, net.setNext src key src)) ∨
    (src < net.topology.nodes.size ∧ src ≠ dst ∧
      build select net key src dst = layFrom select net key dst ⟨src, []⟩) := by
  unfold build
  rcases checkHost_cases net.topology src with ⟨hsrc, hlt⟩ | ⟨e, he, hbreach⟩
  · rcases checkHost_cases net.topology dst with ⟨hdst, _⟩ | ⟨e, he, hbreach⟩
    · rw [hsrc, hdst]
      dsimp only
      by_cases heq : src = dst
      · rw [if_pos heq]
        cases hloop : Path.hopBetween? net.topology src src with
        | none => exact Or.inl ⟨_, rfl, fun _ _ => rfl, rfl⟩
        | some hop => exact Or.inr (Or.inl ⟨heq, hop, rfl, rfl⟩)
      · rw [if_neg heq]
        exact Or.inr (Or.inr ⟨hlt, heq, rfl⟩)
    · rw [hsrc, he]
      exact Or.inl ⟨e, hbreach, (fun _ hdst => by cases hdst), rfl⟩
  · rw [he]
    exact Or.inl ⟨e, hbreach, (fun hsrc => by cases hsrc), rfl⟩

theorem touches_build (select : Selection R) (net : Network R) (key : FlowKey)
    (src dst : NodeId) : Touches key net (build select net key src dst).2 := by
  rcases build_cases select net key src dst with ⟨e, _, _, h⟩ | ⟨_, hop, _, h⟩ | ⟨_, _, h⟩
  · rw [h]
    exact .refl key net
  · rw [h]
    exact .setNext net src key src
  · rw [h]
    exact touches_lay select key dst _ net [] _

/-- The way of a flow between two hosts: a simple path, or the loop-back if they are the same. -/
structure Route (t : Topology R) (src dst : NodeId) (p : Path) : Prop where
  start : p.start = src
  last : p.last = dst
  simple : src ≠ dst → p.nodes.Nodup
  loopback : src = dst → ∃ hop, Path.hopBetween? t src src = some hop ∧ p.hops = [hop]

theorem Route.hops_ne_nil {t : Topology R} {p : Path} (h : Route t src dst p) : p.hops ≠ [] := by
  by_cases heq : src = dst
  · obtain ⟨hop, _, hhops⟩ := h.loopback heq
    rw [hhops]
    exact List.cons_ne_nil _ _
  · apply Path.hops_ne_nil
    rw [h.start, h.last]
    exact heq

theorem Describes.empty (h : net.Lacks key) (n : NodeId) : net.Describes key ⟨n, []⟩ := by
  intro n m
  rw [h n]
  constructor
  · intro hm
    cases hm
  · rintro ⟨_, hmem, _⟩
    cases hmem

/-- A search that succeeds finds a way between the hosts,
and its entries are the only ones of a flow that had none. -/
theorem build_ok {p : Path} (h : build select net key src dst = (.ok p, net')) :
    Route net.topology src dst p ∧ (net.Lacks key → net'.Describes key p) := by
  have hsimple : (⟨src, []⟩ : Path).nodes.Nodup := List.pairwise_singleton _ _
  rcases build_cases select net key src dst with
    ⟨e, _, _, hb⟩ | ⟨heq, hop, hhop, hb⟩ | ⟨_, hne, hb⟩
  · cases hb.symm.trans h
  · cases hb.symm.trans h
    have htarget : hop.target = src := Path.target_of_hopBetween? hhop
    refine ⟨⟨rfl, htarget.trans heq, fun hne => absurd heq hne, fun _ => ⟨hop, hhop, rfl⟩⟩, ?_⟩
    intro hlacks
    have hpushed := (Describes.empty hlacks src).push hsimple hop
    rw [htarget] at hpushed
    exact hpushed
  · rw [hb] at h
    obtain ⟨hjoins, hd⟩ := lay_ok h hsimple
    have hroute : Route net.topology src dst p :=
      ⟨hjoins.start, hjoins.last, fun _ => hjoins.simple, fun heq => absurd heq hne⟩
    exact ⟨hroute, fun hlacks => hd (.empty hlacks src)⟩

theorem build_error {e : Fault R} (h : build select net key src dst = (.error e, net'))
    (hlacks : net.Lacks key) : net'.Lacks key := by
  rcases build_cases select net key src dst with ⟨e', _, _, hb⟩ | ⟨_, hop, _, hb⟩ | ⟨_, _, hb⟩
  · cases hb.symm.trans h
    exact hlacks
  · cases hb.symm.trans h
  · rw [hb] at h
    exact fun n => lay_error h (fun n m hm => by cases hm) (fun n _ => rfl) (fun n _ => hlacks n) n

end Build

section Rebuild

variable {select : Selection R} {key : FlowKey}

theorem touches_removeAlong (key : FlowKey) (budget : Nat) (net : Network R)
    (removed : List NodeId) (here : NodeId) :
    Touches key net (removeAlong key budget net removed here).2 := by
  fun_induction removeAlong key budget net removed here with
  | case1 net => exact .refl key net
  | case2 _ net => exact .refl key net
  | case3 _ net _ here => exact .dropNext net here key
  | case4 _ net _ here _ _ _ _ _ ih => exact (Touches.dropNext net here key).trans ih

theorem touches_removeFrom (net : Network R) (key : FlowKey) (start : NodeId) :
    Touches key net (net.removeFrom key start).2 :=
  touches_removeAlong key net.forwarding.size net [] start

theorem lacks_clear (net : Network R) (key : FlowKey) : (net.clear key).2.Lacks key := by
  intro n
  rw [next?_clear, if_pos rfl]

theorem clear_dropNext (net : Network R) (n : NodeId) (key : FlowKey) :
    ((net.dropNext n key).clear key).2 = (net.clear key).2 := by
  have hforwarding : (net.forwarding.erase (n, key)).filter (fun e => e.1.2 != key) =
      net.forwarding.filter fun e => e.1.2 != key := by
    ext1
    show (List.filter _ (List.filter _ _)) = List.filter _ _
    rw [List.filter_filter]
    refine List.filter_congr fun e _ => ?_
    -- An entry that is dropped belongs to the flow.
    by_cases he : e.1 = (n, key) <;> simp [he]
  show net.withForwarding _ = net.withForwarding _
  exact congrArg net.withForwarding hforwarding

/-- What was removed along the way would have been cleared anyway. -/
theorem clear_removeFrom (net : Network R) (key : FlowKey) (start : NodeId) :
    ((net.removeFrom key start).2.clear key).2 = (net.clear key).2 := by
  unfold removeFrom
  generalize net.forwarding.size = budget
  generalize ([] : List NodeId) = removed
  fun_induction removeAlong key budget net removed start with
  | case1 net => rfl
  | case2 _ net => rfl
  | case3 _ net _ here => exact clear_dropNext net here key
  | case4 _ net _ here _ _ _ _ _ ih => exact ih.trans (clear_dropNext net here key)

/-- The old end from which entries are followed does not matter, as long as it is a node. -/
theorem rebuild_eq {net : Network R} {old : NodeId} (h : net.topology.containsNode old = true)
    (select : Selection R) (key : FlowKey) (src dst : NodeId) :
    net.rebuild select key old src dst = build select (net.clear key).2 key src dst := by
  unfold rebuild
  rw [if_pos h, clear_removeFrom]

theorem touches_rebuild (select : Selection R) (net : Network R) (key : FlowKey)
    (old src dst : NodeId) : Touches key net (net.rebuild select key old src dst).2 := by
  by_cases h : net.topology.containsNode old = true
  · rw [rebuild_eq h]
    exact (Touches.clear net key).trans (touches_build select _ key src dst)
  · unfold rebuild
    rw [if_neg h]
    exact .refl key net

end Rebuild

section Update

variable {select : Selection R} {key : FlowKey} {dst : NodeId}

theorem touches_follow (select : Selection R) (key : FlowKey) (dst : NodeId) (budget : Nat)
    (net : Network R) (p : Path) : Touches key net (follow select key dst budget net p).2 := by
  have hanew (net : Network R) (p : Path) (here : NodeId) :
      Touches key net (layFrom select (net.removeFrom key here).2 key dst p).2 :=
    (touches_removeAlong key _ net [] here).trans (touches_lay select key dst _ _ [] p)
  fun_induction follow select key dst budget net p with
  | case1 => exact .refl key _
  | case2 => exact .refl key _
  | case3 _ _ _ _ _ _ _ _ _ _ ih => exact ih
  | case4 _ net p _ _ _ _ _ _ net' h =>
    have hlaid := hanew net p p.last
    rw [h] at hlaid
    exact hlaid
  | case5 _ net p _ _ _ _ _ _ net' h =>
    have hlaid := hanew net p p.last
    rw [h] at hlaid
    exact hlaid

theorem touches_update (select : Selection R) (net : Network R) (key : FlowKey)
    (src dst : NodeId) : Touches key net (net.update select key src dst).2 := by
  unfold update
  split
  · exact .refl key net
  · exact .refl key net
  · split
    · exact .refl key net
    · exact touches_follow select key dst _ net _

/-- A path that is read back leads from the first host to the second and has a hop. -/
theorem walkAlong_ok {net : Network R} {budget : Nat} {p p' : Path}
    (h : walkAlong net key dst budget p = .ok p') :
    p'.start = p.start ∧ p'.last = dst ∧ p'.hops ≠ [] := by
  have hpush (q : Path) (hop : Hop) : (q.push hop).hops ≠ [] :=
    List.append_ne_nil_of_right_ne_nil _ (List.cons_ne_nil _ _)
  fun_induction walkAlong net key dst budget p with
  | case1 => cases h
  | case2 _ p _ hop _ htarget hdst =>
    cases h
    exact ⟨rfl, (Path.last_push p hop).trans (htarget.trans hdst), hpush p hop⟩
  | case3 => cases h
  | case4 => cases h
  | case5 _ p _ hop _ _ _ hdst =>
    cases h
    exact ⟨rfl, (Path.last_push p hop).trans hdst, hpush p hop⟩
  | case6 => cases h
  | case7 _ _ _ _ _ _ _ _ ih => exact ih h

theorem walk_ok {net : Network R} {src : NodeId} {p : Path} (h : walk net key src dst = .ok p) :
    p.start = src ∧ p.last = dst ∧ p.hops ≠ [] := by
  unfold walk at h
  split at h
  · exact walkAlong_ok h
  · cases h

theorem touches_resolve (select : Selection R) (net : Network R) (key : FlowKey)
    (src dst : NodeId) (dynamic : Bool) :
    Touches key net (net.resolve select key src dst dynamic).2 := by
  unfold resolve
  split
  · exact .refl key net
  · exact .refl key net
  · cases net.next? src key with
    | none => exact touches_build select net key src dst
    | some _ =>
      have hupdate : Touches key net
          (if dynamic then update select net key src dst else (.ok false, net)).2 := by
        split
        · exact touches_update select net key src dst
        · exact .refl key net
      dsimp only
      split
      · exact hupdate
      · split
        · exact hupdate
        · exact hupdate.trans (touches_rebuild select _ key src src dst)

/-- A path that is read back or found has a hop. -/
theorem hops_ne_nil_of_resolve {net : Network R} {src : NodeId} {dynamic : Bool} {p : Path}
    (h : (net.resolve select key src dst dynamic).1 = .ok p) : p.hops ≠ [] := by
  have hbuild (net : Network R) (h : (build select net key src dst).1 = .ok p) : p.hops ≠ [] := by
    have hpair : build select net key src dst = (.ok p, (build select net key src dst).2) :=
      Prod.ext h rfl
    exact (build_ok hpair).1.hops_ne_nil
  have hrebuild (net : Network R) (h : (net.rebuild select key src src dst).1 = .ok p) :
      p.hops ≠ [] := by
    unfold rebuild at h
    split at h
    · exact hbuild _ h
    · cases h
  unfold resolve at h
  split at h
  · cases h
  · cases h
  · split at h
    · exact hbuild net h
    · generalize (if dynamic = true then update select net key src dst
        else (Except.ok false, net)) = updated at h
      dsimp only at h
      split at h
      · cases h
      · split at h
        · rename_i hwalk
          cases h
          exact (walk_ok hwalk).2.2
        · exact hrebuild updated.2 h

end Update

end Network

end FlowFabric
