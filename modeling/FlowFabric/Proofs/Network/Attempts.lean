import FlowFabric.Proofs.Network.Readback

/-! A search as the steps that it can take, without a budget. No step leads back to a node that was
met, whatever links the selection names. -/

namespace FlowFabric

/-- A selection that always answers, with some link of the topology. -/
def Selection.Names {R : Type} (select : Selection R) (t : Topology R) : Prop :=
  ∀ net here dst key cs, net.topology = t → cs ≠ [] →
    ∃ l, select net here dst key cs = some l ∧ (t.link? l).isSome = true

namespace Network

variable {R : Type} {select : Selection R} {key : FlowKey} {dst : NodeId} {net net' : Network R}

section Drops

/-- Dropping entries of a flow at some nodes keeps all the others in their order. -/
theorem dropAll_eq_filter (net : Network R) (key : FlowKey) (ns : List NodeId) :
    net.dropAll key ns =
      net.withForwarding (net.forwarding.filter fun e => !(e.1.2 == key && ns.contains e.1.1)) := by
  induction ns generalizing net with
  | nil =>
    have hall : net.forwarding.filter (fun e => !(e.1.2 == key && [].contains e.1.1)) =
        net.forwarding := by
      apply Table.ext
      simp [Table.filter]
    rw [hall]
    rfl
  | cons n rest ih =>
    have hhead : net.dropAll key (n :: rest) = (net.dropNext n key).dropAll key rest := rfl
    rw [hhead, ih]
    have htables : (net.forwarding.erase (n, key)).filter
          (fun e => !(e.1.2 == key && rest.contains e.1.1)) =
        net.forwarding.filter fun e => !(e.1.2 == key && (n :: rest).contains e.1.1) := by
      apply Table.ext
      show (List.filter _ (List.filter _ _)) = List.filter _ _
      rw [List.filter_filter]
      apply List.filter_congr
      intro e _
      obtain ⟨⟨m, k⟩, next⟩ := e
      -- An entry goes at the first node if it is there and of the flow.
      by_cases hk : k = key
      · by_cases hm : m = n <;> simp [hk, hm]
      · have hother : (k == key) = false := beq_false_of_ne hk
        simp [hother, hk]
    show net.withForwarding _ = net.withForwarding _
    rw [← htables]
    rfl

/-- What is dropped may as well not have been set. -/
theorem dropAll_setNext {n : NodeId} {ns : List NodeId} (h : n ∈ ns) (net : Network R)
    (m : NodeId) : (net.setNext n key m).dropAll key ns = net.dropAll key ns := by
  rw [dropAll_eq_filter, dropAll_eq_filter]
  have htables := Table.filter_insert
    (p := fun e : NodeId × FlowKey => !(e.2 == key && ns.contains e.1)) (k := (n, key))
    (by simp [h]) net.forwarding m
  exact congrArg net.withForwarding htables

theorem dropAll_of_lacks (h : net.Lacks key) (ns : List NodeId) : net.dropAll key ns = net := by
  have hall : net.forwarding.filter (fun e => !(e.1.2 == key && ns.contains e.1.1)) =
      net.forwarding := by
    apply Table.ext
    apply List.filter_eq_self.mpr
    intro e he
    obtain ⟨⟨n, k⟩, m⟩ := e
    have hk : k ≠ key := by
      rintro rfl
      cases (Table.get?_eq_some_iff.mpr he).symm.trans (h n)
    simp [hk]
  rw [dropAll_eq_filter, hall]
  rfl

end Drops

/-- How far a search can get from a path: the nodes at which it has set an entry,
its path, and the network as it is then. -/
inductive Attempt (select : Selection R) (key : FlowKey) (dst : NodeId) (net : Network R)
    (origin : Path) : List NodeId → Path → Network R → Prop where
  | start : Attempt select key dst net origin [] origin net
  | hop {laid : List NodeId} {p : Path} {reached : Network R} {hop : Hop}
      (h : Attempt select key dst net origin laid p reached) (hne : p.last ≠ dst)
      (hc : reached.choose? select p.last dst key = .ok (some hop)) (hnew : hop.target ∉ p.nodes) :
      Attempt select key dst net origin (laid ++ [p.last]) (p.push hop)
        (reached.setNext p.last key hop.target)

/-- Why a search goes no further, short of its destination. -/
inductive Stuck (select : Selection R) (key : FlowKey) (dst : NodeId) (reached : Network R)
    (p : Path) : Fault R → Prop where
  /-- Routing offers no link. -/
  | noRoute (hne : p.last ≠ dst) (hc : reached.choose? select p.last dst key = .ok none) :
      Stuck select key dst reached p (.noRoute p.last dst)
  /-- The link that is taken leads back. -/
  | loop {hop : Hop} (hne : p.last ≠ dst)
      (hc : reached.choose? select p.last dst key = .ok (some hop)) (hmet : hop.target ∈ p.nodes) :
      Stuck select key dst reached p (.routingLoop hop.target key)
  /-- The selection names no link. -/
  | silent {e : Fault R} (hne : p.last ≠ dst)
      (hc : reached.choose? select p.last dst key = .error e) : Stuck select key dst reached p e

namespace Attempt

variable {origin p : Path} {laid : List NodeId} {reached : Network R}

theorem touches (h : Attempt select key dst net origin laid p reached) :
    Touches key net reached := by
  induction h with
  | start => exact .refl key net
  | hop _ _ _ _ ih => exact ih.trans (.setNext _ _ key _)

theorem nodup (h : Attempt select key dst net origin laid p reached)
    (horigin : origin.nodes.Nodup) : p.nodes.Nodup := by
  induction h with
  | start => exact horigin
  | hop _ _ _ hnew ih => exact Path.nodup_push ih hnew

/-- Entries are set at the nodes that the path has left since its origin. -/
theorem map_fst_steps (h : Attempt select key dst net origin laid p reached) :
    p.steps.map Prod.fst = origin.steps.map Prod.fst ++ laid := by
  induction h with
  | start => rw [List.append_nil]
  | hop _ _ _ _ ih => rw [Path.steps_push, List.map_append, ih, List.append_assoc]; rfl

/-- Once its entries are dropped, nothing tells that a search was made. -/
theorem dropAll_eq (h : Attempt select key dst net origin laid p reached) {ns : List NodeId}
    (hns : laid ⊆ ns) : reached.dropAll key ns = net.dropAll key ns := by
  induction h with
  | start => rfl
  | hop _ _ _ _ ih =>
    -- The last entry was set at a node that is dropped, so it may as well not be there.
    obtain ⟨hold, hnew⟩ := List.append_subset.mp hns
    rw [dropAll_setNext (hnew (List.mem_singleton_self _))]
    exact ih hold

variable [Quantity R]

/-- Whatever link is named, its ends are nodes. -/
theorem lt_size_of_choose? {here : NodeId} {hop : Hop} (ht : net.topology.WellFormed)
    (hc : net.choose? select here dst key = .ok (some hop)) :
    hop.target < net.topology.nodes.size := by
  unfold choose? at hc
  split at hc
  · cases hc
  · split at hc
    · rename_i hop' hhop
      cases hc
      obtain ⟨l, _, hl⟩ := Option.bind_eq_some_iff.mp hhop
      obtain ⟨link, hlink, rfl⟩ := Option.map_eq_some_iff.mp hl
      obtain ⟨hhigh, hlow⟩ := ht.ends hlink
      show link.otherEnd here < net.topology.nodes.size
      unfold Link.otherEnd
      split
      · exact hlow
      · exact hhigh
    · cases hc

theorem target_lt (h : Attempt select key dst net origin laid p reached)
    (ht : net.topology.WellFormed) (horigin : ∀ hop ∈ origin.hops,
      hop.target < net.topology.nodes.size) :
    ∀ hop ∈ p.hops, hop.target < net.topology.nodes.size := by
  induction h with
  | start => exact horigin
  | @hop laid p reached hop h hne hc hnew ih =>
    intro next hnext
    rcases List.mem_append.mp hnext with hold | hlast
    · exact ih next hold
    · rw [List.mem_singleton.mp hlast]
      have htopology := h.touches.topology
      have hlt := lt_size_of_choose? (htopology ▸ ht) hc
      rwa [htopology] at hlt

/-- The nodes that hops lead to are all different, so that there are no more hops than nodes. -/
theorem length_hops_le (h : Attempt select key dst net origin laid p reached)
    (ht : net.topology.WellFormed) (hsimple : origin.nodes.Nodup)
    (horigin : ∀ hop ∈ origin.hops, hop.target < net.topology.nodes.size) :
    p.hops.length ≤ net.topology.nodes.size := by
  have hnodup : (p.hops.map Hop.target).Nodup := (List.nodup_cons.mp (h.nodup hsimple)).2
  have hbound : ∀ n ∈ p.hops.map Hop.target, n < net.topology.nodes.size := by
    intro n hn
    obtain ⟨hop, hhop, rfl⟩ := List.mem_map.mp hn
    exact h.target_lt ht horigin hop hhop
  have hle := Routes.length_le_of_nodup hnodup hbound
  rwa [List.length_map] at hle

end Attempt

section Search

variable {origin p : Path} {laid : List NodeId} {reached : Network R} {budget : Nat} {e : Fault R}

/-- A search has arrived, it is stuck, or there is one more hop to take. -/
theorem arrived_or_stuck (select : Selection R) (key : FlowKey) (dst : NodeId) (reached : Network R)
    (p : Path) : p.last = dst ∨ (∃ e, Stuck select key dst reached p e) ∨
      ∃ hop, p.last ≠ dst ∧ reached.choose? select p.last dst key = .ok (some hop) ∧
        hop.target ∉ p.nodes := by
  by_cases harrived : p.last = dst
  · exact Or.inl harrived
  · right
    cases hc : reached.choose? select p.last dst key with
    | error e => exact Or.inl ⟨e, .silent harrived hc⟩
    | ok chosen =>
      cases chosen with
      | none => exact Or.inl ⟨_, .noRoute harrived hc⟩
      | some hop =>
        by_cases hmet : hop.target ∈ p.nodes
        · exact Or.inl ⟨_, .loop harrived hc hmet⟩
        · exact Or.inr ⟨hop, harrived, rfl, hmet⟩

/-- A search that is stuck drops the entries that it has set, whatever its budget. -/
theorem Stuck.lay (h : Stuck select key dst reached p e) (budget : Nat) (laid : List NodeId) :
    lay select key dst budget reached laid p = (.error e, reached.dropAll key laid) := by
  cases h with
  | noRoute hne hc => exact lay_of_no_route hne hc
  | loop hne hc hmet =>
    unfold Network.lay
    rw [if_neg hne, hc]
    cases budget with
    | zero => rfl
    | succ budget => exact if_pos hmet
  | silent hne hc => exact lay_of_error hne hc

/-- A selection that names a link of the topology makes no search break off. -/
theorem Stuck.not_isBreach (h : Stuck select key dst reached p e)
    (hsel : select.Names reached.topology) : e.isBreach = false := by
  cases h with
  | noRoute _ _ => rfl
  | loop _ _ _ => rfl
  | silent _ hc =>
    exfalso
    unfold choose? at hc
    split at hc
    · cases hc
    · obtain ⟨l, hl, hlink⟩ := hsel reached p.last dst key _ rfl (List.cons_ne_nil _ _)
      obtain ⟨link, hlink⟩ := Option.isSome_iff_exists.mp hlink
      rw [hl, Option.bind_some, Path.hop?, hlink] at hc
      cases hc

variable [Quantity R]

/-- A search ends as an attempt that has arrived, or as one that is stuck. Its budget plays no part,
since it lasts for all the nodes that are left. -/
theorem Attempt.lay (h : Attempt select key dst net origin laid p reached)
    (ht : net.topology.WellFormed) (hsimple : origin.nodes.Nodup)
    (horigin : ∀ hop ∈ origin.hops, hop.target < net.topology.nodes.size)
    (hbudget : net.topology.nodes.size ≤ budget + p.hops.length) :
    ∃ laid' p' reached', Attempt select key dst net origin laid' p' reached' ∧
      ((p'.last = dst ∧ lay select key dst budget reached laid p = (.ok p', reached')) ∨
        ∃ e, Stuck select key dst reached' p' e ∧
          lay select key dst budget reached laid p = (.error e, reached'.dropAll key laid')) := by
  -- The invariant is that the budget and the hops taken suffice for all nodes.
  induction budget generalizing laid p reached with
  | zero =>
    refine ⟨laid, p, reached, h, ?_⟩
    rcases arrived_or_stuck select key dst reached p with
      harrived | ⟨e, hstuck⟩ | ⟨hop, hne, hc, hnew⟩
    · exact Or.inl ⟨harrived, lay_of_arrived harrived⟩
    · exact Or.inr ⟨e, hstuck, hstuck.lay 0 laid⟩
    · -- All nodes have been met, so that there is none left to go to.
      have hle := (h.hop hne hc hnew).length_hops_le ht hsimple horigin
      simp only [Path.push, List.length_append, List.length_singleton] at hle
      omega
  | succ budget ih =>
    rcases arrived_or_stuck select key dst reached p with
      harrived | ⟨e, hstuck⟩ | ⟨hop, hne, hc, hnew⟩
    · exact ⟨laid, p, reached, h, Or.inl ⟨harrived, lay_of_arrived harrived⟩⟩
    · exact ⟨laid, p, reached, h, Or.inr ⟨e, hstuck, hstuck.lay (budget + 1) laid⟩⟩
    · rw [lay_of_hop hne hc hnew]
      apply ih (h.hop hne hc hnew)
      simp only [Path.push, List.length_append, List.length_singleton]
      omega

end Search

section Build

variable [Quantity R] {src : NodeId}

/-- Between two hosts a search is an attempt that has arrived, the loop-back of a host, or an
attempt that is stuck and whose entries are dropped. It is refused if an end is no host. -/
theorem build_attempts (ht : net.topology.Constructed) (select : Selection R) (key : FlowKey)
    (src dst : NodeId) :
    (∃ e, e.isBreach = false ∧ ¬ (net.topology.isHost src = true ∧ net.topology.isHost dst = true) ∧
      build select net key src dst = (.error e, net)) ∨
    (∃ hop, src < net.topology.nodes.size ∧ Path.hopBetween? net.topology src src = some hop ∧
      build select net key src dst = (.ok ⟨src, [hop]⟩, net.setNext src key src)) ∨
    ∃ laid p reached, Attempt select key dst net ⟨src, []⟩ laid p reached ∧
      ((p.last = dst ∧ build select net key src dst = (.ok p, reached)) ∨
        ∃ e, Stuck select key dst reached p e ∧
          build select net key src dst = (.error e, net.dropAll key laid)) := by
  rcases build_cases select net key src dst with
    ⟨e, he, hnone, hb⟩ | ⟨_, hop, hhop, hb⟩ | ⟨_, _, hb⟩
  · -- From a host there is always a hop back to it, so one of the ends is none.
    refine Or.inl ⟨e, he, ?_, hb⟩
    rintro ⟨hsrc, hdst⟩
    obtain ⟨hop, hhop, _⟩ := ht.hopBetween?_self (checkHost_of_isHost hsrc)
    cases (hnone (checkHost_of_isHost hsrc) (checkHost_of_isHost hdst)).symm.trans hhop
  · refine Or.inr (Or.inl ⟨hop, ?_, hhop, hb⟩)
    have hfollows := follows_of_hopBetween? ht.wellFormed hhop
    have hlt := hfollows.lt_size ht.wellFormed
    rwa [Path.target_of_hopBetween? hhop] at hlt
  · have hstart : Attempt select key dst net ⟨src, []⟩ [] ⟨src, []⟩ net := .start
    obtain ⟨laid, p, reached, h, hend⟩ := hstart.lay ht.wellFormed (List.pairwise_singleton _ _)
      (fun _ hhop => by cases hhop) (Nat.le_add_right _ _)
    refine Or.inr (Or.inr ⟨laid, p, reached, h, ?_⟩)
    rw [hb]
    rcases hend with harrived | ⟨e, hstuck, hlay⟩
    · exact Or.inl harrived
    · rw [h.dropAll_eq (List.Subset.refl laid)] at hlay
      exact Or.inr ⟨e, hstuck, hlay⟩

theorem Attempt.length_le_of_start {laid : List NodeId} {p : Path} {reached : Network R}
    (h : Attempt select key dst net ⟨src, []⟩ laid p reached) (ht : net.topology.Constructed) :
    p.hops.length ≤ net.topology.nodes.size :=
  h.length_hops_le ht.wellFormed (List.pairwise_singleton _ _) fun _ hhop => by cases hhop

/-- A search that fails drops the entries that it has set and no others. -/
theorem build_failed (ht : net.topology.Constructed) {e : Fault R}
    (h : build select net key src dst = (.error e, net')) :
    ∃ laid p reached, Attempt select key dst net ⟨src, []⟩ laid p reached ∧
      (Stuck select key dst reached p e ∨ laid = [] ∧ e.isBreach = false ∧
        ¬ (net.topology.isHost src = true ∧ net.topology.isHost dst = true)) ∧
      net' = net.dropAll key laid := by
  rcases build_attempts ht select key src dst with
    ⟨e', he, hends, hb⟩ | ⟨hop, _, _, hb⟩ | ⟨laid, p, reached, hattempt, ⟨_, hb⟩ | ⟨e', hstuck, hb⟩⟩
  · cases hb.symm.trans h
    exact ⟨[], ⟨src, []⟩, net, .start, Or.inr ⟨rfl, he, hends⟩, rfl⟩
  · cases hb.symm.trans h
  · cases hb.symm.trans h
  · cases hb.symm.trans h
    exact ⟨laid, p, reached, hattempt, Or.inl hstuck, rfl⟩

theorem build_not_isBreach (ht : net.topology.Constructed) (hsel : select.Names net.topology)
    {e : Fault R} (h : build select net key src dst = (.error e, net')) : e.isBreach = false := by
  obtain ⟨laid, p, reached, hattempt, hstuck | ⟨_, he, _⟩, _⟩ := build_failed ht h
  · apply hstuck.not_isBreach
    rwa [hattempt.touches.topology]
  · exact he

/-- Whatever the selection and the entries, a search cannot get further than there are nodes. If it
fails, it is because it is stuck or because an end is no host, and the entries of the flow at the
nodes where it has set one are gone; all the others are as they were. A flow that is given a new
path has the entries of this path or none, and other flows keep theirs. -/
theorem failed_searches_clean_up (select : Selection R) {net : Network R}
    (ht : net.topology.Constructed) (key : FlowKey) (src dst : NodeId) :
    (∀ laid p reached, Attempt select key dst net ⟨src, []⟩ laid p reached →
      p.hops.length ≤ net.topology.nodes.size) ∧
    (∀ p net', build select net key src dst = (.ok p, net') →
      p.hops.length ≤ net.topology.nodes.size) ∧
    (∀ e net', build select net key src dst = (.error e, net') →
      (∃ laid p reached, Attempt select key dst net ⟨src, []⟩ laid p reached ∧
        (Stuck select key dst reached p e ∨
          laid = [] ∧ ¬ (net.topology.isHost src = true ∧ net.topology.isHost dst = true)) ∧
        net' = net.dropAll key laid ∧
        ∀ n k, net'.next? n k = if k = key ∧ n ∈ laid then none else net.next? n k) ∧
      (net.Lacks key → net' = net) ∧ (select.Names net.topology → e.isBreach = false)) ∧
    ∀ old, net.topology.containsNode old = true →
      (∀ e net', net.rebuild select key old src dst = (.error e, net') →
        net'.Lacks key ∧ Touches key net net' ∧ (select.Names net.topology → e.isBreach = false)) ∧
      ∀ p net', net.rebuild select key old src dst = (.ok p, net') →
        net'.Describes key p ∧ Touches key net net' := by
  refine ⟨fun laid p reached h => h.length_le_of_start ht, ?_, ?_, ?_⟩
  · intro p net' h
    rcases build_attempts ht select key src dst with
      ⟨e, _, _, hb⟩ | ⟨hop, hlt, _, hb⟩ | ⟨laid, p', reached, hattempt, ⟨_, hb⟩ | ⟨e, _, hb⟩⟩
    · cases hb.symm.trans h
    · cases hb.symm.trans h
      exact Nat.one_le_of_lt hlt
    · cases hb.symm.trans h
      exact hattempt.length_le_of_start ht
    · cases hb.symm.trans h
  · intro e net' h
    obtain ⟨laid, p, reached, hattempt, hwhy, hdropped⟩ := build_failed ht h
    refine ⟨⟨laid, p, reached, hattempt, ?_, hdropped, ?_⟩, ?_,
      fun hsel => build_not_isBreach ht hsel h⟩
    · exact hwhy.imp_right fun hrefused => ⟨hrefused.1, hrefused.2.2⟩
    · intro n k
      rw [hdropped]
      exact next?_dropAll net key k laid n
    · intro hlacks
      rw [hdropped]
      exact dropAll_of_lacks hlacks laid
  · intro old hold
    have hrebuild := rebuild_eq hold select key src dst
    have htouches := touches_rebuild select net key old src dst
    -- The search begins in a network without entries of the flow.
    have hlacks : (net.clear key).2.Lacks key := lacks_clear net key
    have hcleared : (net.clear key).2.topology.Constructed := ht
    constructor
    · intro e net' h
      rw [h] at htouches hrebuild
      exact ⟨build_error hrebuild.symm hlacks, htouches,
        fun hsel => build_not_isBreach hcleared hsel hrebuild.symm⟩
    · intro p net' h
      rw [h] at htouches hrebuild
      exact ⟨(build_ok hrebuild.symm).2 hlacks, htouches⟩

/-- At the switch the selection names the loop-back of the first host. A search from there comes
back to where it was, and one that goes there arrives. -/
theorem rack_failed_search_cleans_up :
    let key : FlowKey := ⟨1, 2, 7⟩
    let rack : Network Exact :=
      ({ Network.empty .tree with topology := Topology.rack } : Network Exact).buildRoutes
    let net := (rack.setNext 0 key 1).setNext 1 key 2
    let stray : Selection Exact := fun _ here _ _ _ =>
      some (if here = 0 then 2 else if here = 1 then 3 else 0)
    let back : Path := ⟨1, [⟨⟨3, .up⟩, 2⟩, ⟨⟨0, .down⟩, 0⟩]⟩
    net.topology.Constructed ∧ stray.Names net.topology ∧
      (∃ net', build stray net key 0 1 = (.error (.routingLoop 0 key), net') ∧
        ∃ laid p reached, Attempt stray key 1 net ⟨0, []⟩ laid p reached ∧
          p.hops.length ≤ net.topology.nodes.size ∧
          (Stuck stray key 1 reached p (.routingLoop 0 key) ∨
            laid = [] ∧ ¬ (net.topology.isHost 0 = true ∧ net.topology.isHost 1 = true)) ∧
          net' = net.dropAll key laid) ∧
      (∃ net', net.rebuild stray key 1 0 1 = (.error (.routingLoop 0 key), net') ∧ net'.Lacks key ∧
        Touches key net net') ∧
      ∃ net', net.rebuild stray key 0 1 0 = (.ok back, net') ∧ net'.Describes key back ∧
        Touches key net net' := by
  intro key rack net stray back
  have ht : net.topology.Constructed := Topology.rack_constructed
  have hnames : stray.Names net.topology := by
    intro other here dst key cs _ _
    have hbound : ∀ l < 4, (net.topology.link? l).isSome = true := by decide
    refine ⟨_, rfl, hbound _ ?_⟩
    split_ifs <;> decide
  obtain ⟨hattempts, _, hfailed, hrebuilt⟩ := failed_searches_clean_up stray ht key 0 1
  have hbuild : (build stray net key 0 1).1 = .error (.routingLoop 0 key) := by decide +kernel
  have hfails : (net.rebuild stray key 1 0 1).1 = .error (.routingLoop 0 key) := by decide +kernel
  have hback : (net.rebuild stray key 0 1 0).1 = .ok back := by decide +kernel
  have hlast := ((failed_searches_clean_up stray ht key 1 0).2.2.2 0 rfl).2 back
  have hrefused := (hrebuilt 1 rfl).1 (.routingLoop 0 key)
  have hfailed := hfailed (.routingLoop 0 key)
  -- The networks that are left matter only by what the theorem says of them.
  generalize build stray net key 0 1 = built at hbuild hfailed ⊢
  generalize net.rebuild stray key 1 0 1 = failed at hfails hrefused ⊢
  generalize net.rebuild stray key 0 1 0 = found at hback hlast ⊢
  refine ⟨ht, hnames, ⟨built.2, Prod.ext hbuild rfl, ?_⟩, ⟨failed.2, Prod.ext hfails rfl, ?_⟩,
    ⟨found.2, Prod.ext hback rfl, hlast _ (Prod.ext hback rfl)⟩⟩
  · obtain ⟨⟨laid, p, reached, h, hwhy, hdropped, _⟩, _⟩ := hfailed _ (Prod.ext hbuild rfl)
    exact ⟨laid, p, reached, h, hattempts laid p reached h, hwhy, hdropped⟩
  · obtain ⟨hlacks, htouches, _⟩ := hrefused _ (Prod.ext hfails rfl)
    exact ⟨hlacks, htouches⟩

end Build

end Network

end FlowFabric
