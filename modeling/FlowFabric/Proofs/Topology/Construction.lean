import FlowFabric.Quantity.Exact
import FlowFabric.Topology.Basic
import Mathlib.Logic.Relation

namespace FlowFabric

namespace ChangeM

variable {R σ α β : Type} {test : Except (Fault R) Unit} {s s' : σ} {a : α}

theorem run_bind {m : ChangeM R σ α} {f : α → ChangeM R σ β} (h : m.run.run s = (.ok a, s')) :
    (m >>= f).run.run s = (f a).run.run s' := by
  rw [ExceptT.run_bind, StateT.run_bind, h]
  rfl

theorem run_get_bind (f : σ → ChangeM R σ α) (s : σ) :
    ((get : ChangeM R σ σ) >>= f).run.run s = (f s).run.run s := rfl

theorem run_check_bind (h : test = .ok ()) (f : Unit → ChangeM R σ α) (s : σ) :
    (liftM test >>= f).run.run s = (f ()).run.run s := by
  rw [h]
  rfl

/-- After a check that is passed the state is what it was. -/
theorem check_ok {f : Unit → ChangeM R σ α} (h : (liftM test >>= f).run.run s = (.ok a, s')) :
    test = .ok () ∧ (f ()).run.run s = (.ok a, s') := by
  cases test with
  | error e => cases h
  | ok u => exact ⟨rfl, h⟩

/-- A change that fails has not changed anything yet. -/
def Cautious (m : ChangeM R σ α) (s : σ) : Prop :=
  ∀ e s', m.run.run s = (.error e, s') → s' = s

namespace Cautious

theorem fault (e : Fault R) (s : σ) : (throw e : ChangeM R σ α).Cautious s := fun _ _ h => by
  cases h
  rfl

theorem get {f : σ → ChangeM R σ α} (h : (f s).Cautious s) :
    ((MonadState.get : ChangeM R σ σ) >>= f).Cautious s := h

theorem check {f : Unit → ChangeM R σ α} (h : (f ()).Cautious s) :
    (liftM test >>= f).Cautious s := by
  cases test with
  | error e => exact fault e s
  | ok u => exact h

/-- The last step may write, since it does not fail. -/
theorem write (new : σ) (a : α) (s : σ) :
    ((MonadState.set new : ChangeM R σ PUnit) >>= fun _ => pure a).Cautious s := fun _ _ h => by
  cases h

end Cautious

end ChangeM

namespace Topology

variable {R : Type} [Quantity R]

/-- One successful call of the construction functions. -/
inductive Step (t t' : Topology R) : Prop where
  | node (name : String) (kind : NodeKind) (bandwidth : R) (id : NodeId)
      (h : (addNode name kind bandwidth).run.run t = (.ok id, t'))
  | namedNode (name kind : String) (bandwidth : R) (id : NodeId)
      (h : (addNamedNode name kind bandwidth).run.run t = (.ok id, t'))
  | link (a b : NodeId) (latency : R) (id : LinkId)
      (h : (addLink a b latency).run.run t = (.ok id, t'))
  | linkWith (a b : NodeId) (latency forward backward : R) (id : LinkId)
      (h : (addLinkWith a b latency forward backward).run.run t = (.ok id, t'))

/-- The second topology is the first one with nodes and links added. -/
abbrev Grows : Topology R → Topology R → Prop := Relation.ReflTransGen Step

/-- The topology was constructed by successful calls. -/
def Constructed (t : Topology R) : Prop := ∃ kind, (Topology.empty kind).Grows t

def Admitted (bandwidth : R) : Prop := 0 < bandwidth ∧ Quantity.isFinite bandwidth = true

theorem checkBandwidth_ok {bandwidth : R} {u : Unit} (h : checkBandwidth bandwidth = .ok u) :
    Admitted bandwidth := by
  unfold checkBandwidth at h
  split at h
  · rename_i hb
    rw [Bool.and_eq_true, decide_eq_true_eq] at hb
    exact hb
  · cases h

theorem bind_ok {α β ε : Type} {x : Except ε α} {f : α → Except ε β} {b : β} (h : x >>= f = .ok b) :
    ∃ a, x = .ok a ∧ f a = .ok b := by
  cases x with
  | error e => cases h
  | ok a => exact ⟨a, rfl, h⟩

omit [Quantity R] in
theorem checkNode_ok {t : Topology R} {n : NodeId} {u : Unit} (h : t.checkNode n = .ok u) :
    n < t.nodes.size := by
  unfold checkNode at h
  split at h
  · rename_i hn
    exact of_decide_eq_true hn
  · cases h

omit [Quantity R] in
theorem checkName_iff {t : Topology R} {name : String} :
    t.checkName name = .ok () ↔ t.findNode? name = none := by
  unfold checkName
  cases t.findNode? name <;> simp

omit [Quantity R] in
theorem checkApart_iff {a b : NodeId} :
    (checkApart a b : Except (Fault R) Unit) = .ok () ↔ a ≠ b := by
  unfold checkApart
  split <;> simp [*]

omit [Quantity R] in
theorem checkUnlinked_iff {t : Topology R} {a b : NodeId} :
    t.checkUnlinked a b = .ok () ↔ t.linkBetween? a b = none := by
  unfold checkUnlinked
  cases t.linkBetween? a b <;> simp

theorem addNode_ok {t t' : Topology R} {name : String} {kind : NodeKind} {bandwidth : R}
    {id : NodeId} (h : (addNode name kind bandwidth).run.run t = (.ok id, t')) :
    (Admitted bandwidth ∧ t.findNode? name = none) ∧ id = t.nodes.size ∧
      t' = t.pushNode name kind bandwidth := by
  unfold addNode at h
  rw [ChangeM.run_get_bind] at h
  obtain ⟨hb, h⟩ := ChangeM.check_ok h
  obtain ⟨hname, h⟩ := ChangeM.check_ok h
  cases h
  exact ⟨⟨checkBandwidth_ok hb, checkName_iff.mp hname⟩, rfl, rfl⟩

/-- What has been checked when a link is added. -/
structure Linkable (t : Topology R) (a b : NodeId) (forward backward : R) : Prop where
  left : a < t.nodes.size
  right : b < t.nodes.size
  ne : a ≠ b
  forward : Admitted forward
  backward : Admitted backward
  fresh : t.linkBetween? a b = none

theorem addLinkWith_ok {t t' : Topology R} {a b : NodeId} {latency forward backward : R}
    {id : LinkId} (h : (addLinkWith a b latency forward backward).run.run t = (.ok id, t')) :
    t.Linkable a b forward backward ∧ id = t.links.size ∧
      t' = t.pushLink a b latency forward backward := by
  unfold addLinkWith at h
  rw [ChangeM.run_get_bind] at h
  obtain ⟨ha, h⟩ := ChangeM.check_ok h
  obtain ⟨hb, h⟩ := ChangeM.check_ok h
  obtain ⟨hne, h⟩ := ChangeM.check_ok h
  obtain ⟨hf, h⟩ := ChangeM.check_ok h
  obtain ⟨hk, h⟩ := ChangeM.check_ok h
  obtain ⟨hfresh, h⟩ := ChangeM.check_ok h
  cases h
  exact ⟨⟨checkNode_ok ha, checkNode_ok hb, checkApart_iff.mp hne, checkBandwidth_ok hf,
    checkBandwidth_ok hk, checkUnlinked_iff.mp hfresh⟩, rfl, rfl⟩

/-- A link that is as fast as the slower of its ends is added as one of that bandwidth. -/
theorem addLink_ok {t t' : Topology R} {a b : NodeId} {latency : R} {id : LinkId}
    (h : (addLink a b latency).run.run t = (.ok id, t')) :
    let bandwidth := Quantity.min (t.nodeBandwidth a) (t.nodeBandwidth b)
    (addLinkWith a b latency bandwidth bandwidth).run.run t = (.ok id, t') := by
  unfold addLink at h
  rw [ChangeM.run_get_bind] at h
  obtain ⟨_, h⟩ := ChangeM.check_ok h
  obtain ⟨_, h⟩ := ChangeM.check_ok h
  exact h

section Faults

open ChangeM (Cautious)

/-- All checks come before the first change. -/
theorem cautious_addNode (t : Topology R) (name : String) (kind : NodeKind) (bandwidth : R) :
    (addNode name kind bandwidth).Cautious t :=
  .get (.check (.check (.write _ _ _)))

theorem cautious_addLinkWith (t : Topology R) (a b : NodeId) (latency forward backward : R) :
    (addLinkWith a b latency forward backward).Cautious t :=
  .get (.check (.check (.check (.check (.check (.check (.write _ _ _)))))))

theorem cautious_addLink (t : Topology R) (a b : NodeId) (latency : R) :
    (addLink a b latency).Cautious t :=
  .get (.check (.check (cautious_addLinkWith t a b latency _ _)))

end Faults

omit [Quantity R] in
theorem checkNode_eq {t : Topology R} {n : NodeId} (h : n < t.nodes.size) :
    t.checkNode n = .ok () :=
  if_pos (decide_eq_true h)

theorem checkBandwidth_eq {bandwidth : R} (h : Admitted bandwidth) :
    checkBandwidth bandwidth = .ok () := by
  unfold checkBandwidth
  rw [if_pos]
  rw [Bool.and_eq_true, decide_eq_true_eq]
  exact h

theorem addNode_eq {t : Topology R} {name : String} {bandwidth : R} (hb : Admitted bandwidth)
    (hname : t.findNode? name = none) (kind : NodeKind) :
    (addNode name kind bandwidth).run.run t =
      (.ok t.nodes.size, t.pushNode name kind bandwidth) := by
  unfold addNode
  rw [ChangeM.run_get_bind, ChangeM.run_check_bind (checkBandwidth_eq hb),
    ChangeM.run_check_bind (checkName_iff.mpr hname)]
  rfl

theorem addLinkWith_eq {t : Topology R} {a b : NodeId} {forward backward : R}
    (h : t.Linkable a b forward backward) (latency : R) :
    (addLinkWith a b latency forward backward).run.run t =
      (.ok t.links.size, t.pushLink a b latency forward backward) := by
  unfold addLinkWith
  rw [ChangeM.run_get_bind, ChangeM.run_check_bind (checkNode_eq h.left),
    ChangeM.run_check_bind (checkNode_eq h.right), ChangeM.run_check_bind (checkApart_iff.mpr h.ne),
    ChangeM.run_check_bind (checkBandwidth_eq h.forward),
    ChangeM.run_check_bind (checkBandwidth_eq h.backward),
    ChangeM.run_check_bind (checkUnlinked_iff.mpr h.fresh)]
  rfl

theorem Constructed.pushNode {t : Topology R} (h : t.Constructed) {name : String} {bandwidth : R}
    (hb : Admitted bandwidth) (hname : t.findNode? name = none) (kind : NodeKind) :
    (t.pushNode name kind bandwidth).Constructed := by
  obtain ⟨fabric, hg⟩ := h
  exact ⟨fabric, hg.tail (.node name kind bandwidth t.nodes.size (addNode_eq hb hname kind))⟩

theorem Constructed.pushLink {t : Topology R} (h : t.Constructed) {a b : NodeId}
    {forward backward : R} (hl : t.Linkable a b forward backward) (latency : R) :
    (t.pushLink a b latency forward backward).Constructed := by
  obtain ⟨fabric, hg⟩ := h
  exact ⟨fabric, hg.tail
    (.linkWith a b latency forward backward t.links.size (addLinkWith_eq hl latency))⟩

/-- A successful call adds one node or one link. -/
theorem Step.cases {t t' : Topology R} (h : t.Step t') :
    (∃ name kind bandwidth, Admitted bandwidth ∧ t' = t.pushNode name kind bandwidth) ∨
      ∃ a b latency forward backward,
        t.Linkable a b forward backward ∧ t' = t.pushLink a b latency forward backward := by
  cases h with
  | node name kind bandwidth id h =>
    obtain ⟨⟨hb, _⟩, _, hpush⟩ := addNode_ok h
    exact Or.inl ⟨name, kind, bandwidth, hb, hpush⟩
  | namedNode name kindName bandwidth id h =>
    unfold addNamedNode at h
    split at h
    · rename_i kind _
      obtain ⟨⟨hb, _⟩, _, hpush⟩ := addNode_ok h
      exact Or.inl ⟨name, kind, bandwidth, hb, hpush⟩
    · cases h
  | link a b latency id h =>
    obtain ⟨hl, _, hpush⟩ := addLinkWith_ok (addLink_ok h)
    exact Or.inr ⟨a, b, latency, _, _, hl, hpush⟩
  | linkWith a b latency forward backward id h =>
    obtain ⟨hl, _, hpush⟩ := addLinkWith_ok h
    exact Or.inr ⟨a, b, latency, forward, backward, hl, hpush⟩

section Push

variable (t : Topology R)

theorem node?_pushNode (name : String) (kind : NodeKind) (bandwidth : R) (n : NodeId) :
    (t.pushNode name kind bandwidth).node? n
      = if n = t.nodes.size then
          some ⟨name, kind, bandwidth, [], if kind.isHost then some t.links.size else none⟩
        else t.node? n := by
  unfold pushNode node?
  cases kind.isHost <;> simp [Array.getElem?_push]

theorem link?_pushNode (name : String) (kind : NodeKind) (bandwidth : R) (l : LinkId) :
    (t.pushNode name kind bandwidth).link? l
      = if kind.isHost = true ∧ l = t.links.size then
          some ⟨t.nodes.size, t.nodes.size, 0, bandwidth, bandwidth⟩
        else t.link? l := by
  unfold pushNode link?
  cases kind.isHost <;> simp [Array.getElem?_push]

omit [Quantity R] in
theorem link?_pushLink (a b : NodeId) (latency forward backward : R) (l : LinkId) :
    (t.pushLink a b latency forward backward).link? l
      = if l = t.links.size then some (t.linkFor a b latency forward backward) else t.link? l := by
  unfold pushLink link?
  simp [Array.getElem?_push]

omit [Quantity R] in
/-- Both ends of a new link list it, and no other node does. -/
theorem node?_pushLink {a b : NodeId} (hab : a ≠ b) (latency forward backward : R) (n : NodeId) :
    (t.pushLink a b latency forward backward).node? n
      = (t.node? n).map fun node =>
          if n = a ∨ n = b then { node with links := node.links ++ [t.links.size] } else node := by
  unfold pushLink node?
  simp only [Array.getElem?_modify]
  by_cases ha : n = a
  · subst ha
    rw [if_neg hab.symm, if_pos rfl]
    simp
  · by_cases hb : n = b
    · subst hb
      rw [if_pos rfl, if_neg (Ne.symm ha)]
      simp
    · rw [if_neg (Ne.symm hb), if_neg (Ne.symm ha)]
      simp [ha, hb]

theorem size_pushNode (name : String) (kind : NodeKind) (bandwidth : R) :
    (t.pushNode name kind bandwidth).nodes.size = t.nodes.size + 1 := by
  unfold pushNode
  cases kind.isHost <;> simp

omit [Quantity R] in
theorem size_pushLink (a b : NodeId) (latency forward backward : R) :
    (t.pushLink a b latency forward backward).nodes.size = t.nodes.size := by
  simp [pushLink]

omit [Quantity R] in
theorem lt_size_of_node? {t : Topology R} {n : NodeId} {node : Node R} (h : t.node? n = some node) :
    n < t.nodes.size :=
  (Array.getElem?_eq_some_iff.mp h).1

omit [Quantity R] in
theorem lt_size_of_link? {t : Topology R} {l : LinkId} {link : Link R} (h : t.link? l = some link) :
    l < t.links.size :=
  (Array.getElem?_eq_some_iff.mp h).1

omit [Quantity R] in
theorem mem_linksOf {t : Topology R} {n : NodeId} {l : LinkId} :
    l ∈ t.linksOf n ↔ ∃ node, t.node? n = some node ∧ l ∈ node.links := by
  unfold linksOf
  cases t.node? n with
  | none => simp
  | some node => simp

omit [Quantity R] in
theorem neighbour_eq {t : Topology R} {l : LinkId} {link : Link R} (h : t.link? l = some link)
    (n : NodeId) : t.neighbour n l = link.otherEnd n := by
  unfold neighbour
  rw [h]

end Push

/-- The second topology has all nodes and links of the first one; old nodes may list more links. -/
structure Extends (t t' : Topology R) : Prop where
  kind : t'.kind = t.kind
  node : ∀ {n node}, t.node? n = some node →
    ∃ more, t'.node? n = some { node with links := node.links ++ more }
  link : ∀ {l link}, t.link? l = some link → t'.link? l = some link

namespace Extends

variable {t t' t'' : Topology R}

omit [Quantity R] in
theorem refl (t : Topology R) : t.Extends t where
  kind := rfl
  node {n node} h := ⟨[], by rw [List.append_nil]; exact h⟩
  link h := h

omit [Quantity R] in
theorem trans (h : t.Extends t') (h' : t'.Extends t'') : t.Extends t'' where
  kind := h'.kind.trans h.kind
  node hn := by
    obtain ⟨more, hm⟩ := h.node hn
    obtain ⟨more', hm'⟩ := h'.node hm
    refine ⟨more ++ more', ?_⟩
    rw [← List.append_assoc]
    exact hm'
  link hl := h'.link (h.link hl)

omit [Quantity R] in
theorem rankOf (h : t.Extends t') {n : NodeId} {node : Node R} (hn : t.node? n = some node) :
    t'.rankOf n = t.rankOf n := by
  obtain ⟨more, hm⟩ := h.node hn
  unfold Topology.rankOf
  rw [hm, hn]
  rfl

end Extends

theorem Step.extends {t t' : Topology R} (h : t.Step t') : t.Extends t' := by
  rcases h.cases with ⟨name, kind, bandwidth, _, rfl⟩ | ⟨a, b, latency, forward, backward, hl, rfl⟩
  · refine ⟨?_, ?_, ?_⟩
    · unfold pushNode
      cases kind.isHost <;> rfl
    · intro n node hn
      have hne : n ≠ t.nodes.size := Nat.ne_of_lt (lt_size_of_node? hn)
      refine ⟨[], ?_⟩
      rw [node?_pushNode, if_neg hne, hn, List.append_nil]
    · intro l link hl
      have hne : l ≠ t.links.size := Nat.ne_of_lt (lt_size_of_link? hl)
      rw [link?_pushNode, if_neg fun h => hne h.2, hl]
  · refine ⟨rfl, ?_, ?_⟩
    · intro n node hn
      rw [node?_pushLink t hl.ne, hn]
      by_cases hend : n = a ∨ n = b
      · exact ⟨[t.links.size], by simp [hend]⟩
      · exact ⟨[], by simp [hend]⟩
    · intro l link hlink
      have hne : l ≠ t.links.size := Nat.ne_of_lt (lt_size_of_link? hlink)
      rw [link?_pushLink, if_neg hne, hlink]

theorem Grows.extends {t t' : Topology R} (h : t.Grows t') : t.Extends t' := by
  induction h with
  | refl => exact Extends.refl t
  | tail _ hs ih => exact ih.trans hs.extends

omit [Quantity R] in
theorem linkFor_ends (t : Topology R) (a b : NodeId) (latency forward backward : R) :
    (t.linkFor a b latency forward backward).high = a ∧
        (t.linkFor a b latency forward backward).low = b ∨
      (t.linkFor a b latency forward backward).high = b ∧
        (t.linkFor a b latency forward backward).low = a := by
  unfold linkFor
  split
  · exact Or.inl ⟨rfl, rfl⟩
  · exact Or.inr ⟨rfl, rfl⟩

/-- Ends of links are nodes, nodes list links that end at them, and loop-backs belong to hosts. -/
structure WellFormed (t : Topology R) : Prop where
  ends : ∀ {l link}, t.link? l = some link → link.high < t.nodes.size ∧ link.low < t.nodes.size
  incident : ∀ {n node l}, t.node? n = some node → l ∈ node.links →
    ∃ link, t.link? l = some link ∧ link.high ≠ link.low ∧ (n = link.high ∨ n = link.low)
  loopback : ∀ {n node l}, t.node? n = some node → node.loopback = some l →
    node.kind = .host ∧ ∃ link, t.link? l = some link ∧ link.high = n ∧ link.low = n
  capacity : ∀ {l link}, t.link? l = some link →
    Admitted link.upCapacity ∧ Admitted link.downCapacity

namespace WellFormed

variable {t : Topology R}

/-- A listed link ends at the node, and its other end is another one. -/
theorem listed (h : t.WellFormed) {n : NodeId} {l : LinkId} (hl : l ∈ t.linksOf n) :
    ∃ link, t.link? l = some link ∧ link.high ≠ link.low ∧ (n = link.high ∨ n = link.low) := by
  obtain ⟨node, hnode, hmem⟩ := mem_linksOf.mp hl
  exact h.incident hnode hmem

theorem empty (kind : FabricKind) : (Topology.empty kind : Topology R).WellFormed where
  ends h := by cases h
  incident h := by cases h
  loopback h := by cases h
  capacity h := by cases h

theorem pushNode (h : t.WellFormed) (name : String) (kind : NodeKind) {bandwidth : R}
    (hb : Admitted bandwidth) : (t.pushNode name kind bandwidth).WellFormed := by
  have hold {l link} (hl : t.link? l = some link) :
      (t.pushNode name kind bandwidth).link? l = some link := by
    rw [link?_pushNode, if_neg fun hk => Nat.ne_of_lt (lt_size_of_link? hl) hk.2, hl]
  refine ⟨?_, ?_, ?_, ?_⟩
  · intro l link hl
    rw [size_pushNode]
    rw [link?_pushNode] at hl
    split at hl
    · cases hl
      exact ⟨Nat.lt_succ_self _, Nat.lt_succ_self _⟩
    · obtain ⟨hhigh, hlow⟩ := h.ends hl
      exact ⟨Nat.lt_succ_of_lt hhigh, Nat.lt_succ_of_lt hlow⟩
  · intro n node l hn hl
    rw [node?_pushNode] at hn
    split at hn
    · cases hn
      cases hl
    · obtain ⟨link, hlink, hends⟩ := h.incident hn hl
      exact ⟨link, hold hlink, hends⟩
  · intro n node l hn hl
    rw [node?_pushNode] at hn
    split at hn
    · rename_i hnew
      cases hn
      cases hk : kind.isHost with
      | false => simp [hk] at hl
      | true =>
        -- Only a new host owns a loop-back, and this is the new link.
        have hhost : kind = .host := by
          cases kind with
          | host => rfl
          | switch tier => cases hk
        simp only [hk, if_true, Option.some.injEq] at hl
        refine ⟨hhost, ⟨t.nodes.size, t.nodes.size, 0, bandwidth, bandwidth⟩, ?_,
          hnew.symm, hnew.symm⟩
        rw [link?_pushNode, if_pos ⟨hk, hl.symm⟩]
    · obtain ⟨hhost, link, hlink, hends⟩ := h.loopback hn hl
      exact ⟨hhost, link, hold hlink, hends⟩
  · intro l link hl
    rw [link?_pushNode] at hl
    split at hl
    · cases hl
      exact ⟨hb, hb⟩
    · exact h.capacity hl

theorem pushLink (h : t.WellFormed) {a b : NodeId} {forward backward : R}
    (hl : t.Linkable a b forward backward) (latency : R) :
    (t.pushLink a b latency forward backward).WellFormed := by
  have hold {l link} (hlink : t.link? l = some link) :
      (t.pushLink a b latency forward backward).link? l = some link := by
    rw [link?_pushLink, if_neg (Nat.ne_of_lt (lt_size_of_link? hlink)), hlink]
  have hends := linkFor_ends t a b latency forward backward
  have hleft := hl.left
  have hright := hl.right
  refine ⟨?_, ?_, ?_, ?_⟩
  · intro l link hlink
    rw [size_pushLink]
    rw [link?_pushLink] at hlink
    split at hlink
    · cases hlink
      rcases hends with ⟨h1, h2⟩ | ⟨h1, h2⟩ <;> rw [h1, h2] <;> exact ⟨‹_›, ‹_›⟩
    · exact h.ends hlink
  -- Only the two ends list anything new, and what they list is a link between them.
  · intro n node l hn hmem
    rw [node?_pushLink t hl.ne, Option.map_eq_some_iff] at hn
    obtain ⟨old, hold', rfl⟩ := hn
    split at hmem
    · rename_i hend
      rcases List.mem_append.mp hmem with hmem | hmem
      · obtain ⟨link, hlink, hrest⟩ := h.incident hold' hmem
        exact ⟨link, hold hlink, hrest⟩
      · have hlast : l = t.links.size := List.mem_singleton.mp hmem
        refine ⟨t.linkFor a b latency forward backward, ?_, ?_, ?_⟩
        · rw [link?_pushLink, if_pos hlast]
        · have hne := hl.ne
          rcases hends with ⟨h1, h2⟩ | ⟨h1, h2⟩ <;> rw [h1, h2]
          · exact hne
          · exact hne.symm
        · rcases hends with ⟨h1, h2⟩ | ⟨h1, h2⟩ <;> rw [h1, h2]
          · exact hend
          · exact hend.symm
    · obtain ⟨link, hlink, hrest⟩ := h.incident hold' hmem
      exact ⟨link, hold hlink, hrest⟩
  · intro n node l hn hloop
    rw [node?_pushLink t hl.ne, Option.map_eq_some_iff] at hn
    obtain ⟨old, hold', rfl⟩ := hn
    -- Attaching a link to a node leaves its kind and its loop-back as they were.
    have hsame :
        (if n = a ∨ n = b then { old with links := old.links ++ [t.links.size] } else old).loopback
            = old.loopback ∧
          (if n = a ∨ n = b then { old with links := old.links ++ [t.links.size] } else old).kind
            = old.kind := by
      split <;> exact ⟨rfl, rfl⟩
    rw [hsame.1] at hloop
    obtain ⟨hhost, link, hlink, hrest⟩ := h.loopback hold' hloop
    exact ⟨hsame.2.trans hhost, link, hold hlink, hrest⟩
  · intro l link hlink
    rw [link?_pushLink] at hlink
    split at hlink
    · cases hlink
      unfold linkFor
      split
      · exact ⟨hl.backward, hl.forward⟩
      · exact ⟨hl.forward, hl.backward⟩
    · exact h.capacity hlink

theorem step (h : t.WellFormed) {t' : Topology R} (hs : t.Step t') : t'.WellFormed := by
  rcases hs.cases with
    ⟨name, kind, bandwidth, hb, rfl⟩ | ⟨a, b, latency, forward, backward, hl, rfl⟩
  · exact h.pushNode name kind hb
  · exact h.pushLink hl latency

/-- What holds of admitted bandwidths and of nothing holds of the capacity of every lane. -/
theorem capacity_induction (h : t.WellFormed) {P : R → Prop} (hzero : P 0)
    (hadmitted : ∀ bandwidth, Admitted bandwidth → P bandwidth) (lane : Lane) :
    P (t.capacity lane) := by
  unfold Topology.capacity
  cases hl : t.link? lane.link with
  | none => exact hzero
  | some link =>
    obtain ⟨hup, hdown⟩ := h.capacity hl
    show P (link.capacity lane.direction)
    cases lane.direction with
    | up => exact hadmitted _ hup
    | down => exact hadmitted _ hdown

end WellFormed

theorem Constructed.wellFormed {t : Topology R} (h : t.Constructed) : t.WellFormed := by
  obtain ⟨kind, hg⟩ := h
  induction hg with
  | refl => exact WellFormed.empty kind
  | tail _ hs ih => exact ih.step hs

/-- Two hosts and a switch, not linked yet. -/
def rackNodes : Topology Exact :=
  (((empty .tree).pushNode "left" .host 1000).pushNode "right" .host 1000).pushNode "top"
    (.switch .edge) 1000

/-- Two hosts below a switch. -/
def rack : Topology Exact := (rackNodes.pushLink 2 0 0 1000 1000).pushLink 2 1 0 1000 1000

theorem rackNodes_constructed : rackNodes.Constructed := by
  have hb : Admitted (1000 : Exact) := ⟨by decide, rfl⟩
  have hempty : (empty .tree : Topology Exact).Constructed := ⟨.tree, .refl⟩
  refine ((hempty.pushNode hb ?_ _).pushNode hb ?_ _).pushNode hb ?_ _ <;>
    simp [findNode?, pushNode, NodeKind.isHost, empty]

theorem rack_constructed : rack.Constructed := by
  have hb : Admitted (1000 : Exact) := ⟨by decide, rfl⟩
  have hleft := rackNodes_constructed.pushLink (a := 2) (b := 0)
    ⟨by decide, by decide, by decide, hb, hb, rfl⟩ 0
  exact hleft.pushLink ⟨by decide, by decide, by decide, hb, hb, rfl⟩ 0

end Topology

end FlowFabric
