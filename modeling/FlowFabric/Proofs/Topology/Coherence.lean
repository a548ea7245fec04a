import FlowFabric.Proofs.Topology.Links

namespace FlowFabric

variable {R : Type} [Quantity R]

namespace Topology

/-- A call of one of the construction functions. -/
inductive Call (R : Type) where
  | node (name : String) (kind : NodeKind) (bandwidth : R)
  | namedNode (name kind : String) (bandwidth : R)
  /-- A link that is as fast as the slower of its ends. -/
  | link (a b : NodeId) (latency : R)
  | linkWithBandwidth (a b : NodeId) (latency bandwidth : R)
  | asymmetricLink (a b : NodeId) (latency forward backward : R)

/-- Makes the call, which returns the number of what it has added. -/
def Call.apply : Call R → LayoutM R Nat
  | .node name kind bandwidth => addNode name kind bandwidth
  | .namedNode name kind bandwidth => addNamedNode name kind bandwidth
  | .link a b latency => addLink a b latency
  | .linkWithBandwidth a b latency bandwidth => addLinkWith a b latency bandwidth bandwidth
  | .asymmetricLink a b latency forward backward => addLinkWith a b latency forward backward

/-- What a call is to add. -/
inductive Piece (R : Type) where
  | node (name : String) (kind : NodeKind) (bandwidth : R)
  /-- `forward` is for traffic from the first node to the second,
  `backward` for the other direction. -/
  | link (a b : NodeId) (latency forward backward : R)

/-- The piece that a call asks for, `none` if it names a kind of node that there is not. -/
def Call.piece? (t : Topology R) : Call R → Option (Piece R)
  | .node name kind bandwidth => some (.node name kind bandwidth)
  | .namedNode name kind bandwidth => (NodeKind.ofName? kind).map fun kind =>
    .node name kind bandwidth
  | .link a b latency =>
    let bandwidth := Quantity.min (t.nodeBandwidth a) (t.nodeBandwidth b)
    some (.link a b latency bandwidth bandwidth)
  | .linkWithBandwidth a b latency bandwidth => some (.link a b latency bandwidth bandwidth)
  | .asymmetricLink a b latency forward backward => some (.link a b latency forward backward)

namespace Piece

/-- The number that the piece gets. -/
def number (t : Topology R) : Piece R → Nat
  | .node .. => t.nodes.size
  | .link .. => t.links.size

def push (t : Topology R) : Piece R → Topology R
  | .node name kind bandwidth => t.pushNode name kind bandwidth
  | .link a b latency forward backward => t.pushLink a b latency forward backward

/-- What is checked before the piece is added. -/
def Fits (t : Topology R) : Piece R → Prop
  | .node name _ bandwidth => Admitted bandwidth ∧ t.findNode? name = none
  | .link a b _ forward backward => t.Linkable a b forward backward

/-- The piece is there under the number,
with its capacities in the directions of travel from either end. -/
def Present (t : Topology R) (id : Nat) : Piece R → Prop
  | .node name kind bandwidth =>
    ∃ node, t.node? id = some node ∧ node.name = name ∧ node.kind = kind ∧
      node.bandwidth = bandwidth
  | .link a b latency forward backward =>
    ∃ link, t.link? id = some link ∧ link.connects a b = true ∧ link.latency = latency ∧
      link.capacity (link.directionFrom a) = forward ∧
        link.capacity (link.directionFrom b) = backward

end Piece

variable {t t' : Topology R}

/-- A call that succeeds has pushed the piece that it asks for. -/
theorem Call.apply_ok {call : Call R} {id : Nat} (h : call.apply.run.run t = (.ok id, t')) :
    ∃ piece, call.piece? t = some piece ∧ piece.Fits t ∧ id = piece.number t ∧
      t' = piece.push t := by
  cases call with
  | node name kind bandwidth => exact ⟨_, rfl, addNode_ok h⟩
  | namedNode name kindName bandwidth =>
    simp only [Call.apply, addNamedNode] at h
    split at h
    · rename_i kind hkind
      exact ⟨.node name kind bandwidth, by rw [Call.piece?, hkind, Option.map_some], addNode_ok h⟩
    · cases h
  | link a b latency => exact ⟨_, rfl, addLinkWith_ok (addLink_ok h)⟩
  | linkWithBandwidth a b latency bandwidth => exact ⟨_, rfl, addLinkWith_ok h⟩
  | asymmetricLink a b latency forward backward => exact ⟨_, rfl, addLinkWith_ok h⟩

/-- A call that fails has changed nothing. -/
theorem Call.cautious (call : Call R) (t : Topology R) : call.apply.Cautious t := by
  cases call with
  | node name kind bandwidth => exact cautious_addNode t name kind bandwidth
  | namedNode name kindName bandwidth =>
    simp only [Call.apply, addNamedNode]
    split
    · exact cautious_addNode t name _ bandwidth
    · exact .fault _ t
  | link a b latency => exact cautious_addLink t a b latency
  | linkWithBandwidth a b latency bandwidth =>
    exact cautious_addLinkWith t a b latency bandwidth bandwidth
  | asymmetricLink a b latency forward backward =>
    exact cautious_addLinkWith t a b latency forward backward

theorem Call.step {call : Call R} {id : Nat} (h : call.apply.run.run t = (.ok id, t')) :
    t.Step t' := by
  cases call with
  | node name kind bandwidth => exact .node name kind bandwidth id h
  | namedNode name kind bandwidth => exact .namedNode name kind bandwidth id h
  | link a b latency => exact .link a b latency id h
  | linkWithBandwidth a b latency bandwidth => exact .linkWith a b latency bandwidth bandwidth id h
  | asymmetricLink a b latency forward backward => exact .linkWith a b latency forward backward id h

/-- One step of the construction is one piece. -/
theorem Step.piece (h : t.Step t') : ∃ piece : Piece R, piece.Fits t ∧ t' = piece.push t := by
  have hcall : ∃ (call : Call R) (id : Nat), call.apply.run.run t = (.ok id, t') := by
    cases h with
    | node name kind bandwidth id h => exact ⟨.node name kind bandwidth, id, h⟩
    | namedNode name kind bandwidth id h => exact ⟨.namedNode name kind bandwidth, id, h⟩
    | link a b latency id h => exact ⟨.link a b latency, id, h⟩
    | linkWith a b latency forward backward id h =>
      exact ⟨.asymmetricLink a b latency forward backward, id, h⟩
  obtain ⟨call, id, h⟩ := hcall
  obtain ⟨piece, _, hfits, _, hpush⟩ := Call.apply_ok h
  exact ⟨piece, hfits, hpush⟩

omit [Quantity R] in
theorem connects_linkFor (t : Topology R) (a b : NodeId) (latency forward backward : R) :
    (t.linkFor a b latency forward backward).connects a b = true :=
  Link.connects_iff.mpr (linkFor_ends t a b latency forward backward)

omit [Quantity R] in
/-- Traffic from one end gets the capacity meant for it, whichever end is the high one. -/
theorem capacity_linkFor (t : Topology R) {a b : NodeId} (hne : a ≠ b)
    (latency forward backward : R) : let link := t.linkFor a b latency forward backward
    link.capacity (link.directionFrom a) = forward ∧
      link.capacity (link.directionFrom b) = backward := by
  unfold linkFor Link.directionFrom
  split <;> simp [hne, hne.symm, Link.capacity]

/-- The high end of the link is no further from the top
than the low end, and first in the same rank. -/
def Ranked (t : Topology R) (link : Link R) : Prop :=
  t.rankOf link.high ≤ t.rankOf link.low ∧
    (t.rankOf link.high = t.rankOf link.low → link.high < link.low)

omit [Quantity R] in
theorem ranked_linkFor (t : Topology R) {a b : NodeId} (hne : a ≠ b)
    (latency forward backward : R) : t.Ranked (t.linkFor a b latency forward backward) := by
  have habove : t.above a b = true ↔ t.rankOf a < t.rankOf b ∨ t.rankOf a = t.rankOf b ∧ a < b := by
    simp [above]
  unfold linkFor Ranked
  split <;> rename_i h
  · rcases habove.mp h with hlt | ⟨heq, hlt⟩
    · exact ⟨Nat.le_of_lt hlt, fun heq => absurd heq (Nat.ne_of_lt hlt)⟩
    · exact ⟨Nat.le_of_eq heq, fun _ => hlt⟩
  · have hnot := mt habove.mpr h
    refine ⟨Nat.not_lt.mp fun hlt => hnot (.inl hlt), fun heq => ?_⟩
    exact (Nat.lt_or_gt_of_ne hne).resolve_left fun hlt => hnot (.inr ⟨heq.symm, hlt⟩)

theorem Piece.present_push {piece : Piece R} (h : piece.Fits t) :
    piece.Present (piece.push t) (piece.number t) := by
  cases piece with
  | node name kind bandwidth =>
    exact ⟨_, (node?_pushNode t name kind bandwidth _).trans (if_pos rfl), rfl, rfl, rfl⟩
  | link a b latency forward backward =>
    have hne := Linkable.ne h
    refine ⟨_, (link?_pushLink t a b latency forward backward _).trans (if_pos rfl),
      connects_linkFor t a b latency forward backward, ?_,
        capacity_linkFor t hne latency forward backward⟩
    unfold linkFor
    split <;> rfl

omit [Quantity R] in
/-- What is there stays there. -/
theorem Extends.present (h : t.Extends t') {piece : Piece R} {id : Nat} (hp : piece.Present t id) :
    piece.Present t' id := by
  cases piece with
  | node name kind bandwidth =>
    obtain ⟨node, hnode, hrest⟩ := hp
    obtain ⟨more, hmore⟩ := h.node hnode
    exact ⟨_, hmore, hrest⟩
  | link a b latency forward backward =>
    obtain ⟨link, hlink, hrest⟩ := hp
    exact ⟨link, h.link hlink, hrest⟩

/-- No two nodes share a name, links have their high end first,
and loop-backs are known to their hosts. -/
structure Arranged (t : Topology R) : Prop where
  named : ∀ {m n a b}, t.node? m = some a → t.node? n = some b → a.name = b.name → m = n
  ranked : ∀ {l link}, t.link? l = some link → link.high ≠ link.low → t.Ranked link
  looped : ∀ {l link}, t.link? l = some link → link.high = link.low →
    ∃ node, t.node? link.high = some node ∧ node.loopback = some l

omit [Quantity R] in
theorem name_ne_of_findNode? {name : String} (h : t.findNode? name = none) {n : NodeId}
    {node : Node R} (hn : t.node? n = some node) : node.name ≠ name := by
  have hnone := Array.findIdx?_eq_none_iff.mp h node (Array.mem_of_getElem? hn)
  simpa using hnone

omit [Quantity R] in
theorem Extends.looped (h : t.Extends t') {n : NodeId} {l : LinkId}
    (hl : ∃ node, t.node? n = some node ∧ node.loopback = some l) :
    ∃ node, t'.node? n = some node ∧ node.loopback = some l := by
  obtain ⟨node, hnode, hloop⟩ := hl
  obtain ⟨more, hmore⟩ := h.node hnode
  exact ⟨_, hmore, hloop⟩

namespace Arranged

omit [Quantity R] in
theorem empty (kind : FabricKind) : (Topology.empty kind : Topology R).Arranged where
  named h := by cases h
  ranked h := by cases h
  looped h := by cases h

/-- Old links keep the order of their ends. -/
theorem ranked_of_extends (h : t.Arranged) (hwf : t.WellFormed) (he : t.Extends t') {l : LinkId}
    {link : Link R} (hl : t.link? l = some link) (hne : link.high ≠ link.low) : t'.Ranked link := by
  have hrank {n : NodeId} (hn : n < t.nodes.size) : t'.rankOf n = t.rankOf n :=
    he.rankOf (Array.getElem?_eq_getElem hn)
  obtain ⟨hhigh, hlow⟩ := hwf.ends hl
  unfold Ranked
  rw [hrank hhigh, hrank hlow]
  exact h.ranked hl hne

theorem pushNode (h : t.Arranged) (hwf : t.WellFormed) {name : String} {bandwidth : R}
    (hfresh : t.findNode? name = none) (kind : NodeKind)
    (he : t.Extends (t.pushNode name kind bandwidth)) :
    (t.pushNode name kind bandwidth).Arranged := by
  refine ⟨?_, ?_, ?_⟩
  · intro m n a b hm hn hname
    rw [node?_pushNode] at hm hn
    split at hm <;> split at hn
    · rename_i hm' hn'
      exact hm'.trans hn'.symm
    · cases hm
      exact absurd hname.symm (name_ne_of_findNode? hfresh hn)
    · cases hn
      exact absurd hname (name_ne_of_findNode? hfresh hm)
    · exact h.named hm hn hname
  · intro l link hl hne
    rw [link?_pushNode] at hl
    split at hl
    · cases hl
      exact absurd rfl hne
    · exact h.ranked_of_extends hwf he hl hne
  · intro l link hl heq
    rw [link?_pushNode] at hl
    split at hl
    · rename_i hnew
      cases hl
      exact ⟨_, (node?_pushNode t name kind bandwidth _).trans (if_pos rfl), by
        simp [hnew.1, hnew.2]⟩
    · exact he.looped (h.looped hl heq)

theorem pushLink (h : t.Arranged) (hwf : t.WellFormed) {a b : NodeId} {latency forward backward : R}
    (hl : t.Linkable a b forward backward)
    (he : t.Extends (t.pushLink a b latency forward backward)) :
    (t.pushLink a b latency forward backward).Arranged := by
  have hends := linkFor_ends t a b latency forward backward
  refine ⟨?_, ?_, ?_⟩
  · intro m n x y hm hn hname
    rw [node?_pushLink t hl.ne, Option.map_eq_some_iff] at hm hn
    obtain ⟨x, hx, rfl⟩ := hm
    obtain ⟨y, hy, rfl⟩ := hn
    refine h.named hx hy ?_
    split at hname <;> split at hname <;> exact hname
  · intro l link hlink hne
    rw [link?_pushLink] at hlink
    split at hlink
    · cases hlink
      have hrank {n : NodeId} (hn : n < t.nodes.size) := he.rankOf (Array.getElem?_eq_getElem hn)
      have hranked := ranked_linkFor t hl.ne latency forward backward
      unfold Ranked at hranked ⊢
      rcases hends with ⟨hhigh, hlow⟩ | ⟨hhigh, hlow⟩ <;> rw [hhigh, hlow] at hranked ⊢ <;>
        rwa [hrank hl.left, hrank hl.right]
    · exact h.ranked_of_extends hwf he hlink hne
  · intro l link hlink heq
    rw [link?_pushLink] at hlink
    split at hlink
    · cases hlink
      rcases hends with ⟨hhigh, hlow⟩ | ⟨hhigh, hlow⟩ <;> rw [hhigh, hlow] at heq
      · exact absurd heq hl.ne
      · exact absurd heq.symm hl.ne
    · exact he.looped (h.looped hlink heq)

end Arranged

theorem Constructed.arranged (h : t.Constructed) : t.Arranged := by
  obtain ⟨kind, hg⟩ := h
  induction hg with
  | refl => exact .empty kind
  | tail hg hs ih =>
    have hwf : Topology.WellFormed _ := Constructed.wellFormed ⟨kind, hg⟩
    have he := hs.extends
    obtain ⟨piece, hfits, rfl⟩ := hs.piece
    cases piece with
    | node name kind bandwidth => exact ih.pushNode hwf hfits.2 kind he
    | link a b latency forward backward => exact ih.pushLink hwf hfits he

/-- The parts of a topology agree with each other. Links that lead from a host to itself are
loop-backs; the others join two nodes. -/
structure Coherent (t : Topology R) : Prop where
  /-- A name leads to the node that has it. -/
  named : ∀ name n, t.findNode? name = some n ↔ ∃ node, t.node? n = some node ∧ node.name = name
  ends : ∀ l link, t.link? l = some link → link.high ≠ link.low →
    link.high < t.nodes.size ∧ link.low < t.nodes.size
  between : ∀ l link, t.link? l = some link → link.high ≠ link.low →
    t.linkBetween? link.high link.low = some l ∧ t.linkBetween? link.low link.high = some l
  only : ∀ l link, t.link? l = some link → link.high ≠ link.low →
    ∀ l' link', t.link? l' = some link' → link'.connects link.high link.low = true → l' = l
  /-- A link that is found between two nodes connects them. -/
  joined : ∀ a b l, t.linkBetween? a b = some l → ∃ link, t.link? l = some link ∧
    link.connects a b = true
  listed : ∀ n l, l ∈ t.linksOf n ↔
    ∃ link, t.link? l = some link ∧ link.high ≠ link.low ∧ (n = link.high ∨ n = link.low)
  once : ∀ n, (t.linksOf n).Nodup
  /-- Hosts have a loop-back, which leads from them to themselves, and no other node has one. -/
  loopback : ∀ n node, t.node? n = some node →
    (node.kind.isHost = true ↔ node.loopback.isSome = true) ∧
    ∀ l, node.loopback = some l → ∃ link, t.link? l = some link ∧ link.high = n ∧ link.low = n
  looped : ∀ l link, t.link? l = some link → link.high = link.low →
    ∃ node, t.node? link.high = some node ∧ node.loopback = some l
  ranked : ∀ l link, t.link? l = some link → link.high ≠ link.low → t.Ranked link
  capacity : ∀ l link, t.link? l = some link → Admitted link.upCapacity ∧ Admitted link.downCapacity
  exchange : ∀ l link, t.link? l = some link →
    link.otherEnd link.high = link.low ∧ link.otherEnd link.low = link.high

omit [Quantity R] in
theorem node_of_findNode? {name : String} {n : NodeId} (h : t.findNode? name = some n) :
    ∃ node, t.node? n = some node ∧ node.name = name := by
  obtain ⟨hlt, hname, _⟩ := Array.findIdx?_eq_some_iff_getElem.mp h
  exact ⟨t.nodes[n], Array.getElem?_eq_getElem hlt, eq_of_beq hname⟩

omit [Quantity R] in
theorem Arranged.findNode?_iff (h : t.Arranged) {name : String} {n : NodeId} :
    t.findNode? name = some n ↔ ∃ node, t.node? n = some node ∧ node.name = name := by
  refine ⟨node_of_findNode?, ?_⟩
  rintro ⟨node, hnode, rfl⟩
  cases hfind : t.findNode? node.name with
  | none => exact absurd rfl (name_ne_of_findNode? hfind hnode)
  | some m =>
    obtain ⟨other, hother, hname⟩ := node_of_findNode? hfind
    rw [h.named hother hnode hname]

theorem WellFormed.connects_of_linkBetween? (h : t.WellFormed) {a b : NodeId} {l : LinkId}
    (hl : t.linkBetween? a b = some l) :
    ∃ link, t.link? l = some link ∧ link.connects a b = true := by
  unfold linkBetween? at hl
  split at hl
  · rename_i heq
    obtain ⟨node, hnode, hloop⟩ := Option.bind_eq_some_iff.mp hl
    obtain ⟨_, link, hlink, hhigh, hlow⟩ := h.loopback hnode hloop
    exact ⟨link, hlink, Link.connects_iff.mpr (.inl ⟨hhigh, hlow.trans heq⟩)⟩
  · obtain ⟨link, hlink, hconnects, hother⟩ := h.connects (List.mem_of_find?_eq_some hl)
    have hb : t.neighbour a l = b :=
      eq_of_beq (List.find?_some (p := fun l => t.neighbour a l == b) hl)
    exact ⟨link, hlink, by rwa [← hother, hb] at hconnects⟩

theorem Constructed.coherent (h : t.Constructed) : t.Coherent where
  named _ _ := h.arranged.findNode?_iff
  ends _ _ hl _ := h.wellFormed.ends hl
  between _ _ hl hne :=
    ⟨h.linkBetween?_eq hne hl (Link.connects_iff.mpr (.inl ⟨rfl, rfl⟩)),
      h.linkBetween?_eq hne.symm hl (Link.connects_iff.mpr (.inr ⟨rfl, rfl⟩))⟩
  only _ _ hl hne _ _ hl' hc' :=
    h.simple.unique hl' hc' hl (Link.connects_iff.mpr (.inl ⟨rfl, rfl⟩)) hne
  joined _ _ _ := h.wellFormed.connects_of_linkBetween?
  listed n l := by
    refine ⟨h.wellFormed.listed, ?_⟩
    rintro ⟨link, hlink, hne, rfl | rfl⟩
    · exact h.simple.listed hlink (Link.connects_iff.mpr (.inl ⟨rfl, rfl⟩)) hne
    · exact h.simple.listed hlink (Link.connects_iff.mpr (.inr ⟨rfl, rfl⟩)) hne.symm
  once := h.nodup_linksOf
  loopback n node hnode := by
    refine ⟨⟨h.simple.loopback hnode, fun hsome => ?_⟩, fun l hl =>
      (h.wellFormed.loopback hnode hl).2⟩
    obtain ⟨l, hl⟩ := Option.isSome_iff_exists.mp hsome
    rw [(h.wellFormed.loopback hnode hl).1]
    rfl
  looped _ _ := h.arranged.looped
  ranked _ _ := h.arranged.ranked
  capacity _ _ := h.wellFormed.capacity
  exchange _ link _ :=
    ⟨Link.otherEnd_of_connects (Link.connects_iff.mpr (.inl ⟨rfl, rfl⟩)),
      Link.otherEnd_of_connects (Link.connects_iff.mpr (.inr ⟨rfl, rfl⟩))⟩

end Topology

end FlowFabric
