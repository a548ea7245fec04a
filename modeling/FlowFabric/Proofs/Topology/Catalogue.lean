import FlowFabric.Proofs.Topology.Coherence
import FlowFabric.Table

namespace FlowFabric

variable {R : Type} [Quantity R]

namespace Topology

/-- A topology with a table of the names of its nodes and one of the ends of its links. -/
structure Catalogue (R : Type) where
  topology : Topology R
  names : Table String NodeId
  pairs : Table (NodeId × NodeId) LinkId

namespace Catalogue

/-- Two nodes in ascending order. -/
def pair (a b : NodeId) : NodeId × NodeId := (min a b, max a b)

def empty (kind : FabricKind) : Catalogue R := ⟨.empty kind, Table.empty, Table.empty⟩

/-- Succeeds for a name that is not in the table. -/
def checkName (c : Catalogue R) (name : String) : Except (Fault R) Unit :=
  if c.names.contains name then .error (.duplicateNode name) else .ok ()

/-- Succeeds for two nodes that are not in the table of pairs. -/
def checkUnlinked (c : Catalogue R) (a b : NodeId) : Except (Fault R) Unit :=
  if c.pairs.contains (pair a b) then .error (.duplicateLink a b) else .ok ()

def addNode (name : String) (kind : NodeKind) (bandwidth : R) :
    ChangeM R (Catalogue R) NodeId := do
  let c ← get
  checkBandwidth bandwidth
  c.checkName name
  let id := c.topology.nodes.size
  let topology := c.topology.pushNode name kind bandwidth
  set { c with topology, names := c.names.insert name id }
  return id

def addLinkWith (a b : NodeId) (latency forward backward : R) :
    ChangeM R (Catalogue R) LinkId := do
  let c ← get
  c.topology.checkNode a
  c.topology.checkNode b
  checkApart (R := R) a b
  checkBandwidth forward
  checkBandwidth backward
  c.checkUnlinked a b
  let id := c.topology.links.size
  let topology := c.topology.pushLink a b latency forward backward
  set { c with topology, pairs := c.pairs.insert (pair a b) id }
  return id

def addLink (a b : NodeId) (latency : R) : ChangeM R (Catalogue R) LinkId := do
  let c ← get
  c.topology.checkNode a
  c.topology.checkNode b
  let bandwidth := Quantity.min (c.topology.nodeBandwidth a) (c.topology.nodeBandwidth b)
  addLinkWith a b latency bandwidth bandwidth

/-- Makes the call on a topology with its tables. -/
def apply : Call R → ChangeM R (Catalogue R) Nat
  | .node name kind bandwidth => addNode name kind bandwidth
  | .namedNode name kind bandwidth =>
    match NodeKind.ofName? kind with
    | some k => addNode name k bandwidth
    | none => throw (.unknownNodeType kind)
  | .link a b latency => addLink a b latency
  | .linkWithBandwidth a b latency bandwidth => addLinkWith a b latency bandwidth bandwidth
  | .asymmetricLink a b latency forward backward => addLinkWith a b latency forward backward

/-- The tables of the catalogue answer as the searches do. -/
structure Faithful (c : Catalogue R) : Prop where
  constructed : c.topology.Constructed
  names : ∀ name, c.names.get? name = c.topology.findNode? name
  pairs : ∀ a b, a ≠ b → c.pairs.get? (pair a b) = c.topology.linkBetween? a b

theorem faithful_empty (kind : FabricKind) : (empty kind : Catalogue R).Faithful where
  constructed := ⟨kind, .refl⟩
  names _ := Array.findIdx?_empty.symm
  pairs a b hne := by
    show none = linkBetween? _ a b
    rw [linkBetween?, if_neg hne]
    rfl

theorem pair_eq_iff {a b m n : NodeId} : pair m n = pair a b ↔ m = a ∧ n = b ∨ m = b ∧ n = a := by
  have hnat (a b m n : Nat) :
      min m n = min a b ∧ max m n = max a b ↔ m = a ∧ n = b ∨ m = b ∧ n = a := by
    omega
  rw [pair, pair, Prod.mk.injEq]
  exact hnat a b m n

variable {t : Topology R}

theorem findNode?_pushNode_of_ne (ht : t.Constructed) {name : String} {kind : NodeKind}
    {bandwidth : R} (hpush : (t.pushNode name kind bandwidth).Constructed) {other : String}
    (hne : other ≠ name) :
    (t.pushNode name kind bandwidth).findNode? other = t.findNode? other := by
  ext n
  rw [hpush.coherent.named, ht.coherent.named, node?_pushNode]
  split
  · rename_i hn
    have hnone : t.node? n = none := Array.getElem?_eq_none (Nat.le_of_eq hn.symm)
    simp [hnone, hne.symm]
  · rfl

theorem findNode?_pushLink (ht : t.Constructed) {a b : NodeId} (hne : a ≠ b)
    {latency forward backward : R} (hpush : (t.pushLink a b latency forward backward).Constructed)
    (name : String) :
    (t.pushLink a b latency forward backward).findNode? name = t.findNode? name := by
  ext n
  rw [hpush.coherent.named, ht.coherent.named, node?_pushLink t hne]
  cases t.node? n with
  | none => simp
  | some node =>
    rw [Option.map_some]
    split <;> simp

theorem linkBetween?_iff (ht : t.Constructed) {a b : NodeId} (hne : a ≠ b) {l : LinkId} :
    t.linkBetween? a b = some l ↔ ∃ link, t.link? l = some link ∧ link.connects a b = true :=
  ⟨ht.coherent.joined a b l, fun ⟨_, hlink, hconnects⟩ => ht.linkBetween?_eq hne hlink hconnects⟩

theorem linkBetween?_pushNode (ht : t.Constructed) {name : String} {kind : NodeKind} {bandwidth : R}
    (hpush : (t.pushNode name kind bandwidth).Constructed) {a b : NodeId} (hne : a ≠ b) :
    (t.pushNode name kind bandwidth).linkBetween? a b = t.linkBetween? a b := by
  ext l
  rw [linkBetween?_iff hpush hne, linkBetween?_iff ht hne, link?_pushNode]
  split
  · rename_i hnew
    -- The link that comes with a host does not lead to another node.
    have hnone : t.link? l = none := Array.getElem?_eq_none (Nat.le_of_eq hnew.2.symm)
    have hloop (link : Link R) (hends : link.high = link.low) : link.connects a b ≠ true := by
      intro hc
      rcases Link.connects_iff.mp hc with ⟨rfl, rfl⟩ | ⟨rfl, rfl⟩
      · exact hne hends
      · exact hne hends.symm
    simp [hnone, hloop]
  · rfl

theorem linkBetween?_pushLink_of_ne (ht : t.Constructed) {a b : NodeId}
    {latency forward backward : R} (hpush : (t.pushLink a b latency forward backward).Constructed)
    {m n : NodeId} (hne : m ≠ n) (hpair : pair m n ≠ pair a b) :
    (t.pushLink a b latency forward backward).linkBetween? m n = t.linkBetween? m n := by
  ext l
  rw [linkBetween?_iff hpush hne, linkBetween?_iff ht hne, link?_pushLink]
  split
  · rename_i hnew
    have hnone : t.link? l = none := Array.getElem?_eq_none (Nat.le_of_eq hnew.symm)
    have hother : (t.linkFor a b latency forward backward).connects m n ≠ true := fun hc => by
      apply hpair
      rw [pair_eq_iff]
      rcases linkFor_ends t a b latency forward backward with ⟨hhigh, hlow⟩ | ⟨hhigh, hlow⟩ <;>
        rcases Link.connects_iff.mp hc with ⟨rfl, rfl⟩ | ⟨rfl, rfl⟩ <;> simp [hhigh, hlow]
    simp [hnone, hother]
  · rfl

/-- Both changes end in the same way, and then the catalogue is a faithful one of the topology. -/
structure Matches (m : ChangeM R (Catalogue R) Nat) (m' : LayoutM R Nat) (c : Catalogue R) :
    Prop where
  outcome : (m.run.run c).1 = (m'.run.run c.topology).1
  topology : (m.run.run c).2.topology = (m'.run.run c.topology).2
  faithful : (m.run.run c).2.Faithful

theorem Matches.fault {c : Catalogue R} (h : c.Faithful) (e : Fault R) :
    Matches (throw e) (throw e) c := ⟨rfl, rfl, h⟩

theorem Matches.get {c : Catalogue R} {f : Catalogue R → ChangeM R (Catalogue R) Nat}
    {g : Topology R → LayoutM R Nat} (h : Matches (f c) (g c.topology) c) :
    Matches (MonadState.get >>= f) (MonadState.get >>= g) c := ⟨h.outcome, h.topology, h.faithful⟩

theorem Matches.check {c : Catalogue R} (h : c.Faithful) {test : Except (Fault R) Unit}
    {f : Unit → ChangeM R (Catalogue R) Nat} {g : Unit → LayoutM R Nat}
    (hrest : test = .ok () → Matches (f ()) (g ()) c) :
    Matches (liftM test >>= f) (liftM test >>= g) c := by
  cases test with
  | error e => exact .fault h e
  | ok u => exact hrest rfl

namespace Faithful

variable {c : Catalogue R}

theorem checkName_eq (h : c.Faithful) (name : String) :
    c.checkName name = c.topology.checkName name := by
  unfold Catalogue.checkName Topology.checkName Table.contains
  rw [h.names]

theorem checkUnlinked_eq (h : c.Faithful) {a b : NodeId} (hne : a ≠ b) :
    c.checkUnlinked a b = c.topology.checkUnlinked a b := by
  unfold Catalogue.checkUnlinked Topology.checkUnlinked Table.contains
  rw [h.pairs a b hne]

theorem pushNode (h : c.Faithful) {name : String} {bandwidth : R} (hb : Admitted bandwidth)
    (hfresh : c.topology.findNode? name = none) (kind : NodeKind) :
    Faithful { c with
      topology := c.topology.pushNode name kind bandwidth
      names := c.names.insert name c.topology.nodes.size } := by
  have hpush := h.constructed.pushNode hb hfresh kind
  refine ⟨hpush, fun other => ?_, fun a b hne => ?_⟩
  · by_cases hname : other = name
    · subst hname
      rw [Table.get?_insert_self]
      symm
      rw [hpush.coherent.named]
      exact ⟨_, (node?_pushNode c.topology other kind bandwidth _).trans (if_pos rfl), rfl⟩
    · rw [Table.get?_insert_of_ne _ hname, h.names,
        findNode?_pushNode_of_ne h.constructed hpush hname]
  · rw [h.pairs a b hne, linkBetween?_pushNode h.constructed hpush hne]

theorem pushLink (h : c.Faithful) {a b : NodeId} {forward backward : R}
    (hl : c.topology.Linkable a b forward backward) (latency : R) :
    Faithful { c with
      topology := c.topology.pushLink a b latency forward backward
      pairs := c.pairs.insert (pair a b) c.topology.links.size } := by
  have hpush := h.constructed.pushLink hl latency
  refine ⟨hpush, fun name => ?_, fun m n hmn => ?_⟩
  · rw [h.names, findNode?_pushLink h.constructed hl.ne hpush]
  · by_cases hpair : pair m n = pair a b
    · rw [hpair, Table.get?_insert_self]
      symm
      rw [linkBetween?_iff hpush hmn]
      refine ⟨_, (link?_pushLink c.topology a b latency forward backward _).trans (if_pos rfl), ?_⟩
      have hends := connects_linkFor c.topology a b latency forward backward
      rcases pair_eq_iff.mp hpair with ⟨rfl, rfl⟩ | ⟨rfl, rfl⟩
      · exact hends
      · exact Link.connects_iff.mpr (Link.connects_iff.mp hends).symm
    · rw [Table.get?_insert_of_ne _ hpair, h.pairs m n hmn,
        linkBetween?_pushLink_of_ne h.constructed hpush hmn hpair]

theorem addNode (h : c.Faithful) (name : String) (kind : NodeKind) (bandwidth : R) :
    Matches (Catalogue.addNode name kind bandwidth) (Topology.addNode name kind bandwidth) c := by
  refine .get (.check h fun hb => ?_)
  rw [h.checkName_eq]
  refine .check h fun hname => ?_
  exact ⟨rfl, rfl, h.pushNode (checkBandwidth_ok hb) (checkName_iff.mp hname) kind⟩

theorem addLinkWith (h : c.Faithful) (a b : NodeId) (latency forward backward : R) :
    Matches (Catalogue.addLinkWith a b latency forward backward)
      (Topology.addLinkWith a b latency forward backward) c := by
  refine .get (.check h fun ha => .check h fun hb => .check h fun hne => ?_)
  have hne : a ≠ b := checkApart_iff.mp hne
  refine .check h fun hf => .check h fun hk => ?_
  rw [h.checkUnlinked_eq hne]
  refine .check h fun hfresh => ?_
  exact ⟨rfl, rfl, h.pushLink ⟨checkNode_ok ha, checkNode_ok hb, hne, checkBandwidth_ok hf,
    checkBandwidth_ok hk, checkUnlinked_iff.mp hfresh⟩ latency⟩

theorem addLink (h : c.Faithful) (a b : NodeId) (latency : R) :
    Matches (Catalogue.addLink a b latency) (Topology.addLink a b latency) c :=
  .get (.check h fun _ => .check h fun _ => h.addLinkWith a b latency _ _)

/-- A call ends in the same way with the tables as without them. -/
theorem apply (h : c.Faithful) (call : Call R) : Matches (Catalogue.apply call) call.apply c := by
  cases call with
  | node name kind bandwidth => exact h.addNode name kind bandwidth
  | namedNode name kindName bandwidth =>
    simp only [Catalogue.apply, Call.apply, addNamedNode]
    cases NodeKind.ofName? kindName with
    | some kind => exact h.addNode name kind bandwidth
    | none => exact .fault h _
  | link a b latency => exact h.addLink a b latency
  | linkWithBandwidth a b latency bandwidth => exact h.addLinkWith a b latency bandwidth bandwidth
  | asymmetricLink a b latency forward backward => exact h.addLinkWith a b latency forward backward

end Faithful

section Faults

open ChangeM (Cautious)

theorem cautious_addNode (c : Catalogue R) (name : String) (kind : NodeKind) (bandwidth : R) :
    (addNode name kind bandwidth).Cautious c :=
  .get (.check (.check (.write _ _ _)))

theorem cautious_addLinkWith (c : Catalogue R) (a b : NodeId) (latency forward backward : R) :
    (addLinkWith a b latency forward backward).Cautious c :=
  .get (.check (.check (.check (.check (.check (.check (.write _ _ _)))))))

/-- A call that fails has changed neither the topology nor its tables. -/
theorem cautious_apply (c : Catalogue R) (call : Call R) : (apply call).Cautious c := by
  cases call with
  | node name kind bandwidth => exact cautious_addNode c name kind bandwidth
  | namedNode name kindName bandwidth =>
    simp only [apply]
    split
    · exact cautious_addNode c name _ bandwidth
    · exact .fault _ c
  | link a b latency => exact .get (.check (.check (cautious_addLinkWith c a b latency _ _)))
  | linkWithBandwidth a b latency bandwidth =>
    exact cautious_addLinkWith c a b latency bandwidth bandwidth
  | asymmetricLink a b latency forward backward =>
    exact cautious_addLinkWith c a b latency forward backward

end Faults

/-- Makes a call, be it in vain. -/
def perform (c : Catalogue R) (call : Call R) : Catalogue R := ((apply call).run.run c).2

end Catalogue

end Topology

end FlowFabric
