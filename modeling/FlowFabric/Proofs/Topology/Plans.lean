import FlowFabric.Proofs.Quantity.Bandwidth
import FlowFabric.Proofs.Topology.Links
import FlowFabric.Topology.Layout
import Mathlib.Data.List.Basic

/-! What a layout adds, told apart from how it does so. Pieces are put together as the layout puts
its steps together, so that names, numbers and links of the whole are those of the plan. -/

namespace FlowFabric

/-- The nodes and links that a layout is to add.
A link leads from the first place down to the second. -/
structure Plan (P : Type) where
  name : P → String
  kind : P → NodeKind
  places : List P
  links : List (P × P)

namespace Topology

variable {R : Type}

/-- There is a link between two nodes. -/
def Joined (t : Topology R) (a b : NodeId) : Prop :=
  a ≠ b ∧ ∃ l link, t.link? l = some link ∧ link.connects a b = true

variable [Quantity R] {t : Topology R} {a b : NodeId}

theorem joined_pushNode (t : Topology R) (name : String) (kind : NodeKind) (bandwidth : R) :
    (t.pushNode name kind bandwidth).Joined a b ↔ t.Joined a b := by
  refine and_congr_right fun hne => exists_congr fun l => exists_congr fun link => ?_
  refine and_congr_left fun hconnects => ?_
  rw [link?_pushNode]
  split
  · rename_i hnew
    -- The link that comes with a host does not lead to another node.
    have hnone : t.link? l = none := by
      rw [hnew.2]
      exact Array.getElem?_size
    rw [hnone]
    constructor
    · intro heq
      cases heq
      rcases Link.connects_iff.mp hconnects with ⟨ha, hb⟩ | ⟨hb, ha⟩ <;>
        exact absurd (ha.symm.trans hb) hne
    · intro heq
      cases heq
  · exact Iff.rfl

omit [Quantity R] in
theorem joined_pushLink (t : Topology R) {x y : NodeId} (hne : x ≠ y)
    (latency forward backward : R) : (t.pushLink x y latency forward backward).Joined a b ↔
      t.Joined a b ∨ (a = x ∧ b = y ∨ a = y ∧ b = x) := by
  have hends := linkFor_ends t x y latency forward backward
  constructor
  · rintro ⟨hab, l, link, hlink, hconnects⟩
    rw [link?_pushLink] at hlink
    split at hlink
    · cases hlink
      right
      rcases hends with ⟨hhigh, hlow⟩ | ⟨hhigh, hlow⟩ <;>
        rcases Link.connects_iff.mp hconnects with ⟨rfl, rfl⟩ | ⟨rfl, rfl⟩ <;> simp [hhigh, hlow]
    · exact Or.inl ⟨hab, l, link, hlink, hconnects⟩
  · rintro (⟨hab, l, link, hlink, hconnects⟩ | hnew)
    · refine ⟨hab, l, link, ?_, hconnects⟩
      rw [link?_pushLink, if_neg (Nat.ne_of_lt (lt_size_of_link? hlink)), hlink]
    · refine ⟨?_, t.links.size, _, (link?_pushLink t x y latency forward backward _).trans
        (if_pos rfl), ?_⟩
      · rcases hnew with ⟨rfl, rfl⟩ | ⟨rfl, rfl⟩
        · exact hne
        · exact hne.symm
      · apply Link.connects_iff.mpr
        rcases hends with ⟨hhigh, hlow⟩ | ⟨hhigh, hlow⟩ <;>
          rcases hnew with ⟨rfl, rfl⟩ | ⟨rfl, rfl⟩ <;> simp [hhigh, hlow]

/-- Nodes list the links that join them with others. -/
theorem Constructed.joined_iff (ht : t.Constructed) :
    t.Joined a b ↔ a ≠ b ∧ ∃ l ∈ t.linksOf a, t.neighbour a l = b := by
  refine and_congr_right fun hne => ⟨?_, ?_⟩
  · rintro ⟨l, link, hlink, hconnects⟩
    exact ⟨l, ht.simple.listed hlink hconnects hne, neighbour_of_connects hlink hconnects⟩
  · rintro ⟨l, hl, heq⟩
    obtain ⟨link, hlink, hconnects, hother⟩ := ht.wellFormed.connects hl
    rw [← hother, heq] at hconnects
    exact ⟨l, link, hlink, hconnects⟩

theorem Constructed.linkBetween?_eq_none (ht : t.Constructed) (hne : a ≠ b) (h : ¬ t.Joined a b) :
    t.linkBetween? a b = none := by
  unfold linkBetween?
  rw [if_neg hne, List.find?_eq_none]
  intro l hl heq
  exact h (ht.joined_iff.mpr ⟨hne, l, hl, eq_of_beq heq⟩)

/-- A link between nodes of admitted bandwidth is added if there is none. -/
theorem addLink_eq (ha : a < t.nodes.size) (hb : b < t.nodes.size) (hne : a ≠ b)
    (hbandwidth : Admitted (Quantity.min (t.nodeBandwidth a) (t.nodeBandwidth b)))
    (hfresh : t.linkBetween? a b = none) (latency : R) :
    let bandwidth := Quantity.min (t.nodeBandwidth a) (t.nodeBandwidth b)
    t.Linkable a b bandwidth bandwidth ∧
      (addLink a b latency).run.run t =
        (.ok t.links.size, t.pushLink a b latency bandwidth bandwidth) := by
  intro bandwidth
  have hl : t.Linkable a b bandwidth bandwidth := ⟨ha, hb, hne, hbandwidth, hbandwidth, hfresh⟩
  refine ⟨hl, ?_⟩
  unfold addLink
  rw [ChangeM.run_get_bind, ChangeM.run_check_bind (checkNode_eq ha),
    ChangeM.run_check_bind (checkNode_eq hb)]
  exact addLinkWith_eq hl latency

end Topology

namespace Plan

open FlowFabric.Topology (Admitted)

variable {P : Type}

/-- Places have names of their own, no place and no link occurs twice,
and links between places lead down. -/
structure Sound (plan : Plan P) : Prop where
  named : Function.Injective plan.name
  places : plan.places.Nodup
  links : plan.links.Nodup
  descends : ∀ {x y}, (x, y) ∈ plan.links → (plan.kind x).rank < (plan.kind y).rank

/-- There is one node at a place. -/
theorem eq_of_place {places : List P} (h : places.Nodup) {a b : NodeId} {x : P}
    (ha : places[a]? = some x) (hb : places[b]? = some x) : a = b := by
  apply (List.getElem?_inj (List.getElem?_eq_some_iff.mp ha).1 h).mp
  rw [ha, hb]

variable {R : Type} [Quantity R]

/-- The topology has nodes at the places, in their order, and the links between them. -/
structure Drawn (plan : Plan P) (places : List P) (links : List (P × P)) (t : Topology R) :
    Prop where
  constructed : t.Constructed
  nodes : t.nodes.toList.map (fun n => (n.name, n.kind)) =
    places.map fun x => (plan.name x, plan.kind x)
  bandwidth : ∀ {n node}, t.node? n = some node → Admitted node.bandwidth
  ends : ∀ {x y}, (x, y) ∈ links → x ∈ places ∧ y ∈ places
  joined : ∀ {a b}, t.Joined a b ↔ ∃ x y, places[a]? = some x ∧ places[b]? = some y ∧
    ((x, y) ∈ links ∨ (y, x) ∈ links)

namespace Drawn

variable {plan : Plan P} {places : List P} {links : List (P × P)} {t : Topology R}
    {n : NodeId} {x : P}

theorem empty (plan : Plan P) (kind : FabricKind) :
    plan.Drawn [] [] (Topology.empty kind : Topology R) where
  constructed := ⟨kind, .refl⟩
  nodes := rfl
  bandwidth h := by cases h
  ends h := by cases h
  joined := by
    intro a b
    constructor
    · rintro ⟨_, l, link, hlink, _⟩
      cases hlink
    · rintro ⟨x, y, hx, _⟩
      cases hx

theorem size_eq (h : plan.Drawn places links t) : t.nodes.size = places.length := by
  have hlength := congrArg List.length h.nodes
  rwa [List.length_map, List.length_map, Array.length_toList] at hlength

theorem node_eq (h : plan.Drawn places links t) (hn : places[n]? = some x) :
    ∃ node, t.node? n = some node ∧ node.name = plan.name x ∧ node.kind = plan.kind x := by
  have heq : (t.nodes.toList.map fun n => (n.name, n.kind))[n]? =
      (places.map fun x => (plan.name x, plan.kind x))[n]? := by rw [h.nodes]
  rw [List.getElem?_map, List.getElem?_map, hn, Option.map_some, Array.getElem?_toList] at heq
  obtain ⟨node, hnode, hpair⟩ := Option.map_eq_some_iff.mp heq
  exact ⟨node, hnode, congrArg Prod.fst hpair, congrArg Prod.snd hpair⟩

theorem name_eq (h : plan.Drawn places links t) (hn : places[n]? = some x) :
    (t.node? n).map Node.name = some (plan.name x) := by
  obtain ⟨node, hnode, hname, _⟩ := h.node_eq hn
  rw [hnode, Option.map_some, hname]

theorem map_node_eq (h : plan.Drawn places links t) (hn : places[n]? = some x) :
    (t.node? n).map (fun node => (node.name, node.kind)) = some (plan.name x, plan.kind x) := by
  obtain ⟨node, hnode, hname, hkind⟩ := h.node_eq hn
  rw [hnode, Option.map_some, hname, hkind]

theorem place_of_lt (h : plan.Drawn places links t) (hn : n < t.nodes.size) :
    ∃ x, places[n]? = some x := by
  rw [h.size_eq] at hn
  exact ⟨places[n], List.getElem?_eq_getElem hn⟩

theorem kindOf_eq (h : plan.Drawn places links t) (hn : places[n]? = some x) :
    t.rankOf n = (plan.kind x).rank ∧ t.isHost n = (plan.kind x).isHost := by
  obtain ⟨node, hnode, _, hkind⟩ := h.node_eq hn
  unfold Topology.rankOf Topology.isHost Node.rank
  rw [hnode, ← hkind]
  exact ⟨rfl, rfl⟩

theorem place_of_host (h : plan.Drawn places links t) (hn : t.isHost n = true) :
    ∃ x, places[n]? = some x ∧ (plan.kind x).isHost = true := by
  have hlt : n < t.nodes.size := by
    unfold Topology.isHost at hn
    split at hn
    · rename_i node hnode
      exact Topology.lt_size_of_node? hnode
    · cases hn
  obtain ⟨x, hx⟩ := h.place_of_lt hlt
  rw [(h.kindOf_eq hx).2] at hn
  exact ⟨x, hx, hn⟩

/-- There is a host at every place for one. -/
theorem exists_host (h : plan.Drawn places links t) (hx : x ∈ places)
    (hkind : (plan.kind x).isHost = true) :
    ∃ n, t.isHost n = true ∧ (t.node? n).map Node.name = some (plan.name x) := by
  obtain ⟨n, hn⟩ := List.getElem?_of_mem hx
  exact ⟨n, (h.kindOf_eq hn).2.trans hkind, h.name_eq hn⟩

theorem admitted (h : plan.Drawn places links t) (hn : places[n]? = some x) :
    Admitted (t.nodeBandwidth n) := by
  obtain ⟨node, hnode, _⟩ := h.node_eq hn
  unfold Topology.nodeBandwidth
  rw [hnode]
  exact h.bandwidth hnode

theorem findNode?_eq_none (h : plan.Drawn places links t) (hsound : plan.Sound) (hx : x ∉ places) :
    t.findNode? (plan.name x) = none := by
  unfold Topology.findNode?
  rw [Array.findIdx?_eq_none_iff]
  intro node hnode
  rw [beq_eq_false_iff_ne]
  intro heq
  have hmem : (node.name, node.kind) ∈ t.nodes.toList.map fun n => (n.name, n.kind) :=
    List.mem_map_of_mem (Array.mem_toList_iff.mpr hnode)
  rw [h.nodes] at hmem
  obtain ⟨y, hy, hpair⟩ := List.mem_map.mp hmem
  have hname : plan.name y = plan.name x := (congrArg Prod.fst hpair).trans heq
  exact hx (hsound.named hname ▸ hy)

theorem pushNode (h : plan.Drawn places links t) (hsound : plan.Sound) (hx : x ∉ places)
    {bandwidth : R} (hb : Admitted bandwidth) :
    plan.Drawn (places ++ [x]) links (t.pushNode (plan.name x) (plan.kind x) bandwidth) where
  constructed := h.constructed.pushNode hb (h.findNode?_eq_none hsound hx) _
  nodes := by
    unfold Topology.pushNode
    cases (plan.kind x).isHost <;> simp [h.nodes]
  bandwidth {n node} hn := by
    rw [Topology.node?_pushNode] at hn
    split at hn
    · cases hn
      exact hb
    · exact h.bandwidth hn
  ends {u v} huv := by
    obtain ⟨hu, hv⟩ := h.ends huv
    exact ⟨List.mem_append_left _ hu, List.mem_append_left _ hv⟩
  joined {a b} := by
    -- The new place is at no end of a link.
    have hold {n : NodeId} {u : P} (hu : u ∈ places) :
        (places ++ [x])[n]? = some u ↔ places[n]? = some u := by
      rw [List.getElem?_append]
      split
      · exact Iff.rfl
      · rename_i hge
        rw [List.getElem?_eq_none (Nat.le_of_not_lt hge)]
        constructor
        · intro hnew
          exact absurd (List.mem_singleton.mp (List.mem_of_getElem? hnew) ▸ hu) hx
        · intro hnone
          cases hnone
    rw [Topology.joined_pushNode, h.joined]
    refine exists_congr fun u => exists_congr fun v => ?_
    constructor
    · rintro ⟨hu, hv, huv⟩
      exact ⟨(hold (List.mem_of_getElem? hu)).mpr hu, (hold (List.mem_of_getElem? hv)).mpr hv, huv⟩
    · rintro ⟨hu, hv, huv⟩
      have hmem : u ∈ places ∧ v ∈ places := by
        rcases huv with huv | huv
        · exact h.ends huv
        · exact (h.ends huv).symm
      exact ⟨(hold hmem.1).mp hu, (hold hmem.2).mp hv, huv⟩

theorem pushLink (h : plan.Drawn places links t) (hnodup : places.Nodup) {a b : NodeId} {x y : P}
    (ha : places[a]? = some x) (hb : places[b]? = some y) {forward backward : R}
    (hl : t.Linkable a b forward backward) (latency : R) :
    plan.Drawn places (links ++ [(x, y)]) (t.pushLink a b latency forward backward) where
  constructed := h.constructed.pushLink hl latency
  nodes := by
    rw [← h.nodes]
    apply List.ext_getElem?
    intro n
    have hnode := Topology.node?_pushLink t hl.ne latency forward backward n
    unfold Topology.node? at hnode
    rw [List.getElem?_map, List.getElem?_map, Array.getElem?_toList, Array.getElem?_toList, hnode,
      Option.map_map]
    refine congrArg (fun f => Option.map f _) (funext fun node => ?_)
    show (_, _) = (_, _)
    split <;> rfl
  bandwidth {n node} hn := by
    rw [Topology.node?_pushLink t hl.ne, Option.map_eq_some_iff] at hn
    obtain ⟨old, hold, rfl⟩ := hn
    have hsame : (if n = a ∨ n = b then { old with links := old.links ++ [t.links.size] }
        else old).bandwidth = old.bandwidth := by
      split <;> rfl
    rw [hsame]
    exact h.bandwidth hold
  ends {u v} huv := by
    rcases List.mem_append.mp huv with hold | hnew
    · exact h.ends hold
    · cases List.mem_singleton.mp hnew
      exact ⟨List.mem_of_getElem? ha, List.mem_of_getElem? hb⟩
  joined {c d} := by
    rw [Topology.joined_pushLink t hl.ne, h.joined]
    constructor
    · rintro (⟨u, v, hu, hv, huv⟩ | ⟨rfl, rfl⟩ | ⟨rfl, rfl⟩)
      · exact ⟨u, v, hu, hv, huv.imp (List.mem_append_left _) (List.mem_append_left _)⟩
      · exact ⟨x, y, ha, hb, Or.inl (List.mem_append_right _ List.mem_cons_self)⟩
      · exact ⟨y, x, hb, ha, Or.inr (List.mem_append_right _ List.mem_cons_self)⟩
    · rintro ⟨u, v, hu, hv, huv⟩
      rw [List.mem_append, List.mem_append, List.mem_singleton, List.mem_singleton] at huv
      rcases huv with (hold | hnew) | (hold | hnew)
      · exact Or.inl ⟨u, v, hu, hv, Or.inl hold⟩
      · cases hnew
        exact Or.inr (Or.inl ⟨eq_of_place hnodup hu ha, eq_of_place hnodup hv hb⟩)
      · exact Or.inl ⟨u, v, hu, hv, Or.inr hold⟩
      · cases hnew
        exact Or.inr (Or.inr ⟨eq_of_place hnodup hu hb, eq_of_place hnodup hv ha⟩)

end Drawn

section Names

/-- Places with different words have different names if the
names join words without a separator in them. -/
theorem named_of_words {name : P → String} (words : P → List String)
    (hname : ∀ x, name x = "_".intercalate (words x)) (hplain : ∀ x, ∀ w ∈ words x, '_' ∉ w.toList)
    (hne : ∀ x, words x ≠ []) (hwords : Function.Injective words) : Function.Injective name := by
  have hsplit (x : P) : (name x).toList.splitOn '_' = (words x).map String.toList := by
    have hall : ∀ l ∈ (words x).map String.toList, '_' ∉ l := by
      intro l hl
      obtain ⟨w, hw, rfl⟩ := List.mem_map.mp hl
      exact hplain x w hw
    have hsome : (words x).map String.toList ≠ [] := fun heq => hne x (List.map_eq_nil_iff.mp heq)
    rw [hname, String.toList_intercalate]
    exact List.splitOn_intercalate '_' hall hsome
  intro x y h
  apply hwords
  apply List.map_injective_iff.mpr fun _ _ heq => String.toList_inj.mp heq
  rw [← hsplit x, h, hsplit y]

theorem toList_repr (n : Nat) : n.repr.toList = Nat.toDigits 10 n := by
  rw [Nat.repr_eq_ofList_toDigits, String.toList_ofList]

theorem repr_injective : Function.Injective Nat.repr := by
  intro m n h
  have hdigits : Nat.toDigits 10 m = Nat.toDigits 10 n := by
    rw [← toList_repr, h, toList_repr]
  calc
    m = Nat.ofDigitChars 10 (Nat.toDigits 10 m) 0 :=
      (Nat.ofDigitChars_toDigits (by decide) (by decide)).symm
    _ = Nat.ofDigitChars 10 (Nat.toDigits 10 n) 0 := by rw [hdigits]
    _ = n := Nat.ofDigitChars_toDigits (by decide) (by decide)

end Names

/-- Lists are put together without repetition if none of their elements is in two of them. -/
theorem nodup_flatMap {ι β : Type} {xs : List ι} {f : ι → List β} (hxs : xs.Nodup)
    (hf : ∀ i ∈ xs, (f i).Nodup) (hapart : ∀ i ∈ xs, ∀ j ∈ xs, ∀ y ∈ f i, y ∈ f j → i = j) :
    (xs.flatMap f).Nodup := by
  refine List.nodup_flatMap.mpr ⟨hf, ?_⟩
  refine (List.pairwise_iff_forall_sublist.mpr ?_)
  intro i j hsub y hi hj
  have hne : i ≠ j := by
    have hpair := hxs.sublist hsub
    simpa using hpair
  have hmem := hsub.subset
  exact hne (hapart i (hmem (by simp)) j (hmem (by simp)) y hi hj)

section Pieces

variable {needs places places' : List P} {links links' : List (P × P)} {α β : Type} {x y : P}

/-- Once the places that it needs are there, a piece of a layout adds places and links, as they come
next in the plan, and gives a value. -/
structure Adds (plan : Plan P) (needs places : List P) (links : List (P × P)) (m : LayoutM R α)
    (a : α) : Prop where
  run : ∀ {t before joined}, needs ⊆ before → before ++ places <+: plan.places →
    joined ++ links <+: plan.links → plan.Drawn before joined t →
      ∃ t', m.run.run t = (.ok a, t') ∧ plan.Drawn (before ++ places) (joined ++ links) t'

namespace Adds

variable {plan : Plan P}

theorem pure (a : α) : plan.Adds needs [] [] (pure a : LayoutM R α) a where
  run {t before joined} _ _ _ h := by
    refine ⟨t, rfl, ?_⟩
    rw [List.append_nil, List.append_nil]
    exact h

/-- Pieces one after the other add what they add, one after the other. -/
theorem bind {m : LayoutM R α} {f : α → LayoutM R β} {a : α} {b : β}
    (h : plan.Adds needs places links m a)
    (h' : plan.Adds (needs ++ places) places' links' (f a) b) :
    plan.Adds needs (places ++ places') (links ++ links') (m >>= f) b where
  run {t before joined} hneeds hplaces hlinks hdrawn := by
    rw [← List.append_assoc] at hplaces hlinks
    obtain ⟨t', hrun, hdrawn'⟩ := h.run hneeds ((List.prefix_append _ _).trans hplaces)
      ((List.prefix_append _ _).trans hlinks) hdrawn
    have hmore : needs ++ places ⊆ before ++ places :=
      List.append_subset.mpr ⟨fun x hx => List.mem_append_left _ (hneeds hx),
        List.subset_append_right _ _⟩
    obtain ⟨t'', hrun', hdrawn''⟩ := h'.run hmore hplaces hlinks hdrawn'
    rw [List.append_assoc, List.append_assoc] at hdrawn''
    exact ⟨t'', (ChangeM.run_bind hrun).trans hrun', hdrawn''⟩

/-- What is made of the value in the end adds nothing. -/
theorem map {m : LayoutM R α} {a : α} (h : plan.Adds needs places links m a) (g : α → β) :
    plan.Adds needs places links (m >>= fun x => Pure.pure (g x)) (g a) where
  run hneeds hplaces hlinks hdrawn := by
    obtain ⟨t', hrun, hdrawn'⟩ := h.run hneeds hplaces hlinks hdrawn
    exact ⟨t', ChangeM.run_bind hrun, hdrawn'⟩

theorem weaken {needs' : List P} {m : LayoutM R α} {a : α} (h : plan.Adds needs places links m a)
    (hsub : needs ⊆ needs') : plan.Adds needs' places links m a where
  run hneeds := h.run (List.Subset.trans hsub hneeds)

/-- A loop adds what its rounds add. -/
theorem mapM {ι : Type} {xs : List ι} {f : ι → LayoutM R α} {places : ι → List P}
    {links : ι → List (P × P)} {value : ι → α}
    (h : ∀ i ∈ xs, plan.Adds needs (places i) (links i) (f i) (value i)) :
    plan.Adds needs (xs.flatMap places) (xs.flatMap links) (xs.mapM f) (xs.map value) := by
  induction xs generalizing needs with
  | nil => exact pure []
  | cons i rest ih =>
    rw [List.mapM_cons]
    have hrest : ∀ j ∈ rest, plan.Adds (needs ++ places i) (places j) (links j) (f j) (value j) :=
      fun j hj => (h j (List.mem_cons_of_mem _ hj)).weaken (List.subset_append_left _ _)
    exact (h i List.mem_cons_self).bind ((ih hrest).map (value i :: ·))

/-- A loop of single links. -/
theorem forM {ι κ : Type} {xs : List ι} {g : ι → κ} {f : κ → LayoutM R Unit} {link : ι → P × P}
    (h : ∀ i ∈ xs, plan.Adds needs [] [link i] (f (g i)) ()) :
    plan.Adds needs [] (xs.map link) ((xs.map g).forM f) () := by
  induction xs with
  | nil => exact pure ()
  | cons i rest ih =>
    have hrest := ih fun j hj => h j (List.mem_cons_of_mem _ hj)
    exact (h i List.mem_cons_self).bind (hrest.weaken (List.subset_append_left _ _))

theorem of_eq {m : LayoutM R α} {a : α} (h : plan.Adds needs places links m a)
    (hplaces : places = places') (hlinks : links = links') :
    plan.Adds needs places' links' m a := by
  rw [← hplaces, ← hlinks]
  exact h

theorem of_value {m : LayoutM R α} {a b : α} (h : plan.Adds needs places links m a)
    (hvalue : a = b) : plan.Adds needs places links m b := by
  rw [← hvalue]
  exact h

/-- A layout that adds all of its plan draws it when nothing was there before. -/
theorem draws {m : LayoutM R α} {a : α} (h : plan.Adds [] plan.places plan.links m a)
    (kind : FabricKind) :
    ∃ t, m.run.run (Topology.empty kind) = (.ok a, t) ∧ plan.Drawn plan.places plan.links t :=
  h.run (List.nil_subset _) List.prefix_rfl List.prefix_rfl (Drawn.empty plan kind)

end Adds

variable [DecidableEq P] {plan : Plan P}

/-- The number that the node at a place gets. -/
def number (plan : Plan P) (x : P) : NodeId := plan.places.idxOf x

/-- A place has its number as soon as it is drawn. -/
theorem getElem?_number {before : List P} (h : before <+: plan.places) (hx : x ∈ before) :
    before[plan.number x]? = some x := by
  obtain ⟨rest, hrest⟩ := h
  unfold number
  rw [← hrest, List.idxOf_append_of_mem hx]
  exact List.getElem?_idxOf hx

theorem number_eq {before : List P} (h : before ++ [x] <+: plan.places) (hnew : x ∉ before) :
    plan.number x = before.length := by
  obtain ⟨rest, hrest⟩ := h
  unfold number
  rw [← hrest, List.append_assoc, List.idxOf_append_of_notMem hnew, List.singleton_append,
    List.idxOf_cons_self, Nat.add_zero]

namespace Adds

variable (hsound : plan.Sound)

include hsound

theorem node {bandwidth : R} (hb : Admitted bandwidth) (x : P) :
    plan.Adds needs [x] [] (Topology.addNode (plan.name x) (plan.kind x) bandwidth)
      (plan.number x) where
  run {t before joined} _ hplaces _ hdrawn := by
    have hnew : x ∉ before := by
      intro hx
      have hnodup := hsound.places.sublist hplaces.sublist
      exact (List.nodup_append.mp hnodup).2.2 x hx x List.mem_cons_self rfl
    have hname := hdrawn.findNode?_eq_none hsound hnew
    refine ⟨t.pushNode (plan.name x) (plan.kind x) bandwidth, ?_, ?_⟩
    · rw [number_eq hplaces hnew, ← hdrawn.size_eq]
      exact Topology.addNode_eq hb hname (plan.kind x)
    · rw [List.append_nil]
      exact hdrawn.pushNode hsound hnew hb

theorem link (hx : x ∈ needs) (hy : y ∈ needs) (latency : R) :
    plan.Adds needs [] [(x, y)] (Layout.link (plan.number x) (plan.number y) latency) () where
  run {t before joined} hneeds hplaces hlinks hdrawn := by
    rw [List.append_nil] at hplaces ⊢
    have hnodup : before.Nodup := hsound.places.sublist hplaces.sublist
    have hbefore := getElem?_number hplaces (hneeds hx)
    have hbefore' := getElem?_number hplaces (hneeds hy)
    have hlt {n : NodeId} {u : P} (hu : before[n]? = some u) : n < t.nodes.size := by
      rw [hdrawn.size_eq]
      exact (List.getElem?_eq_some_iff.mp hu).1
    have hmem : (x, y) ∈ plan.links :=
      hlinks.subset (List.mem_append_right _ List.mem_cons_self)
    have hdown := hsound.descends hmem
    have hne : plan.number x ≠ plan.number y := by
      intro heq
      rw [heq, hbefore'] at hbefore
      rw [Option.some.inj hbefore] at hdown
      exact Nat.lt_irrefl _ hdown
    -- A plan lists a link once and downwards, so that the ends are not joined yet.
    have hfresh : ¬ t.Joined (plan.number x) (plan.number y) := by
      rw [hdrawn.joined]
      rintro ⟨u, v, hu, hv, huv⟩
      obtain rfl : x = u := Option.some.inj (hbefore.symm.trans hu)
      obtain rfl : y = v := Option.some.inj (hbefore'.symm.trans hv)
      rcases huv with hold | hback
      · have honce := hsound.links.sublist hlinks.sublist
        exact (List.nodup_append.mp honce).2.2 _ hold _ List.mem_cons_self rfl
      · have hup := hsound.descends (hlinks.subset (List.mem_append_left _ hback))
        omega
    have hbandwidth : Admitted (Quantity.min (t.nodeBandwidth (plan.number x))
        (t.nodeBandwidth (plan.number y))) :=
      Quantity.min_induction (hdrawn.admitted hbefore) (hdrawn.admitted hbefore')
    obtain ⟨hl, hadd⟩ := Topology.addLink_eq (hlt hbefore) (hlt hbefore') hne hbandwidth
      (hdrawn.constructed.linkBetween?_eq_none hne hfresh) latency
    refine ⟨_, ?_, hdrawn.pushLink hnodup hbefore hbefore' hl latency⟩
    exact ChangeM.run_bind hadd

theorem host {bandwidth : R} (hb : Admitted bandwidth) (hx : x ∈ needs) (hy : plan.kind y = .host)
    (latency : R) :
    plan.Adds needs [y] [(x, y)] (Layout.host (plan.number x) (plan.name y) bandwidth latency)
      (plan.number y) := by
  have hnode : plan.Adds needs [y] [] (Topology.addNode (plan.name y) (plan.kind y) bandwidth)
      (plan.number y) := node hsound hb y
  rw [hy] at hnode
  have hx' : x ∈ needs ++ [y] := List.mem_append_left _ hx
  have hy' : y ∈ needs ++ [y] := List.mem_append_right _ List.mem_cons_self
  exact hnode.bind ((link hsound hx' hy' latency).map fun _ => plan.number y)

/-- A loop of nodes of one kind. -/
theorem nodes {ι : Type} {xs : List ι} {place : ι → P} {kind : NodeKind} {bandwidth : R}
    (hb : Admitted bandwidth) (hkind : ∀ i, plan.kind (place i) = kind) :
    plan.Adds needs (xs.map place) []
      (xs.mapM fun i => Topology.addNode (plan.name (place i)) kind bandwidth)
      (xs.map fun i => plan.number (place i)) := by
  have hround (i : ι) : plan.Adds needs [place i] []
      (Topology.addNode (plan.name (place i)) kind bandwidth) (plan.number (place i)) := by
    rw [← hkind i]
    exact node hsound hb (place i)
  refine (mapM fun i _ => hround i).of_eq List.map_eq_flatMap.symm ?_
  exact List.flatMap_eq_nil_iff.mpr fun _ _ => rfl

/-- A loop of hosts below a switch. -/
theorem hosts {ι : Type} {xs : List ι} {place : ι → P} {bandwidth : R} (hb : Admitted bandwidth)
    (hx : x ∈ needs) (hkind : ∀ i, plan.kind (place i) = .host) (latency : R) :
    plan.Adds needs (xs.map place) (xs.map fun i => (x, place i))
      (xs.mapM fun i => Layout.host (plan.number x) (plan.name (place i)) bandwidth latency)
      (xs.map fun i => plan.number (place i)) := by
  refine (mapM fun i _ => host hsound hb hx (hkind i) latency).of_eq ?_ ?_
  · exact List.map_eq_flatMap.symm
  · exact List.map_eq_flatMap.symm

end Adds

end Pieces

end Plan

end FlowFabric
