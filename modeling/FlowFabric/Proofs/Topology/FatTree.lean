import FlowFabric.Proofs.Topology.Plans

namespace FlowFabric

namespace FatTree

/-- The places of a fat-tree: the cores,
and in each pod the aggregates, the edges and the hosts below them. -/
inductive Place where
  | core (c : Nat)
  | agg (pod a : Nat)
  | edge (pod e : Nat)
  | host (pod e h : Nat)
deriving DecidableEq

namespace Place

def name : Place → String
  | core c => s!"core_{c}"
  | agg pod a => s!"agg_{pod}_{a}"
  | edge pod e => s!"edge_{pod}_{e}"
  | host pod e h => s!"host_{pod}_{e}_{h}"

def kind : Place → NodeKind
  | core _ => .switch .core
  | agg _ _ => .switch .aggregate
  | edge _ _ => .switch .edge
  | host _ _ _ => .host

def words : Place → List String
  | core c => ["core", toString c]
  | agg pod a => ["agg", toString pod, toString a]
  | edge pod e => ["edge", toString pod, toString e]
  | host pod e h => ["host", toString pod, toString e, toString h]

theorem name_injective : Function.Injective name := by
  apply Plan.named_of_words words
  · intro x
    cases x <;> simp [name, words, String.intercalate_cons_cons, String.append_assoc] <;> rfl
  · intro x
    cases x <;> simp [words]
  · intro x
    cases x <;> exact List.cons_ne_nil _ _
  · intro x y h
    cases x <;> cases y <;> simp_all [words, Plan.repr_injective.eq_iff]

end Place

open Place

/-- The aggregates and edges of a pod, each edge followed by its hosts. -/
def podPlaces (half pod : Nat) : List Place :=
  (List.range half).map (agg pod) ++
    (List.range half).flatMap fun e => edge pod e :: (List.range half).map (host pod e)

/-- Aggregates hang below a group of cores,
edges below all aggregates of the pod, and hosts below their edge. -/
def podLinks (half pod : Nat) : List (Place × Place) :=
  ((List.range half).flatMap fun a =>
    (List.range half).map fun j => (core (a * half + j), agg pod a)) ++
  (List.range half).flatMap fun e =>
    ((List.range half).map fun a => (agg pod a, edge pod e)) ++
      (List.range half).map fun h => (edge pod e, host pod e h)

/-- A fat-tree with pods of two tiers, each as many switches as half the arity. -/
def plan (half pods : Nat) : Plan Place where
  name := name
  kind := kind
  places := (List.range (half * half)).map core ++ (List.range pods).flatMap (podPlaces half)
  links := (List.range pods).flatMap (podLinks half)

def aggTier (half pods : Nat) : List Place :=
  (List.range pods).flatMap fun pod => (List.range half).map (agg pod)

def edgeTier (half pods : Nat) : List Place :=
  (List.range pods).flatMap fun pod => (List.range half).map (edge pod)

/-- The hosts of a pod follow the order of its edges. -/
def hostTier (half pods : Nat) : List Place :=
  (List.range pods).flatMap fun pod => (List.range half).flatMap fun e =>
    (List.range half).map (host pod e)

/-- The way down to a place: its pod, its edge switch there, its number below. Cores are above all
pods, and aggregates of one pod are not told apart. -/
def Place.address : Place → List Nat
  | core _ => []
  | agg pod _ => [pod]
  | edge pod e => [pod, e]
  | host pod e h => [pod, e, h]

/-- The numbers of a place are those of a fat-tree. -/
def Place.Within (half pods : Nat) : Place → Prop
  | core c => c < half * half
  | agg pod a => pod < pods ∧ a < half
  | edge pod e => pod < pods ∧ e < half
  | host pod e h => pod < pods ∧ e < half ∧ h < half

/-- The links of a fat-tree, from the upper place to the lower one. -/
inductive Hangs (half pods : Nat) : Place → Place → Prop where
  | agg {pod a j : Nat} (hpod : pod < pods) (ha : a < half) (hj : j < half) :
      Hangs half pods (core (a * half + j)) (agg pod a)
  | edge {pod a e : Nat} (hpod : pod < pods) (ha : a < half) (he : e < half) :
      Hangs half pods (agg pod a) (edge pod e)
  | host {pod e h : Nat} (hpod : pod < pods) (he : e < half) (hh : h < half) :
      Hangs half pods (edge pod e) (host pod e h)

section Members

variable {half pods pod a c e h : Nat} {x y : Place}

theorem mem_podPlaces : x ∈ podPlaces half pod ↔
    (∃ a < half, agg pod a = x) ∨ ∃ e < half, x = edge pod e ∨ ∃ h < half, host pod e h = x := by
  simp [podPlaces]

theorem mem_places : x ∈ (plan half pods).places ↔ x.Within half pods := by
  simp only [plan, List.mem_append, List.mem_map, List.mem_range, List.mem_flatMap, mem_podPlaces]
  cases x <;> simp [Within]

theorem mem_podLinks : (x, y) ∈ podLinks half pod ↔
    (∃ a < half, ∃ j < half, core (a * half + j) = x ∧ agg pod a = y) ∨
      ∃ e < half, (∃ a < half, agg pod a = x ∧ edge pod e = y) ∨
        ∃ h < half, edge pod e = x ∧ host pod e h = y := by
  simp [podLinks]

theorem mem_links : (x, y) ∈ (plan half pods).links ↔ Hangs half pods x y := by
  simp only [plan, List.mem_flatMap, List.mem_range, mem_podLinks]
  constructor
  · rintro ⟨pod, hpod, ⟨a, ha, j, hj, rfl, rfl⟩ | ⟨e, he, ⟨a, ha, rfl, rfl⟩ | ⟨h, hh, rfl, rfl⟩⟩⟩
    · exact .agg hpod ha hj
    · exact .edge hpod ha he
    · exact .host hpod he hh
  · rintro (⟨hpod, ha, hj⟩ | ⟨hpod, ha, he⟩ | ⟨hpod, he, hh⟩)
    · exact ⟨_, hpod, Or.inl ⟨_, ha, _, hj, rfl, rfl⟩⟩
    · exact ⟨_, hpod, Or.inr ⟨_, he, Or.inl ⟨_, ha, rfl, rfl⟩⟩⟩
    · exact ⟨_, hpod, Or.inr ⟨_, he, Or.inr ⟨_, hh, rfl, rfl⟩⟩⟩

theorem head_of_mem_podPlaces (h : x ∈ podPlaces half pod) : x.address.head? = some pod := by
  rcases mem_podPlaces.mp h with ⟨a, _, rfl⟩ | ⟨e, _, rfl | ⟨h, _, rfl⟩⟩ <;> rfl

theorem head_of_mem_podLinks (h : (x, y) ∈ podLinks half pod) : y.address.head? = some pod := by
  rcases mem_podLinks.mp h with ⟨a, _, j, _, _, rfl⟩ |
    ⟨e, _, ⟨a, _, _, rfl⟩ | ⟨h, _, _, rfl⟩⟩ <;> rfl

theorem nodup_podPlaces : (podPlaces half pod).Nodup := by
  refine List.nodup_append.mpr ⟨List.nodup_range.map fun _ _ heq => (agg.inj heq).2, ?_, ?_⟩
  · apply Plan.nodup_flatMap List.nodup_range
    · intro e _
      exact List.nodup_cons.mpr ⟨by simp, List.nodup_range.map fun _ _ heq => (host.inj heq).2.2⟩
    · intro e _ e' _ x hx hx'
      cases x <;> simp_all
  · intro x hx y hy heq
    subst heq
    cases x <;> simp_all

theorem nodup_places : (plan half pods).places.Nodup := by
  refine List.nodup_append.mpr ⟨List.nodup_range.map fun _ _ heq => core.inj heq, ?_, ?_⟩
  · apply Plan.nodup_flatMap List.nodup_range
    · intro pod _
      exact nodup_podPlaces
    · intro pod _ pod' _ x hx hx'
      exact Option.some.inj ((head_of_mem_podPlaces hx).symm.trans (head_of_mem_podPlaces hx'))
  · intro x hx y hy heq
    obtain ⟨c, _, rfl⟩ := List.mem_map.mp hx
    obtain ⟨pod, _, hpod⟩ := List.mem_flatMap.mp hy
    cases head_of_mem_podPlaces (heq ▸ hpod)

theorem nodup_podLinks : (podLinks half pod).Nodup := by
  refine List.nodup_append.mpr ⟨?_, ?_, ?_⟩
  · apply Plan.nodup_flatMap List.nodup_range
    · intro a _
      exact List.nodup_range.map fun _ _ heq =>
        Nat.add_left_cancel (core.inj (Prod.mk.inj heq).1)
    · rintro a _ a' _ ⟨x, y⟩ hx hx'
      obtain ⟨_, _, heq⟩ := List.mem_map.mp hx
      obtain ⟨_, _, heq'⟩ := List.mem_map.mp hx'
      exact (agg.inj (Prod.mk.inj (heq.trans heq'.symm)).2).2
  · apply Plan.nodup_flatMap List.nodup_range
    · intro e _
      refine List.nodup_append.mpr ⟨?_, ?_, ?_⟩
      · exact List.nodup_range.map fun _ _ heq => (agg.inj (Prod.mk.inj heq).1).2
      · exact List.nodup_range.map fun _ _ heq => (host.inj (Prod.mk.inj heq).2).2.2
      · rintro ⟨x, y⟩ hx _ hy rfl
        cases x <;> simp_all
    · have hedge {e : Nat} {l : Place × Place}
          (hl : l ∈ ((List.range half).map fun a => (agg pod a, edge pod e)) ++
            (List.range half).map fun h => (edge pod e, host pod e h)) :
          l.2.address[1]? = some e := by
        rcases List.mem_append.mp hl with hl | hl
        all_goals
          obtain ⟨_, _, rfl⟩ := List.mem_map.mp hl
          rfl
      intro e _ e' _ l hl hl'
      exact Option.some.inj ((hedge hl).symm.trans (hedge hl'))
  · rintro ⟨x, y⟩ hx _ hy rfl
    cases y <;> simp_all

theorem nodup_links : (plan half pods).links.Nodup := by
  apply Plan.nodup_flatMap List.nodup_range
  · intro pod _
    exact nodup_podLinks
  · rintro pod _ pod' _ ⟨x, y⟩ hx hx'
    exact Option.some.inj ((head_of_mem_podLinks hx).symm.trans (head_of_mem_podLinks hx'))

theorem sound (half pods : Nat) : (plan half pods).Sound where
  named := name_injective
  places := nodup_places
  links := nodup_links
  descends h := by
    rw [mem_links] at h
    cases h <;> exact Nat.lt_add_one _

end Members

section Drawing

open FlowFabric.Topology (Admitted)

variable {R : Type} [Quantity R] {s : FatTreeShape R} {pods pod a e : Nat} {needs : List Place}

/-- The numbers of the cores. -/
def cores (half pods : Nat) : List NodeId :=
  (List.range (half * half)).map fun c => (plan half pods).number (core c)

/-- The numbers of the places of each tier, pod by pod. -/
def layout (half pods : Nat) : Layout where
  hosts := (hostTier half pods).map (plan half pods).number
  edges := (edgeTier half pods).map (plan half pods).number
  aggregates := (aggTier half pods).map (plan half pods).number
  cores := cores half pods
  gateways := []
  intercloud := []

theorem core_lt {half j : Nat} (ha : a < half) (hj : j < half) : a * half + j < half * half := by
  calc
    a * half + j < a * half + half := Nat.add_lt_add_left hj _
    _ = (a + 1) * half := (Nat.succ_mul a half).symm
    _ ≤ half * half := Nat.mul_le_mul_right half ha

/-- The group of cores above an aggregate. -/
theorem group_eq {half : Nat} (ha : a < half) :
    ((cores half pods).drop (a * half)).take half =
      (List.range half).map fun j => (plan half pods).number (core (a * half + j)) := by
  apply List.ext_getElem
  · simp only [cores, List.length_take, List.length_drop, List.length_map, List.length_range]
    have hlast := core_lt ha (Nat.sub_one_lt_of_lt ha)
    omega
  · intro j hj _
    simp [cores]

variable (s : FatTreeShape R)

/-- The plan for a shape. -/
abbrev planOf (s : FatTreeShape R) : Plan Place := plan (s.k / 2) s.k

section Pieces

variable {s} (pod) (hswitch : Admitted s.switchBandwidth)

include hswitch

theorem adds_podAggregate (ha : a < s.k / 2) (hneeds : ∀ c < s.k / 2 * (s.k / 2), core c ∈ needs) :
    (planOf s).Adds needs [agg pod a]
      ((List.range (s.k / 2)).map fun j => (core (a * (s.k / 2) + j), agg pod a))
      (Layout.podAggregate s (cores (s.k / 2) s.k) pod a) ((planOf s).number (agg pod a)) := by
  have hsound := sound (s.k / 2) s.k
  unfold Layout.podAggregate
  dsimp only
  rw [group_eq ha]
  refine (Plan.Adds.node hsound hswitch (agg pod a)).bind ((Plan.Adds.forM fun j hj => ?_).map _)
  apply Plan.Adds.link hsound _ (List.mem_append_right _ List.mem_cons_self)
  apply List.mem_append_left
  exact hneeds _ (core_lt ha (List.mem_range.mp hj))

variable (hhost : Admitted s.hostBandwidth)

include hhost

theorem adds_podEdge (hneeds : ∀ a < s.k / 2, agg pod a ∈ needs) :
    (planOf s).Adds needs (edge pod e :: (List.range (s.k / 2)).map (host pod e))
      (((List.range (s.k / 2)).map fun a => (agg pod a, edge pod e)) ++
        (List.range (s.k / 2)).map fun h => (edge pod e, host pod e h))
      (Layout.podEdge s ((List.range (s.k / 2)).map fun a => (planOf s).number (agg pod a)) pod e)
      ((planOf s).number (edge pod e),
        (List.range (s.k / 2)).map fun h => (planOf s).number (host pod e h)) := by
  have hsound := sound (s.k / 2) s.k
  have hlinks : (planOf s).Adds (needs ++ [edge pod e]) []
      ((List.range (s.k / 2)).map fun a => (agg pod a, edge pod e))
      (((List.range (s.k / 2)).map fun a => (planOf s).number (agg pod a)).forM
        fun agg => Layout.link agg ((planOf s).number (edge pod e)) s.latency) () := by
    apply Plan.Adds.forM
    intro a ha
    apply Plan.Adds.link hsound _ (List.mem_append_right _ List.mem_cons_self)
    exact List.mem_append_left _ (hneeds a (List.mem_range.mp ha))
  have hedge : edge pod e ∈ needs ++ [edge pod e] ++ [] := by simp
  exact (Plan.Adds.node hsound hswitch (edge pod e)).bind
    (hlinks.bind ((Plan.Adds.hosts hsound hhost hedge (fun _ => rfl) s.latency).map _))

theorem adds_pod (hneeds : ∀ c < s.k / 2 * (s.k / 2), core c ∈ needs) :
    (planOf s).Adds needs (podPlaces (s.k / 2) pod) (podLinks (s.k / 2) pod)
      (Layout.pod s (cores (s.k / 2) s.k) pod)
      ((List.range (s.k / 2)).map fun a => (planOf s).number (agg pod a),
        (List.range (s.k / 2)).map fun e => ((planOf s).number (edge pod e),
          (List.range (s.k / 2)).map fun h => (planOf s).number (host pod e h))) := by
  have haggregates := Plan.Adds.mapM fun a (ha : a ∈ List.range (s.k / 2)) =>
    adds_podAggregate pod hswitch (List.mem_range.mp ha) hneeds
  have habove : ∀ a < s.k / 2,
      agg pod a ∈ needs ++ (List.range (s.k / 2)).flatMap fun a => [agg pod a] := by
    intro a ha
    simp [ha]
  have hedges := Plan.Adds.mapM fun e (_ : e ∈ List.range (s.k / 2)) =>
    adds_podEdge pod (e := e) hswitch hhost habove
  refine (haggregates.bind (hedges.map _)).of_eq ?_ rfl
  rw [← List.map_eq_flatMap]
  rfl

theorem adds_layout (hk : 2 ≤ s.k) (heven : s.k % 2 = 0) :
    (planOf s).Adds [] (planOf s).places (planOf s).links (Layout.fatTree s)
      (layout (s.k / 2) s.k) := by
  have hsound := sound (s.k / 2) s.k
  have hcores : (planOf s).Adds [] ((List.range (s.k / 2 * (s.k / 2))).map core) []
      ((List.range (s.k / 2 * (s.k / 2))).mapM fun c =>
        Topology.addNode (core c).name (.switch .core) s.switchBandwidth) (cores (s.k / 2) s.k) :=
    Plan.Adds.nodes hsound hswitch fun _ => rfl
  have habove : ∀ c < s.k / 2 * (s.k / 2),
      core c ∈ [] ++ (List.range (s.k / 2 * (s.k / 2))).map core := by
    intro c hc
    simp [hc]
  have hpods := Plan.Adds.mapM fun pod (_ : pod ∈ List.range s.k) =>
    adds_pod pod hswitch hhost habove
  have hguard : ¬ (s.k < 2 ∨ s.k % 2 = 1) := by omega
  unfold Layout.fatTree
  rw [if_neg hguard]
  refine (hcores.bind (hpods.map _)).of_value ?_
  -- Both go through the pods in the same order.
  unfold layout hostTier edgeTier aggTier
  simp only [List.flatMap_map, List.map_flatMap, List.map_map, List.flatMap_assoc]
  rfl

theorem adds_fatTree (hk : 2 ≤ s.k) (heven : s.k % 2 = 0) :
    ∃ layout, (planOf s).Adds [] (planOf s).places (planOf s).links (Layout.fatTree s) layout :=
  ⟨_, adds_layout hswitch hhost hk heven⟩

end Pieces

end Drawing

end FatTree

end FlowFabric
