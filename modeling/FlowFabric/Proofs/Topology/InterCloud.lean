import FlowFabric.Proofs.Topology.Plans

namespace FlowFabric

namespace InterCloud

/-- What the names in a datacenter start with. -/
def label (i : Nat) : String := s!"dc{i}_"

/-- The switch between the clouds, and in each datacenter the gateway,
the core, the edges and the hosts below them. -/
inductive Place where
  | top
  | gateway (i : Nat)
  | core (i : Nat)
  | edge (i e : Nat)
  | host (i e h : Nat)
deriving DecidableEq

namespace Place

def name : Place → String
  | top => "intercloud"
  | gateway i => s!"{label i}gateway"
  | core i => s!"{label i}core"
  | edge i e => s!"{label i}edge_{e}"
  | host i e h => s!"{label i}host_{e}_{h}"

def kind : Place → NodeKind
  | top => .switch .intercloud
  | gateway _ => .switch .gateway
  | core _ => .switch .core
  | edge _ _ => .switch .edge
  | host _ _ _ => .host

def words : Place → List String
  | top => ["intercloud"]
  | gateway i => ["dc" ++ toString i, "gateway"]
  | core i => ["dc" ++ toString i, "core"]
  | edge i e => ["dc" ++ toString i, "edge", toString e]
  | host i e h => ["dc" ++ toString i, "host", toString e, toString h]

/-- The way down to a place: its datacenter, its edge switch there, its number below. -/
def address : Place → List Nat
  | top => []
  | gateway i => [i]
  | core i => [i]
  | edge i e => [i, e]
  | host i e h => [i, e, h]

theorem name_injective : Function.Injective name := by
  apply Plan.named_of_words words
  · have htext (s : String) : toString s = s := rfl
    intro x
    cases x <;> simp [name, label, words, htext, String.intercalate_cons_cons,
      ← String.append_assoc]
  · intro x
    cases x <;> simp [words]
  · intro x
    cases x <;> exact List.cons_ne_nil _ _
  · intro x y h
    cases x <;> cases y <;> simp_all [words, Plan.repr_injective.eq_iff]

end Place

open Place

variable {R : Type}

/-- The edges of a datacenter, each followed by its hosts. -/
def racks (s : TreeShape R) (i : Nat) : List Place :=
  (List.range s.edges).flatMap fun e => edge i e :: (List.range s.hostsPerEdge).map (host i e)

/-- The core of a datacenter, its racks, and last its gateway. -/
def dcPlaces (s : TreeShape R) (i : Nat) : List Place := core i :: (racks s i ++ [gateway i])

/-- Edges hang below the core and hosts below their edge. The core hangs below the gateway, and that
below the switch between the clouds. -/
def dcLinks (s : TreeShape R) (i : Nat) : List (Place × Place) :=
  ((List.range s.edges).flatMap fun e =>
    (core i, edge i e) :: (List.range s.hostsPerEdge).map fun h => (edge i e, host i e h)) ++
  [(gateway i, core i), (top, gateway i)]

/-- One tree for each datacenter below one switch. -/
def plan (shapes : List (TreeShape R)) : Plan Place where
  name := name
  kind := kind
  places := top :: shapes.zipIdx.flatMap fun (s, i) => dcPlaces s i
  links := shapes.zipIdx.flatMap fun (s, i) => dcLinks s i

/-- The numbers of a place are those of some datacenter. -/
inductive Within (shapes : List (TreeShape R)) : Place → Prop where
  | top : Within shapes top
  | gateway {s : TreeShape R} {i : Nat} (hs : shapes[i]? = some s) : Within shapes (gateway i)
  | core {s : TreeShape R} {i : Nat} (hs : shapes[i]? = some s) : Within shapes (core i)
  | edge {s : TreeShape R} {i e : Nat} (hs : shapes[i]? = some s) (he : e < s.edges) :
      Within shapes (edge i e)
  | host {s : TreeShape R} {i e h : Nat} (hs : shapes[i]? = some s) (he : e < s.edges)
      (hh : h < s.hostsPerEdge) : Within shapes (host i e h)

/-- The links between datacenters and in them, from the upper place to the lower one. -/
inductive Hangs (shapes : List (TreeShape R)) : Place → Place → Prop where
  | gateway {s : TreeShape R} {i : Nat} (hs : shapes[i]? = some s) : Hangs shapes top (gateway i)
  | core {s : TreeShape R} {i : Nat} (hs : shapes[i]? = some s) : Hangs shapes (gateway i) (core i)
  | edge {s : TreeShape R} {i e : Nat} (hs : shapes[i]? = some s) (he : e < s.edges) :
      Hangs shapes (core i) (edge i e)
  | host {s : TreeShape R} {i e h : Nat} (hs : shapes[i]? = some s) (he : e < s.edges)
      (hh : h < s.hostsPerEdge) : Hangs shapes (edge i e) (host i e h)

section Members

variable {shapes : List (TreeShape R)} {s : TreeShape R} {i : Nat} {x y : Place}

theorem mem_dcPlaces : x ∈ dcPlaces s i ↔ x = core i ∨
    (∃ e < s.edges, x = edge i e ∨ ∃ h < s.hostsPerEdge, host i e h = x) ∨ x = gateway i := by
  simp [dcPlaces, racks]

theorem mem_dcLinks : (x, y) ∈ dcLinks s i ↔
    (∃ e < s.edges, (x = core i ∧ y = edge i e) ∨
      ∃ h < s.hostsPerEdge, edge i e = x ∧ host i e h = y) ∨
    (x = gateway i ∧ y = core i) ∨ (x = top ∧ y = gateway i) := by
  simp [dcLinks]

theorem mem_places : x ∈ (plan shapes).places ↔ Within shapes x := by
  simp only [plan, List.mem_cons, List.mem_flatMap, Prod.exists, List.mk_mem_zipIdx_iff_getElem?,
    mem_dcPlaces]
  constructor
  · rintro (rfl | ⟨s, i, hs, rfl | ⟨e, he, rfl | ⟨h, hh, rfl⟩⟩ | rfl⟩)
    · exact .top
    · exact .core hs
    · exact .edge hs he
    · exact .host hs he hh
    · exact .gateway hs
  · rintro (_ | hs | hs | ⟨hs, he⟩ | ⟨hs, he, hh⟩)
    · exact Or.inl rfl
    · exact Or.inr ⟨_, _, hs, Or.inr (Or.inr rfl)⟩
    · exact Or.inr ⟨_, _, hs, Or.inl rfl⟩
    · exact Or.inr ⟨_, _, hs, Or.inr (Or.inl ⟨_, he, Or.inl rfl⟩)⟩
    · exact Or.inr ⟨_, _, hs, Or.inr (Or.inl ⟨_, he, Or.inr ⟨_, hh, rfl⟩⟩)⟩

theorem mem_links : (x, y) ∈ (plan shapes).links ↔ Hangs shapes x y := by
  simp only [plan, List.mem_flatMap, Prod.exists, List.mk_mem_zipIdx_iff_getElem?, mem_dcLinks]
  constructor
  · rintro ⟨s, i, hs, ⟨e, he, ⟨rfl, rfl⟩ | ⟨h, hh, rfl, rfl⟩⟩ | ⟨rfl, rfl⟩ | ⟨rfl, rfl⟩⟩
    · exact .edge hs he
    · exact .host hs he hh
    · exact .core hs
    · exact .gateway hs
  · rintro (hs | hs | ⟨hs, he⟩ | ⟨hs, he, hh⟩)
    · exact ⟨_, _, hs, Or.inr (Or.inr ⟨rfl, rfl⟩)⟩
    · exact ⟨_, _, hs, Or.inr (Or.inl ⟨rfl, rfl⟩)⟩
    · exact ⟨_, _, hs, Or.inl ⟨_, he, Or.inl ⟨rfl, rfl⟩⟩⟩
    · exact ⟨_, _, hs, Or.inl ⟨_, he, Or.inr ⟨_, hh, rfl, rfl⟩⟩⟩

theorem head_of_mem_dcPlaces (h : x ∈ dcPlaces s i) : x.address.head? = some i := by
  rcases mem_dcPlaces.mp h with rfl | ⟨e, _, rfl | ⟨h, _, rfl⟩⟩ | rfl <;> rfl

theorem head_of_mem_dcLinks (h : (x, y) ∈ dcLinks s i) : y.address.head? = some i := by
  rcases mem_dcLinks.mp h with ⟨e, _, ⟨_, rfl⟩ | ⟨h, _, _, rfl⟩⟩ | ⟨_, rfl⟩ | ⟨_, rfl⟩ <;> rfl

theorem nodup_racks : (racks s i).Nodup := by
  apply Plan.nodup_flatMap List.nodup_range
  · intro e _
    exact List.nodup_cons.mpr ⟨by simp, List.nodup_range.map fun _ _ heq => (host.inj heq).2.2⟩
  · intro e _ e' _ x hx hx'
    cases x <;> simp_all

theorem nodup_dcPlaces : (dcPlaces s i).Nodup := by
  refine List.nodup_cons.mpr ⟨by simp [racks], List.nodup_append.mpr ⟨nodup_racks, by simp, ?_⟩⟩
  rintro x hx _ hy rfl
  cases List.mem_singleton.mp hy
  simp [racks] at hx

/-- Each link of a datacenter leads down to another of its places. -/
theorem lower_dcLinks : ((dcLinks s i).map Prod.snd).Perm (dcPlaces s i) := by
  have hlower : (dcLinks s i).map Prod.snd = racks s i ++ [core i, gateway i] := by
    simp [dcLinks, racks, List.map_flatMap, Function.comp_def]
  rw [hlower]
  exact List.perm_middle

/-- Pieces for the datacenters stay apart if all of a piece tells the number of its datacenter. -/
theorem nodup_zipIdx {β : Type} {f : TreeShape R × Nat → List β} (number : β → Option Nat)
    (hf : ∀ dc, (f dc).Nodup) (hnumber : ∀ dc, ∀ y ∈ f dc, number y = some dc.2) :
    (shapes.zipIdx.flatMap f).Nodup := by
  have hindices : (shapes.zipIdx.map Prod.snd).Nodup := by
    rw [List.zipIdx_map_snd]
    exact List.nodup_range'
  apply Plan.nodup_flatMap hindices.of_map
  · intro dc _
    exact hf dc
  · rintro ⟨s, i⟩ hs ⟨s', i'⟩ hs' y hy hy'
    obtain rfl : i = i' := Option.some.inj ((hnumber _ y hy).symm.trans (hnumber _ y hy'))
    rw [List.mk_mem_zipIdx_iff_getElem?] at hs hs'
    rw [Option.some.inj (hs.symm.trans hs')]

theorem nodup_places : (plan shapes).places.Nodup := by
  refine List.nodup_cons.mpr ⟨?_, ?_⟩
  · intro h
    obtain ⟨_, _, hmem⟩ := List.mem_flatMap.mp h
    cases head_of_mem_dcPlaces hmem
  · exact nodup_zipIdx (fun x => x.address.head?) (fun _ => nodup_dcPlaces) fun _ _ =>
      head_of_mem_dcPlaces

theorem nodup_links : (plan shapes).links.Nodup := by
  apply nodup_zipIdx fun l => l.2.address.head?
  · intro dc
    apply List.Nodup.of_map Prod.snd
    exact lower_dcLinks.nodup_iff.mpr nodup_dcPlaces
  · exact fun _ _ => head_of_mem_dcLinks

theorem sound (shapes : List (TreeShape R)) : (plan shapes).Sound where
  named := name_injective
  places := nodup_places
  links := nodup_links
  descends h := by
    rw [mem_links] at h
    cases h <;> simp [plan, kind, NodeKind.rank]

/-- Every place hangs below one other place at most. -/
theorem upper_unique {w w' : Place} (h : (w, x) ∈ (plan shapes).links)
    (h' : (w', x) ∈ (plan shapes).links) : w = w' := by
  rw [mem_links] at h h'
  cases h <;> cases h' <;> rfl

end Members

section Drawing

open FlowFabric.Topology (Admitted)

variable [Quantity R]

/-- The switch between the clouds is as fast as some switch below it. -/
theorem admitted_fastestSwitch [FloorLaw R] {shapes : List (TreeShape R)} (hne : shapes ≠ [])
    (hswitch : ∀ s ∈ shapes, Admitted s.switchBandwidth) :
    Admitted (Layout.fastestSwitch shapes) := by
  have hfinite : ∀ b ∈ shapes.map TreeShape.switchBandwidth, Quantity.isFinite b = true :=
    List.forall_mem_map.mpr fun s hs => (hswitch s hs).2
  obtain ⟨s, hs, heq⟩ :=
    List.mem_map.mp (Quantity.maximum_mem (List.map_eq_nil_iff.not.mpr hne) hfinite)
  unfold Layout.fastestSwitch
  rw [← heq]
  exact hswitch s hs

variable {shapes : List (TreeShape R)} {s : TreeShape R} {i e : Nat} {needs : List Place}

/-- The numbers of an edge and of its hosts. -/
def rackNodes (shapes : List (TreeShape R)) (s : TreeShape R) (i e : Nat) : NodeId × List NodeId :=
  ((plan shapes).number (edge i e),
    (List.range s.hostsPerEdge).map fun h => (plan shapes).number (host i e h))

/-- The numbers of the tree of a datacenter. -/
def treeNodes (shapes : List (TreeShape R)) (s : TreeShape R) (i : Nat) : Layout where
  hosts := ((List.range s.edges).map (rackNodes shapes s i)).flatMap Prod.snd
  edges := ((List.range s.edges).map (rackNodes shapes s i)).map Prod.fst
  aggregates := []
  cores := [(plan shapes).number (core i)]
  gateways := []
  intercloud := []

section Pieces

variable (shapes) (hswitch : Admitted s.switchBandwidth) (hhost : Admitted s.hostBandwidth)

include hswitch hhost

theorem adds_rack (hneeds : core i ∈ needs) :
    (plan shapes).Adds needs (edge i e :: (List.range s.hostsPerEdge).map (host i e))
      ((core i, edge i e) :: (List.range s.hostsPerEdge).map fun h => (edge i e, host i e h))
      (Layout.rack s (label i) ((plan shapes).number (core i)) e) (rackNodes shapes s i e) := by
  have hsound := sound shapes
  have hlink : (plan shapes).Adds (needs ++ [edge i e]) [] [(core i, edge i e)]
      (Layout.link ((plan shapes).number (core i)) ((plan shapes).number (edge i e)) s.latency)
        () :=
    .link hsound (List.mem_append_left _ hneeds) (List.mem_append_right _ List.mem_cons_self)
      s.latency
  have hedge : edge i e ∈ needs ++ [edge i e] ++ [] := by simp
  exact (Plan.Adds.node hsound hswitch (edge i e)).bind
    (hlink.bind ((Plan.Adds.hosts hsound hhost hedge (fun _ => rfl) s.latency).map _))

theorem adds_tree : (plan shapes).Adds needs (core i :: racks s i)
    ((List.range s.edges).flatMap fun e =>
      (core i, edge i e) :: (List.range s.hostsPerEdge).map fun h => (edge i e, host i e h))
    (Layout.labelledTree s (label i)) (treeNodes shapes s i) := by
  have hracks := Plan.Adds.mapM fun e (_ : e ∈ List.range s.edges) =>
    adds_rack shapes (e := e) hswitch hhost
      (List.mem_append_right needs (List.mem_singleton.mpr (Eq.refl (core i))))
  exact (Plan.Adds.node (sound shapes) hswitch (core i)).bind (hracks.map _)

/-- The gateway comes after the tree, with a link to either side. -/
theorem adds_datacenter (hneeds : top ∈ needs) :
    (plan shapes).Adds needs (dcPlaces s i) (dcLinks s i)
      (Layout.datacenter ((plan shapes).number top) s i)
      { treeNodes shapes s i with gateways := [(plan shapes).number (gateway i)] } := by
  have hsound := sound shapes
  have hgateway : gateway i ∈ needs ++ (core i :: racks s i) ++ [gateway i] := by simp
  have hcore : core i ∈ needs ++ (core i :: racks s i) ++ [gateway i] := by simp
  have htop : top ∈ needs ++ (core i :: racks s i) ++ [gateway i] ++ [] := by simp [hneeds]
  -- The layout goes over all cores of the tree, of which there is one.
  have hdown : (plan shapes).Adds (needs ++ (core i :: racks s i) ++ [gateway i]) []
      [(gateway i, core i)] ((treeNodes shapes s i).cores.forM fun core =>
        Layout.link ((plan shapes).number (gateway i)) core s.latency) () :=
    (Plan.Adds.link hsound hgateway hcore s.latency).bind (.pure ())
  have hup := Plan.Adds.link hsound htop (List.mem_append_left [] hgateway) s.latency
  exact (adds_tree shapes hswitch hhost).bind
    ((Plan.Adds.node hsound hswitch (gateway i)).bind (hdown.bind (hup.map _)))

end Pieces

theorem adds_interCloud [FloorLaw R] (hne : shapes ≠ [])
    (hadmitted : ∀ s ∈ shapes, Admitted s.switchBandwidth ∧ Admitted s.hostBandwidth) :
    ∃ layout, (plan shapes).Adds [] (plan shapes).places (plan shapes).links
      (Layout.interCloud shapes) layout := by
  have htop := admitted_fastestSwitch hne fun s hs => (hadmitted s hs).1
  have hdcs := Plan.Adds.mapM fun (dc : TreeShape R × Nat) (hdc : dc ∈ shapes.zipIdx) =>
    adds_datacenter shapes (i := dc.2) (hadmitted dc.1 (List.fst_mem_of_mem_zipIdx hdc)).1
      (hadmitted dc.1 (List.fst_mem_of_mem_zipIdx hdc)).2 (List.mem_singleton.mpr (Eq.refl top))
  exact ⟨_, (Plan.Adds.node (sound shapes) htop top).bind (hdcs.map _)⟩

end Drawing

end InterCloud

end FlowFabric
