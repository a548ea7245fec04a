import FlowFabric.Proofs.Network.Tiers
import FlowFabric.Proofs.Topology.InterCloud

namespace FlowFabric

open Relation (ReflTransGen)

namespace InterCloud

open Place

variable {R : Type} {shapes : List (TreeShape R)}

def Place.level : Place → Nat
  | top => 4
  | gateway _ => 3
  | core _ => 2
  | edge _ _ => 1
  | host _ _ _ => 0

/-- An edge is told by two numbers,
a datacenter below its core or its gateway by one, and the whole by none. -/
def width : Nat → Nat
  | 0 => 3
  | 1 => 2
  | 2 => 1
  | 3 => 1
  | _ => 0

/-- The place in a zone that belongs to its level. -/
def placeAt : Nat → List Nat → Place
  | 0, [i, e, h] => host i e h
  | 1, [i, e] => edge i e
  | 2, [i] => core i
  | 3, [i] => gateway i
  | _, _ => top

/-- The name and the kind of the node on a level in a zone. -/
def nodeAt (spot : Nat × Option (List Nat)) : Option (String × NodeKind) :=
  spot.2.map fun z => ((placeAt spot.1 z).name, (placeAt spot.1 z).kind)

theorem placeAt_zone (x : Place) : placeAt x.level
    (Plan.prefixZone width address x.level x) = x := by
  cases x <;> rfl

/-- A host has its three numbers. -/
theorem eq_host {x : Place} (hx : x.kind.isHost = true) : ∃ i e h, x = host i e h := by
  cases x with
  | host i e h => exact ⟨i, e, h, rfl⟩
  | _ => cases hx

theorem antitone_width : Antitone width := by
  apply antitone_nat_of_succ_le
  intro k
  match k with
  | 0 | 1 | 2 | 3 => decide
  | _ + 4 => exact Nat.le_refl 0

theorem addressed (shapes : List (TreeShape R)) :
    (plan shapes).Addressed Place.level width address where
  host {x} hx := by
    obtain ⟨i, e, h, rfl⟩ := eq_host hx
    rfl
  step h := by
    rw [mem_links] at h
    cases h <;> rfl
  antitone := antitone_width
  length x := by
    cases x <;> rfl
  extend h := by
    rw [mem_links] at h
    cases h <;> exact List.prefix_append _ _
  covers {x y} hx hy hhost hprefix := by
    obtain ⟨i, e, h, rfl⟩ := eq_host hhost
    rw [mem_places] at hy
    cases hy with
    | host hs he hh =>
      -- Whichever place has an address that the one of the host begins with is on this chain.
      have hedge : ReflTransGen (fun x y => (x, y) ∈ (plan shapes).links) (edge i e) (host i e h) :=
        .single (mem_links.mpr (.host hs he hh))
      have hcore := hedge.head (mem_links.mpr (.edge hs he))
      have hgateway := hcore.head (mem_links.mpr (.core hs))
      cases x with
      | top => exact hgateway.head (mem_links.mpr (.gateway hs))
      | gateway i' =>
        obtain rfl : i' = i := by simpa [address] using hprefix
        exact hgateway
      | core i' =>
        obtain rfl : i' = i := by simpa [address] using hprefix
        exact hcore
      | edge i' e' =>
        obtain ⟨rfl, rfl⟩ : i' = i ∧ e' = e := by simpa [address] using hprefix
        exact hedge
      | host i' e' h' =>
        obtain ⟨rfl, rfl, rfl⟩ : i' = i ∧ e' = e ∧ h' = h := by simpa [address] using hprefix
        exact .refl
  climbs {x} hx hne := by
    rw [mem_places] at hx
    cases hx with
    | top => exact absurd rfl hne
    | gateway hs => exact ⟨_, mem_links.mpr (.gateway hs)⟩
    | core hs => exact ⟨_, mem_links.mpr (.core hs)⟩
    | edge hs he => exact ⟨_, mem_links.mpr (.edge hs he)⟩
    | host hs he hh => exact ⟨_, mem_links.mpr (.host hs he hh)⟩

/-- The level on which the way between two hosts turns round. -/
theorem turn_eq {i e h i' e' h' top : Nat} (hne : host i e h ≠ host i' e' h')
    (hmeets : Plan.prefixZone width address top (host i e h) =
      Plan.prefixZone width address top (host i' e' h'))
    (hapart : ∀ k < top, Plan.prefixZone width address k (host i e h) ≠
      Plan.prefixZone width address k (host i' e' h')) :
    top = if i = i' then if e = e' then 1 else 2 else 4 := by
  have hbetween : ∀ k, 2 ≤ k → k < 4 → width k = 1 := by
    intro k hk hlt
    obtain rfl | rfl : k = 2 ∨ k = 3 := by omega
    · rfl
    · rfl
  have hx : (host i e h).address = [i, e, h] := rfl
  have hy : (host i' e' h').address = [i', e', h'] := rfl
  have haddress : (host i e h).address ≠ (host i' e' h').address := by
    simpa [address] using hne
  exact Plan.turn_of_addresses hx hy rfl rfl (by decide) hbetween rfl haddress hmeets hapart

end InterCloud

namespace Network

open InterCloud
open FlowFabric.Topology (Admitted)

variable {R : Type} [Quantity R]

/-- The names and kinds of the nodes on a way that turns round on some level. -/
theorem nodes_of_turns {shapes : List (TreeShape R)} {t : Topology R} {p : Path} {src dst : NodeId}
    {x y : Place} {top : Nat}
    (hdrawn : (plan shapes).Drawn (plan shapes).places (plan shapes).links t)
    (hx : (plan shapes).places[src]? = some x) (hy : (plan shapes).places[dst]? = some y)
    (hturns : Turns t ((plan shapes).levelAt Place.level)
      ((plan shapes).zoneAt (Plan.prefixZone width Place.address)) src dst p top) :
    p.nodes.map (fun n => (t.node? n).map fun node => (node.name, node.kind)) =
      ((List.range (top + 1)).map fun k =>
        nodeAt (k, some (Plan.prefixZone width Place.address k x))) ++
        ((List.range top).map fun k =>
          nodeAt (k, some (Plan.prefixZone width Place.address k y))).reverse := by
  have hsrc : src < t.nodes.size := by
    rw [hdrawn.size_eq]
    exact (List.getElem?_eq_some_iff.mp hx).1
  simp only [← Plan.zoneAt_eq hx, ← Plan.zoneAt_eq hy]
  refine hturns.map_eq hdrawn.constructed.wellFormed hsrc (g := nodeAt) ?_
  intro n hn
  obtain ⟨z, hz⟩ := hdrawn.place_of_lt hn
  unfold Topology.spot nodeAt
  rw [hdrawn.map_node_eq hz, Plan.levelAt_eq hz, Plan.zoneAt_eq hz, Option.map_some, placeAt_zone]
  rfl

/-- Datacenters below one switch have all their hosts and join them. Whatever a selection takes out
of the candidates, the search between two hosts succeeds with the only way there is. It climbs to
their edge switch if they have the same, or else to the core of their datacenter if they have the
same, or else through the core and the gateway of the one datacenter to the switch between the
clouds, and descends through the gateway and the core of the other. -/
theorem interCloud_joins_hosts [FloorLaw R] (kind : FabricKind) {shapes : List (TreeShape R)}
    (hshapes : shapes ≠ [])
    (hadmitted : ∀ s ∈ shapes, Admitted s.switchBandwidth ∧ Admitted s.hostBandwidth) :
    ∃ layout built, (Network.empty kind).extend (Layout.interCloud shapes) = (.ok layout, built) ∧
      (∀ i s, shapes[i]? = some s → ∀ e < s.edges, ∀ h < s.hostsPerEdge,
        ∃ n, built.topology.isHost n = true ∧
          (built.topology.node? n).map Node.name = some (Place.host i e h).name) ∧
      ∀ (load : Load R) (entries : Forwarding) (select : Selection R),
        let net := { built.buildRoutes with load, forwarding := entries }
        (∀ entries, Answers select (net.withForwarding entries)) →
        ∀ (key : FlowKey) (src dst : NodeId),
          net.topology.isHost src = true → net.topology.isHost dst = true → src ≠ dst →
            ∃ p i e h i' e' h', (build select net key src dst).1 = .ok p ∧
              Way net.topology src dst p ∧
              (net.topology.node? src).map Node.name = some (Place.host i e h).name ∧
              (net.topology.node? dst).map Node.name = some (Place.host i' e' h').name ∧
              p.nodes.map (fun n => (net.topology.node? n).map fun node => (node.name, node.kind)) =
                List.map (fun x : Place => some (x.name, x.kind))
                  (if i = i' then
                    if e = e' then [.host i e h, .edge i e, .host i' e' h']
                    else [.host i e h, .edge i e, .core i, .edge i' e', .host i' e' h']
                  else
                    [.host i e h, .edge i e, .core i, .gateway i, .top,
                      .gateway i', .core i', .edge i' e', .host i' e' h']) ∧
              ∀ q : Path, q.Joins src dst →
                (∀ s ∈ q.steps, Path.Follows net.topology s.1 s.2) → q = p := by
  obtain ⟨layout, hadds⟩ := adds_interCloud hshapes hadmitted
  obtain ⟨built, hextend, hbuilt, hnets⟩ := extend_of_adds hadds kind
  refine ⟨layout, built, hextend, ?_, ?_⟩
  · intro i s hs e he h hh
    have hmem : Place.host i e h ∈ (plan shapes).places := mem_places.mpr (.host hs he hh)
    exact hbuilt.exists_host hmem rfl
  intro load entries select net hsel key src dst hsrc hdst hne
  obtain ⟨hdrawn, hroutes⟩ :
      (plan shapes).Drawn (plan shapes).places (plan shapes).links net.topology ∧
        net.routes = Routes.ofTopology net.topology := hnets load entries
  -- Nothing else is used of the network.
  clear_value net
  obtain ⟨p, top, x, y, hok, hturns, hx, hxhost, hy, hyhost, hdiffer, hmeets, hapart⟩ :=
    build_turns_of_plan (sound shapes) (addressed shapes).tiered hdrawn hroutes hsel key hsrc
      hdst hne
  obtain ⟨i, e, h, rfl⟩ := eq_host hxhost
  obtain ⟨i', e', h', rfl⟩ := eq_host hyhost
  refine ⟨p, i, e, h, i', e', h', hok, hturns.way, hdrawn.name_eq hx, hdrawn.name_eq hy, ?_,
    hturns.unique (hdrawn.forest (sound shapes) upper_unique)⟩
  rw [nodes_of_turns hdrawn hx hy hturns, turn_eq hdiffer hmeets hapart]
  split
  · rename_i hsame
    subst hsame
    split
    · rename_i hsame'
      subst hsame'
      rfl
    · rfl
  · rfl

/-- Two datacenters: between hosts of one edge, of one datacenter and of both. -/
theorem twoClouds_join_hosts :
    let shapes : List (TreeShape Exact) := [⟨2, 2, 1000, 1000, 0⟩, ⟨1, 1, 100, 500, 0⟩]
    let built := ((Network.empty .tree).extend (Layout.interCloud shapes)).2
    let net := { built.buildRoutes with load := Table.empty, forwarding := Table.empty }
    let names (p : Path) := p.nodes.map fun n => (net.topology.node? n).map Node.name
    ∀ key : FlowKey, ∃ p q r, (build Selection.first net key 3 4).1 = .ok p ∧
      (build Selection.first net key 3 6).1 = .ok q ∧
      (build Selection.first net key 3 11).1 = .ok r ∧
      names p = ["dc0_host_0_0", "dc0_edge_0", "dc0_host_0_1"].map some ∧
      names q = ["dc0_host_0_0", "dc0_edge_0", "dc0_core", "dc0_edge_1", "dc0_host_1_0"].map some ∧
      names r = ["dc0_host_0_0", "dc0_edge_0", "dc0_core", "dc0_gateway", "intercloud",
        "dc1_gateway", "dc1_core", "dc1_edge_0", "dc1_host_0_0"].map some := by
  intro shapes built net names key
  have hadmitted : ∀ s ∈ shapes, Admitted s.switchBandwidth ∧ Admitted s.hostBandwidth := by
    intro s hs
    rcases List.mem_pair.mp hs with rfl | rfl <;> exact ⟨⟨by decide, rfl⟩, ⟨by decide, rfl⟩⟩
  have hshapes : shapes ≠ [] := List.cons_ne_nil _ _
  obtain ⟨layout, built', hextend, _, h⟩ := interCloud_joins_hosts .tree hshapes hadmitted
  obtain rfl : built = built' := congrArg Prod.snd hextend
  replace h := h Table.empty Table.empty Selection.first (fun _ => answers_first _) key
  have hplaces : net.topology.isHost 3 = true ∧ net.topology.isHost 4 = true ∧
      net.topology.isHost 6 = true ∧ net.topology.isHost 11 = true ∧
      (net.topology.node? 3).map Node.name = some (Place.host 0 0 0).name ∧
      (net.topology.node? 4).map Node.name = some (Place.host 0 0 1).name ∧
      (net.topology.node? 6).map Node.name = some (Place.host 0 1 0).name ∧
      (net.topology.node? 11).map Node.name = some (Place.host 1 0 0).name := by
    decide +kernel
  obtain ⟨h3, h4, h6, h11, n3, n4, n6, n11⟩ := hplaces
  have hsame {x y : Place} {name : Option String} (hx : name = some x.name)
      (hy : name = some y.name) : x = y := Place.name_injective (Option.some.inj (hx.symm.trans hy))
  obtain ⟨p, _, _, _, _, _, _, hp, _, hsrc, hdst, hpnames, _⟩ := h 3 4 h3 h4 (by decide)
  cases hsame n3 hsrc
  cases hsame n4 hdst
  obtain ⟨q, _, _, _, _, _, _, hq, _, hsrc, hdst, hqnames, _⟩ := h 3 6 h3 h6 (by decide)
  cases hsame n3 hsrc
  cases hsame n6 hdst
  obtain ⟨r, _, _, _, _, _, _, hr, _, hsrc, hdst, hrnames, _⟩ := h 3 11 h3 h11 (by decide)
  cases hsame n3 hsrc
  cases hsame n11 hdst
  have hnames (p : Path) : names p = (p.nodes.map fun n =>
      (net.topology.node? n).map fun node => (node.name, node.kind)).map (Option.map Prod.fst) := by
    simp [names, Function.comp_def]
  refine ⟨p, q, r, hp, hq, hr, ?_, ?_, ?_⟩
  · rw [hnames, hpnames]
    decide
  · rw [hnames, hqnames]
    decide
  · rw [hnames, hrnames]
    decide

end Network

end FlowFabric
