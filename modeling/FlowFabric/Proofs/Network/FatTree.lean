import FlowFabric.Proofs.Network.Tiers
import FlowFabric.Proofs.Topology.FatTree

/-! Without the levels above, a fat-tree falls apart into its pods, and a pod into its edges. -/

namespace FlowFabric

open Relation (ReflTransGen)

namespace FatTree

open Place

variable {half pods : Nat}

def Place.level : Place → Nat
  | core _ => 3
  | agg _ _ => 2
  | edge _ _ => 1
  | host _ _ _ => 0

/-- An edge is told by two numbers, a pod by one, and the whole by none. -/
def width (k : Nat) : Nat := 3 - k

theorem rank_eq (x : Place) : x.kind.rank = 5 - x.level := by
  cases x <;> rfl

/-- A host has its three numbers. -/
theorem eq_host {x : Place} (hx : x.kind.isHost = true) (hmem : x ∈ (plan half pods).places) :
    ∃ pod e h, x = host pod e h ∧ pod < pods ∧ e < half ∧ h < half := by
  rw [mem_places] at hmem
  cases x with
  | host pod e h => exact ⟨pod, e, h, rfl, hmem⟩
  | _ => cases hx

/-- Every aggregate of its pod has a way down to a host. -/
theorem agg_above {pod a e h : Nat} (hpod : pod < pods) (ha : a < half) (he : e < half)
    (hh : h < half) :
    ReflTransGen (fun x y => (x, y) ∈ (plan half pods).links) (agg pod a) (host pod e h) := by
  have hedge : (agg pod a, edge pod e) ∈ (plan half pods).links := mem_links.mpr (.edge hpod ha he)
  have hhost : (edge pod e, host pod e h) ∈ (plan half pods).links :=
    mem_links.mpr (.host hpod he hh)
  exact (ReflTransGen.single hedge).tail hhost

theorem addressed (half pods : Nat) : (plan half pods).Addressed level width address where
  host {x} hx := by
    cases x with
    | host pod e h => rfl
    | _ => cases hx
  step h := by
    rw [mem_links] at h
    cases h <;> rfl
  antitone k n hkn := Nat.sub_le_sub_left hkn 3
  length x := by
    cases x <;> rfl
  extend h := by
    rw [mem_links] at h
    cases h <;> exact List.prefix_append _ _
  covers {x y} hx hy hhost hprefix := by
    obtain ⟨pod, e, h, rfl, hpod, he, hh⟩ := eq_host hhost hy
    rw [mem_places] at hx
    cases x with
    | core c =>
      -- The core is one of the group above some aggregate, whatever the pod.
      have hpos : 0 < half := Nat.zero_lt_of_lt he
      have hgroup : c / half < half := Nat.div_lt_of_lt_mul hx
      have hcore : (core c, agg pod (c / half)) ∈ (plan half pods).links := by
        have hlink := Hangs.agg hpod hgroup (Nat.mod_lt c hpos)
        rw [Nat.mul_comm, Nat.div_add_mod] at hlink
        exact mem_links.mpr hlink
      exact (agg_above hpod hgroup he hh).head hcore
    | agg pod' a =>
      obtain rfl : pod' = pod := by simpa [address] using hprefix
      exact agg_above hpod hx.2 he hh
    | edge pod' e' =>
      obtain ⟨rfl, rfl⟩ : pod' = pod ∧ e' = e := by simpa [address] using hprefix
      exact ReflTransGen.single (mem_links.mpr (.host hpod he hh))
    | host pod' e' h' =>
      obtain ⟨rfl, rfl, rfl⟩ : pod' = pod ∧ e' = e ∧ h' = h := by simpa [address] using hprefix
      exact .refl
  climbs {x} hx hne := by
    rw [mem_places] at hx
    cases x with
    | core c => exact absurd rfl hne
    | agg pod a => exact ⟨_, mem_links.mpr (.agg hx.1 hx.2 (Nat.zero_lt_of_lt hx.2))⟩
    | edge pod e => exact ⟨_, mem_links.mpr (.edge hx.1 (Nat.zero_lt_of_lt hx.2) hx.2)⟩
    | host pod e h => exact ⟨_, mem_links.mpr (.host hx.1 hx.2.1 hx.2.2)⟩

/-- The level on which the way between two hosts turns round. -/
theorem turn_eq {pod e h pod' e' h' top : Nat} (hne : host pod e h ≠ host pod' e' h')
    (hmeets : Plan.prefixZone width address top (host pod e h) =
      Plan.prefixZone width address top (host pod' e' h'))
    (hapart : ∀ k < top, Plan.prefixZone width address k (host pod e h) ≠
      Plan.prefixZone width address k (host pod' e' h')) :
    top = if pod = pod' then if e = e' then 1 else 2 else 3 := by
  have hbetween : ∀ k, 2 ≤ k → k < 3 → width k = 1 := by
    intro k hk hlt
    obtain rfl : k = 2 := by omega
    rfl
  have hx : (host pod e h).address = [pod, e, h] := rfl
  have hy : (host pod' e' h').address = [pod', e', h'] := rfl
  have haddress : (host pod e h).address ≠ (host pod' e' h').address := by
    simpa [address] using hne
  exact Plan.turn_of_addresses hx hy rfl rfl (by decide) hbetween rfl haddress hmeets hapart

end FatTree

namespace Network

open FatTree
open FlowFabric.Topology (Admitted)

variable {R : Type} [Quantity R]

/-- The ranks on a way that turns round on some level. -/
theorem ranks_of_turns {half pods : Nat} {t : Topology R} {p : Path} {src dst : NodeId} {top : Nat}
    (hdrawn : (plan half pods).Drawn (plan half pods).places (plan half pods).links t)
    (hsrc : src < t.nodes.size)
    (hturns : Turns t ((plan half pods).levelAt Place.level)
      ((plan half pods).zoneAt (Plan.prefixZone width Place.address)) src dst p top) :
    p.nodes.map t.rankOf =
      ((List.range (top + 1)).map fun i => 5 - i) ++
        ((List.range top).map fun i => 5 - i).reverse := by
  refine hturns.map_eq hdrawn.constructed.wellFormed hsrc (g := fun spot => 5 - spot.1) ?_
  intro n hn
  obtain ⟨x, hx⟩ := hdrawn.place_of_lt hn
  calc
    t.rankOf n = x.kind.rank := (hdrawn.kindOf_eq hx).1
    _ = 5 - x.level := rank_eq x
    _ = 5 - (plan half pods).levelAt Place.level n := by rw [Plan.levelAt_eq hx]

/-- A fat-tree has all its hosts and joins them. Whatever a selection takes out of the candidates,
the search between two hosts succeeds with a way that no other is shorter than. It climbs to their
edge switch if they have the same, or else to an aggregate of their pod if they have the same, or
else to a core, and descends from there. -/
theorem fatTree_joins_hosts (kind : FabricKind) {s : FatTreeShape R} (hk : 2 ≤ s.k)
    (heven : s.k % 2 = 0) (hhost : Admitted s.hostBandwidth)
    (hswitch : Admitted s.switchBandwidth) :
    ∃ layout built, (Network.empty kind).extend (Layout.fatTree s) = (.ok layout, built) ∧
      (∀ pod < s.k, ∀ e < s.k / 2, ∀ h < s.k / 2, ∃ n, built.topology.isHost n = true ∧
        (built.topology.node? n).map Node.name = some (Place.host pod e h).name) ∧
      ∀ (load : Load R) (entries : Forwarding) (select : Selection R),
        let net := { built.buildRoutes with load, forwarding := entries }
        (∀ entries, Answers select (net.withForwarding entries)) →
        ∀ (key : FlowKey) (src dst : NodeId),
          net.topology.isHost src = true → net.topology.isHost dst = true → src ≠ dst →
            ∃ p pod e h pod' e' h', (build select net key src dst).1 = .ok p ∧
              Way net.topology src dst p ∧
              (net.topology.node? src).map Node.name = some (Place.host pod e h).name ∧
              (net.topology.node? dst).map Node.name = some (Place.host pod' e' h').name ∧
              p.nodes.map net.topology.rankOf =
                (if pod = pod' then if e = e' then [5, 4, 5] else [5, 4, 3, 4, 5]
                  else [5, 4, 3, 2, 3, 4, 5]) ∧
              ∀ q : Path, q.Joins src dst → (∀ s ∈ q.steps, Path.Follows net.topology s.1 s.2) →
                p.nodes.length ≤ q.nodes.length := by
  obtain ⟨layout, hadds⟩ := adds_fatTree hswitch hhost hk heven
  obtain ⟨built, hextend, hbuilt, hnets⟩ := extend_of_adds hadds kind
  refine ⟨layout, built, hextend, ?_, ?_⟩
  · intro pod hpod e he h hh
    have hmem : Place.host pod e h ∈ (planOf s).places := mem_places.mpr ⟨hpod, he, hh⟩
    exact hbuilt.exists_host hmem rfl
  intro load entries select net hsel key src dst hsrc hdst hne
  obtain ⟨hdrawn, hroutes⟩ : (planOf s).Drawn (planOf s).places (planOf s).links net.topology ∧
      net.routes = Routes.ofTopology net.topology := hnets load entries
  -- Nothing else is used of the network.
  clear_value net
  obtain ⟨p, top, x, y, hok, hturns, hx, hxhost, hy, hyhost, hdiffer, hmeets, hapart⟩ :=
    build_turns_of_plan (sound _ _) (addressed _ _).tiered hdrawn hroutes hsel key hsrc hdst hne
  obtain ⟨pod, e, h, rfl, -⟩ := eq_host hxhost (List.mem_of_getElem? hx)
  obtain ⟨pod', e', h', rfl, -⟩ := eq_host hyhost (List.mem_of_getElem? hy)
  have hlt := lt_size_of_checkHost (checkHost_of_isHost hsrc)
  refine ⟨p, pod, e, h, pod', e', h', hok, hturns.way, hdrawn.name_eq hx, hdrawn.name_eq hy, ?_,
    hturns.shortest⟩
  rw [ranks_of_turns hdrawn hlt hturns, turn_eq hdiffer hmeets hapart]
  split
  · split <;> rfl
  · rfl

/-- Between hosts of one edge, of one pod and of two pods. -/
theorem small_fatTree_joins_hosts :
    let s : FatTreeShape Exact := ⟨4, 1000, 1000, 0⟩
    let built := ((Network.empty .fatTree).extend (Layout.fatTree s)).2
    let net := { built.buildRoutes with load := Table.empty, forwarding := Table.empty }
    ∀ key : FlowKey, ∃ p q r, (build Selection.first net key 7 8).1 = .ok p ∧
      (build Selection.first net key 7 10).1 = .ok q ∧
      (build Selection.first net key 7 15).1 = .ok r ∧
      p.nodes.map net.topology.rankOf = [5, 4, 5] ∧
      q.nodes.map net.topology.rankOf = [5, 4, 3, 4, 5] ∧
      r.nodes.map net.topology.rankOf = [5, 4, 3, 2, 3, 4, 5] := by
  intro s built net key
  have hadmitted : Admitted (1000 : Exact) := ⟨by decide, rfl⟩
  obtain ⟨layout, built', hextend, _, h⟩ :=
    fatTree_joins_hosts .fatTree (s := s) (by decide) (by decide) hadmitted hadmitted
  obtain rfl : built = built' := congrArg Prod.snd hextend
  replace h := h Table.empty Table.empty Selection.first (fun _ => answers_first _) key
  have hplaces : net.topology.isHost 7 = true ∧ net.topology.isHost 8 = true ∧
      net.topology.isHost 10 = true ∧ net.topology.isHost 15 = true ∧
      (net.topology.node? 7).map Node.name = some (Place.host 0 0 0).name ∧
      (net.topology.node? 8).map Node.name = some (Place.host 0 0 1).name ∧
      (net.topology.node? 10).map Node.name = some (Place.host 0 1 0).name ∧
      (net.topology.node? 15).map Node.name = some (Place.host 1 0 0).name := by
    decide +kernel
  obtain ⟨h7, h8, h10, h15, n7, n8, n10, n15⟩ := hplaces
  have hsame {x y : Place} {name : Option String} (hx : name = some x.name)
      (hy : name = some y.name) : x = y := Place.name_injective (Option.some.inj (hx.symm.trans hy))
  obtain ⟨p, _, _, _, _, _, _, hp, _, hsrc, hdst, hpranks, _⟩ := h 7 8 h7 h8 (by decide)
  cases hsame n7 hsrc
  cases hsame n8 hdst
  obtain ⟨q, _, _, _, _, _, _, hq, _, hsrc, hdst, hqranks, _⟩ := h 7 10 h7 h10 (by decide)
  cases hsame n7 hsrc
  cases hsame n10 hdst
  obtain ⟨r, _, _, _, _, _, _, hr, _, hsrc, hdst, hrranks, _⟩ := h 7 15 h7 h15 (by decide)
  cases hsame n7 hsrc
  cases hsame n15 hdst
  exact ⟨p, q, r, hp, hq, hr, hpranks, hqranks, hrranks⟩

end Network

end FlowFabric
