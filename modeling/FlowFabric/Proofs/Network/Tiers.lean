import FlowFabric.Proofs.Network.Hierarchy
import FlowFabric.Proofs.Topology.Plans

namespace FlowFabric

open Relation (ReflTransGen)

open Routes (Reaches)

namespace Plan

variable {P α : Type} {plan : Plan P} {level : P → Nat} {zone : Nat → P → α}

/-- Places in levels, the hosts on the lowest one, and links from each level to the next one below.
Links up to a level stay in its zones, a place has a way down to the hosts of its zone on its own
level, and a place that is not in one zone with some host there hangs below another one. -/
structure Tiered (plan : Plan P) (level : P → Nat) (zone : Nat → P → α) : Prop where
  host : ∀ {x}, (plan.kind x).isHost = true → level x = 0
  step : ∀ {x y}, (x, y) ∈ plan.links → level x = level y + 1
  stays : ∀ {x y k}, (x, y) ∈ plan.links → level x ≤ k → zone k x = zone k y
  covers : ∀ {x y}, x ∈ plan.places → y ∈ plan.places → (plan.kind y).isHost = true →
    zone (level x) x = zone (level x) y → ReflTransGen (fun x y => (x, y) ∈ plan.links) x y
  climbs : ∀ {x y}, x ∈ plan.places → y ∈ plan.places → (plan.kind y).isHost = true →
    zone (level x) x ≠ zone (level x) y → ∃ w, (w, x) ∈ plan.links

section Addresses

variable {width : Nat → Nat} {address : P → List Nat} {x y : P}

/-- The zone of a place when so much of its address is told on a level. -/
def prefixZone (width : Nat → Nat) (address : P → List Nat) (k : Nat) (x : P) : List Nat :=
  (address x).take (width k)

/-- Places in levels with addresses that grow longer from the top down. A level tells as much of an
address as its own places have, and a place has a way down to the hosts whose addresses begin with
its own. -/
structure Addressed (plan : Plan P) (level : P → Nat) (width : Nat → Nat) (address : P → List Nat) :
    Prop where
  host : ∀ {x}, (plan.kind x).isHost = true → level x = 0
  step : ∀ {x y}, (x, y) ∈ plan.links → level x = level y + 1
  antitone : Antitone width
  length : ∀ x, (address x).length = width (level x)
  extend : ∀ {x y}, (x, y) ∈ plan.links → address x <+: address y
  covers : ∀ {x y}, x ∈ plan.places → y ∈ plan.places → (plan.kind y).isHost = true →
    address x <+: address y → ReflTransGen (fun x y => (x, y) ∈ plan.links) x y
  climbs : ∀ {x}, x ∈ plan.places → address x ≠ [] → ∃ w, (w, x) ∈ plan.links

/-- On the level of a place, the places whose addresses begin with its own are in its zone. -/
theorem prefixZone_eq_iff (hlength : (address x).length = width (level x)) :
    prefixZone width address (level x) x = prefixZone width address (level x) y ↔
      address x <+: address y := by
  unfold prefixZone
  rw [← hlength, List.take_length, List.prefix_iff_eq_take]

theorem Addressed.tiered (h : plan.Addressed level width address) :
    plan.Tiered level (prefixZone width address) where
  host := h.host
  step := h.step
  stays {x y k} hlink hk := by
    have hshort : width k ≤ (address x).length := by
      rw [h.length]
      exact h.antitone hk
    obtain ⟨rest, hrest⟩ := h.extend hlink
    unfold prefixZone
    rw [← hrest, List.take_append_of_le_length hshort]
  covers {x y} hx hy hhost heq := h.covers hx hy hhost ((prefixZone_eq_iff (h.length x)).mp heq)
  climbs {x y} hx _ _ hne := by
    apply h.climbs hx
    intro hnil
    apply hne
    rw [prefixZone_eq_iff (h.length x), hnil]
    exact List.nil_prefix

/-- Two hosts with addresses of three numbers meet on the first level for all but the last number,
on the second one for the first number alone, and otherwise on the one where nothing is told. -/
theorem turn_of_addresses {a b c a' b' c' last top : Nat} (hx : address x = [a, b, c])
    (hy : address y = [a', b', c']) (hzero : width 0 = 3) (hone : width 1 = 2) (htwo : 2 < last)
    (hbetween : ∀ k, 2 ≤ k → k < last → width k = 1) (hlast : width last = 0)
    (hne : address x ≠ address y)
    (hmeets : prefixZone width address top x = prefixZone width address top y)
    (hapart : ∀ k < top, prefixZone width address k x ≠ prefixZone width address k y) :
    top = if a = a' then if b = b' then 1 else 2 else last := by
  -- There is one level on which they meet for the first time.
  have hturn {k : Nat} (hmeets' : prefixZone width address k x = prefixZone width address k y)
      (hapart' : ∀ i < k, prefixZone width address i x ≠ prefixZone width address i y) :
        top = k := by
    apply Nat.le_antisymm
    · exact Nat.le_of_not_lt fun hlt => hapart k hlt hmeets'
    · exact Nat.le_of_not_lt fun hlt => hapart' top hlt hmeets
  have hhost : prefixZone width address 0 x ≠ prefixZone width address 0 y := by
    unfold prefixZone
    rw [hzero, hx, hy]
    rwa [hx, hy] at hne
  have hedge : prefixZone width address 1 x = prefixZone width address 1 y ↔ a = a' ∧ b = b' := by
    simp [prefixZone, hone, hx, hy]
  have hcommon {k : Nat} (hk : 2 ≤ k) (hlt : k < last) :
      prefixZone width address k x = prefixZone width address k y ↔ a = a' := by
    simp [prefixZone, hbetween k hk hlt, hx, hy]
  have hall : prefixZone width address last x = prefixZone width address last y := by
    simp [prefixZone, hlast]
  split
  · rename_i hsame
    split
    · rename_i hsame'
      apply hturn (hedge.mpr ⟨hsame, hsame'⟩)
      intro k hk
      obtain rfl : k = 0 := by omega
      exact hhost
    · rename_i hdiffers
      apply hturn ((hcommon (Nat.le_refl 2) htwo).mpr hsame)
      intro k hk
      obtain rfl | rfl : k = 0 ∨ k = 1 := by omega
      · exact hhost
      · exact fun heq => hdiffers (hedge.mp heq).2
  · rename_i hdiffers
    apply hturn hall
    intro k hk
    obtain rfl | rfl | hlater : k = 0 ∨ k = 1 ∨ 2 ≤ k := by omega
    · exact hhost
    · exact fun heq => hdiffers (hedge.mp heq).1
    · exact fun heq => hdiffers ((hcommon hlater hk).mp heq)

end Addresses

/-- The level of the place of a node. -/
def levelAt (plan : Plan P) (level : P → Nat) (n : NodeId) : Nat := (plan.places[n]?).elim 0 level

/-- The zone of the place of a node. -/
def zoneAt (plan : Plan P) (zone : Nat → P → α) (k : Nat) (n : NodeId) : Option α :=
  (plan.places[n]?).map (zone k)

theorem levelAt_eq {n : NodeId} {x : P} (hn : plan.places[n]? = some x) :
    plan.levelAt level n = level x := by
  unfold levelAt
  rw [hn]
  rfl

theorem zoneAt_eq {n : NodeId} {x : P} (hn : plan.places[n]? = some x) (k : Nat) :
    plan.zoneAt zone k n = some (zone k x) := by
  unfold zoneAt
  rw [hn]
  rfl

namespace Drawn

variable {R : Type} [Quantity R] {t : Topology R} {a b n dst : NodeId} {l : LinkId} {x y : P}
  (hsound : plan.Sound) (h : plan.Drawn plan.places plan.links t)

include h

/-- Links lead between places, from the upper one down or from the lower one up. -/
theorem places_of_listed (hl : l ∈ t.linksOf n) :
    ∃ x y, plan.places[n]? = some x ∧ plan.places[t.neighbour n l]? = some y ∧
      ((x, y) ∈ plan.links ∨ (y, x) ∈ plan.links) := by
  have hne := h.constructed.wellFormed.neighbour_ne hl
  exact h.joined.mp (h.constructed.joined_iff.mpr ⟨hne, l, hl, rfl⟩)

theorem listed_of_link (hn : plan.places[n]? = some x) (hm : plan.places[a]? = some y)
    (hlink : (x, y) ∈ plan.links ∨ (y, x) ∈ plan.links) : ∃ l ∈ t.linksOf n, t.neighbour n l = a :=
  (h.constructed.joined_iff.mp (h.joined.mpr ⟨x, y, hn, hm, hlink⟩)).2

include hsound

theorem rank_lt_of_link (ha : plan.places[a]? = some x) (hb : plan.places[b]? = some y)
    (hlink : (x, y) ∈ plan.links) : t.rankOf a < t.rankOf b := by
  rw [(h.kindOf_eq ha).1, (h.kindOf_eq hb).1]
  exact hsound.descends hlink

/-- A chain of links between places is a way down. -/
theorem reaches (hn : plan.places[n]? = some x) (hdst : plan.places[dst]? = some y)
    (hchain : ReflTransGen (fun x y => (x, y) ∈ plan.links) x y) : Reaches t dst n := by
  induction hchain using ReflTransGen.head_induction_on generalizing n with
  | refl =>
    rw [eq_of_place hsound.places hn hdst]
    exact .arrived
  | head hlink _ ih =>
    obtain ⟨m, hm⟩ := List.getElem?_of_mem (h.ends hlink).2
    obtain ⟨l, hl, heq⟩ := h.listed_of_link hn hm (Or.inl hlink)
    have hrank := h.rank_lt_of_link hsound hn hm hlink
    rw [← heq] at hm hrank
    exact .down hl hrank (ih hm)

theorem hierarchy (htiers : plan.Tiered level zone) :
    t.Hierarchy (plan.levelAt level) (plan.zoneAt zone) where
  host {n} hn := by
    obtain ⟨x, hx, hhost⟩ := h.place_of_host hn
    rw [levelAt_eq hx]
    exact htiers.host hhost
  step {n l} hl := by
    obtain ⟨x, y, hx, hy, hlink⟩ := h.places_of_listed hl
    rw [levelAt_eq hx, levelAt_eq hy]
    rcases hlink with hlink | hlink
    · exact Or.inr ⟨h.rank_lt_of_link hsound hx hy hlink, htiers.step hlink⟩
    · exact Or.inl ⟨h.rank_lt_of_link hsound hy hx hlink, htiers.step hlink⟩
  stays {n l k} hl hn hm := by
    obtain ⟨x, y, hx, hy, hlink⟩ := h.places_of_listed hl
    rw [levelAt_eq hx] at hn
    rw [levelAt_eq hy] at hm
    rw [zoneAt_eq hx, zoneAt_eq hy]
    rcases hlink with hlink | hlink
    · rw [htiers.stays hlink hn]
    · rw [htiers.stays hlink hm]
  covers {n dst} hn hdst heq := by
    obtain ⟨x, hx⟩ := h.place_of_lt hn
    obtain ⟨y, hy, hhost⟩ := h.place_of_host hdst
    rw [levelAt_eq hx, zoneAt_eq hx, zoneAt_eq hy] at heq
    have hchain := htiers.covers (List.mem_of_getElem? hx) (List.mem_of_getElem? hy) hhost
      (Option.some.inj heq)
    exact h.reaches hsound hx hy hchain
  climbs {n dst} hn hdst hnot := by
    obtain ⟨x, hx⟩ := h.place_of_lt hn
    obtain ⟨y, hy, hhost⟩ := h.place_of_host hdst
    have hxmem := List.mem_of_getElem? hx
    have hymem := List.mem_of_getElem? hy
    obtain ⟨w, hlink⟩ := htiers.climbs hxmem hymem hhost fun heq =>
      hnot (h.reaches hsound hx hy (htiers.covers hxmem hymem hhost heq))
    obtain ⟨m, hm⟩ := List.getElem?_of_mem (h.ends hlink).1
    obtain ⟨l, hl, heq⟩ := h.listed_of_link hx hm (Or.inr hlink)
    refine ⟨l, hl, ?_⟩
    rw [heq]
    exact h.rank_lt_of_link hsound hm hx hlink

/-- Where every place hangs below one other place at most, the nodes make a forest. -/
theorem forest (honce : ∀ {w w' x}, (w, x) ∈ plan.links → (w', x) ∈ plan.links → w = w') :
    t.Forest := by
  intro n l l' hl hl' hup hup'
  have habove {l : LinkId} (hl : l ∈ t.linksOf n) (hup : t.rankOf (t.neighbour n l) < t.rankOf n) :
      ∃ w x, plan.places[n]? = some x ∧ plan.places[t.neighbour n l]? = some w ∧
        (w, x) ∈ plan.links := by
    obtain ⟨x, w, hx, hw, hlink⟩ := h.places_of_listed hl
    rcases hlink with hlink | hlink
    · exact absurd (h.rank_lt_of_link hsound hx hw hlink) (Nat.lt_asymm hup)
    · exact ⟨w, x, hx, hw, hlink⟩
  obtain ⟨w, x, hx, hw, hlink⟩ := habove hl hup
  obtain ⟨w', x', hx', hw', hlink'⟩ := habove hl' hup'
  obtain rfl : x = x' := Option.some.inj (hx.symm.trans hx')
  obtain rfl : w = w' := honce hlink hlink'
  have hsame : t.neighbour n l = t.neighbour n l' := eq_of_place hsound.places hw hw'
  obtain ⟨link, hfound, hconnects, hother⟩ := h.constructed.wellFormed.connects hl
  obtain ⟨link', hfound', hconnects', hother'⟩ := h.constructed.wellFormed.connects hl'
  have hne := h.constructed.wellFormed.neighbour_ne hl
  rw [← hother] at hconnects
  rw [← hother', ← hsame] at hconnects'
  exact h.constructed.simple.unique hfound hconnects hfound' hconnects' hne

end Drawn

end Plan

namespace Network

variable {P α : Type} {plan : Plan P} {level : P → Nat} {zone : Nat → P → α} {R : Type} [Quantity R]

omit [Quantity R] in
theorem extend_ok {β : Type} {net : Network R} {change : LayoutM R β} {b : β} {t : Topology R}
    (h : change.run.run net.topology = (.ok b, t)) :
    ∃ net', net.extend change = (.ok b, net') ∧ net'.topology = t := by
  unfold extend
  rw [h]
  exact ⟨_, rfl, rfl⟩

/-- A network that a layout draws from a plan has the routing tables of it, whatever the traffic. -/
theorem extend_of_adds {β : Type} {change : LayoutM R β} {b : β}
    (h : plan.Adds [] plan.places plan.links change b) (kind : FabricKind) :
    ∃ built, (Network.empty kind).extend change = (.ok b, built) ∧
      plan.Drawn plan.places plan.links built.topology ∧
      ∀ (load : Load R) (entries : Forwarding),
        let net := { built.buildRoutes with load, forwarding := entries }
        plan.Drawn plan.places plan.links net.topology ∧
          net.routes = Routes.ofTopology net.topology := by
  obtain ⟨t, hrun, hdrawn⟩ := h.draws kind
  have hempty : change.run.run (Network.empty kind).topology = (.ok b, t) := hrun
  obtain ⟨built, hextend, htopology⟩ := extend_ok hempty
  rw [← htopology] at hdrawn
  refine ⟨built, hextend, hdrawn, ?_⟩
  intro load entries net
  simp only [net, routes_buildRoutes, topology_buildRoutes, and_true]
  exact hdrawn

/-- In a network that is drawn from a plan in tiers,
the way between two hosts turns round where their places meet. -/
theorem build_turns_of_plan (hsound : plan.Sound) (htiers : plan.Tiered level zone)
    {net : Network R} (hdrawn : plan.Drawn plan.places plan.links net.topology)
    (hroutes : net.routes = Routes.ofTopology net.topology) {select : Selection R}
    (hsel : ∀ entries, Answers select (net.withForwarding entries)) (key : FlowKey)
    {src dst : NodeId} (hsrc : net.topology.isHost src = true)
    (hdst : net.topology.isHost dst = true) (hne : src ≠ dst) :
    ∃ p top x y, (build select net key src dst).1 = .ok p ∧
      Turns net.topology (plan.levelAt level) (plan.zoneAt zone) src dst p top ∧
      plan.places[src]? = some x ∧ (plan.kind x).isHost = true ∧
      plan.places[dst]? = some y ∧ (plan.kind y).isHost = true ∧ x ≠ y ∧
      zone top x = zone top y ∧ ∀ i < top, zone i x ≠ zone i y := by
  have hier := hdrawn.hierarchy hsound htiers
  obtain ⟨p, top, hok, hturns⟩ :=
    build_turns hdrawn.constructed hroutes hier hdst hsel key hsrc hne
  obtain ⟨x, hx, hxhost⟩ := hdrawn.place_of_host hsrc
  obtain ⟨y, hy, hyhost⟩ := hdrawn.place_of_host hdst
  have hzones (i : Nat) : plan.zoneAt zone i src = plan.zoneAt zone i dst ↔
      zone i x = zone i y := by
    rw [Plan.zoneAt_eq hx, Plan.zoneAt_eq hy, Option.some.injEq]
  refine ⟨p, top, x, y, hok, hturns, hx, hxhost, hy, hyhost, ?_, (hzones top).mp hturns.meets, ?_⟩
  · rintro rfl
    exact hne (Plan.eq_of_place hsound.places hx hy)
  · exact fun i hi heq => hturns.apart i hi ((hzones i).mpr heq)

end Network

end FlowFabric
