import FlowFabric.Proofs.Network.Entries
import FlowFabric.Proofs.Quantity.Bandwidth

namespace FlowFabric

namespace Selection

open Quantity (isFinite)

theorem mem_spread (dst : NodeId) {cs : List LinkId} (h : cs ≠ []) :
    ∃ l ∈ cs, spread dst cs = some l := by
  have hlt : dst % cs.length < cs.length := Nat.mod_lt _ (List.length_pos_of_ne_nil h)
  exact ⟨cs[dst % cs.length], List.getElem_mem hlt, List.getElem?_eq_getElem hlt⟩

/-- Among candidates with finite bandwidth to spare there is one with the most. -/
theorem widest_ne_nil {free : LinkId → Exact} {cs : List LinkId}
    (hfree : ∀ l ∈ cs, isFinite (free l) = true) (hne : cs ≠ []) : widest free cs ≠ [] := by
  have hfinite : ∀ a ∈ cs.map free, isFinite a = true := List.forall_mem_map.mpr hfree
  have hbest := Quantity.maximum_mem (List.map_eq_nil_iff.not.mpr hne) hfinite
  obtain ⟨l, hl, heq⟩ := List.mem_map.mp hbest
  obtain ⟨p, hp⟩ := Exact.eq_fin_of_isFinite (hfree l hl)
  have hclose : Quantity.abs (free l - free l) ≤
      1e-9 * Quantity.max (Quantity.abs (free l)) 1 := by
    rw [hp, show (1e-9 : Exact) = Exact.fin (1 / 10 ^ 9) from Exact.tolerance_eq,
      Exact.fin_sub_fin, Exact.abs_fin, Exact.abs_fin, Exact.ofNat_eq_fin, Exact.max_fin,
      Exact.fin_mul_fin, Exact.fin_le_fin, sub_self, abs_zero]
    positivity
  refine List.ne_nil_of_mem (a := l) (List.mem_filter.mpr ⟨hl, decide_eq_true ?_⟩)
  rw [← heq]
  exact hclose

end Selection

/-- There is no route, or the work cannot go on. -/
def Fault.isDeadEnd {R : Type} : Fault R → Bool
  | noRoute _ _ => true
  | breach _ => true
  | _ => false

theorem Fault.isDeadEnd_of_isBreach {R : Type} {e : Fault R} (h : e.isBreach = true) :
    e.isDeadEnd = true := by
  cases e with
  | breach => rfl
  | _ => cases h

namespace Network

open Quantity (isFinite)

variable {R : Type} [Quantity R]

omit [Quantity R] in
theorem answers_destinationAddress (net : Network R) : Answers Selection.destinationAddress net :=
  fun _ dst _ _ hcs => Selection.mem_spread dst hcs

/-- No selection of the library takes another link than those that it is offered. -/
theorem picks_select (rule : SelectionRule) (net : Network R) : Picks rule.select net := by
  have hspread {dst : NodeId} {cs : List LinkId} {l : LinkId}
      (h : Selection.spread dst cs = some l) : l ∈ cs :=
    List.mem_of_getElem? h
  cases rule with
  | first => exact Answers.picks (answers_first net)
  | destinationAddress => exact fun _ _ _ _ _ l hl => hspread hl
  | bandwidthAllocation => exact fun _ _ _ _ _ l hl => (List.mem_filter.mp (hspread hl)).1

/-- Every selection of the library answers where all bandwidth to spare is finite. -/
theorem answers_select (rule : SelectionRule) {net : Network Exact}
    (h : ∀ here key l, isFinite (Selection.spare net here key l) = true) :
    Answers rule.select net := by
  cases rule with
  | first => exact answers_first net
  | destinationAddress => exact answers_destinationAddress net
  | bandwidthAllocation =>
    intro here dst key cs hcs
    have hne := Selection.widest_ne_nil (fun l _ => h here key l) hcs
    obtain ⟨l, hl, hspread⟩ := Selection.mem_spread dst hne
    exact ⟨l, (List.mem_filter.mp hl).1, hspread⟩

/-- In a network that was built and that no channel uses yet, every selection of the library
answers, whatever entries there are. -/
theorem Built.answers_select {net : Network Exact} (h : net.Built) (hidle : net.load = Table.empty)
    (rule : SelectionRule) (entries : Forwarding) :
    Answers rule.select (net.withForwarding entries) := by
  refine Network.answers_select rule fun here key l => ?_
  -- Without channels all the capacity of a lane is to spare.
  have hlane (lane : Lane) : isFinite (net.capacity lane - (net.shares lane).allocated +
      ((net.shares lane).allocatedTo? key).getD 0) = true := by
    have hshares : net.shares lane = Table.empty := by
      unfold shares Load.shares
      rw [hidle]
      rfl
    have hcapacity : isFinite (net.capacity lane) = true :=
      h.routed.1.wellFormed.capacity_induction (P := fun c => isFinite c = true) rfl
        (fun _ hb => hb.2) lane
    obtain ⟨q, hq⟩ := Exact.eq_fin_of_isFinite hcapacity
    rw [hshares, hq]
    rfl
  exact hlane _

section Build

variable {select : Selection R} {net : Network R} {src dst : NodeId}

/-- The hop from one node to another follows the link between them. -/
theorem follows_of_hopBetween? (h : net.topology.WellFormed) {a b : NodeId} {hop : Hop}
    (hhop : Path.hopBetween? net.topology a b = some hop) : Path.Follows net.topology a hop := by
  obtain ⟨l, hl, hlink⟩ := Option.bind_eq_some_iff.mp hhop
  obtain ⟨link, hlink', rfl⟩ := Option.map_eq_some_iff.mp hlink
  refine ⟨link, hlink', ?_, rfl⟩
  unfold Topology.linkBetween? at hl
  split at hl
  · rename_i heq
    obtain ⟨node, hnode, hloop⟩ := Option.bind_eq_some_iff.mp hl
    obtain ⟨_, link', hlink'', hhigh, hlow⟩ := h.loopback hnode hloop
    obtain rfl : link' = link := Option.some.inj (hlink''.symm.trans hlink')
    exact Link.connects_iff.mpr (Or.inl ⟨hhigh, hlow.trans heq⟩)
  · obtain ⟨link', hlink'', hconnects, hother⟩ := h.connects (List.mem_of_find?_eq_some hl)
    obtain rfl : link' = link := Option.some.inj (hlink''.symm.trans hlink')
    have hb : net.topology.neighbour a l = b :=
      eq_of_beq (List.find?_some (p := fun l => net.topology.neighbour a l == b) hl)
    rw [← hother, hb] at hconnects
    exact hconnects

/-- In a network that was built, a search succeeds with a path over links, or it fails. Only a
selection that does not answer makes it break off, and between hosts it fails only for want of a
route or of an answer. -/
theorem build_ends (hnet : net.Built)
    (hsel : ∀ entries, Picks select (net.withForwarding entries)) (key : FlowKey)
    (src dst : NodeId) :
    (∃ p net', build select net key src dst = (.ok p, net') ∧
      ∀ s ∈ p.steps, Path.Follows net.topology s.1 s.2) ∨
    ∃ e net', build select net key src dst = (.error e, net') ∧
      (e.isBreach = true → ∃ entries, ¬ Answers select (net.withForwarding entries)) ∧
      (net.topology.checkHost src = .ok () → net.topology.checkHost dst = .ok () →
        e.isDeadEnd = true) := by
  obtain ⟨hconstructed, t, hrouted⟩ := hnet.routed
  rcases build_cases select net key src dst with
    ⟨e, he, hends, hb⟩ | ⟨_, hop, hhop, hb⟩ | ⟨hsrc, _, hb⟩
  · refine Or.inr ⟨e, net, hb, fun h => ?_, fun hsrc hdst => ?_⟩
    · rw [he] at h
      cases h
    · obtain ⟨hop, hhop, _⟩ := hconstructed.hopBetween?_self hsrc
      cases (hends hsrc hdst).symm.trans hhop
  · refine Or.inl ⟨_, _, hb, ?_⟩
    intro s hs
    rw [List.mem_singleton.mp hs]
    exact follows_of_hopBetween? hconstructed.wellFormed hhop
  · have hself : net = net.withForwarding net.forwarding := rfl
    rw [hb]
    rcases lay_ends [] (steers_entries hsel key) hself hrouted (Laid.start src hsrc)
      (Nat.lt_succ_self _) with ⟨p, hok, hlaid, _⟩ | ⟨here, herror, _⟩ |
        ⟨hbreach, net', hnet', hsilent⟩
    · exact Or.inl ⟨p, _, Prod.ext hok rfl, hlaid.follows⟩
    · exact Or.inr ⟨_, _, Prod.ext herror rfl, (fun h => by cases h), fun _ _ => rfl⟩
    · exact Or.inr ⟨_, _, Prod.ext hbreach rfl, fun _ => ⟨_, hnet' ▸ hsilent⟩, fun _ _ => rfl⟩

end Build

end Network

end FlowFabric
