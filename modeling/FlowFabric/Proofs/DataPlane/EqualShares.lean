import FlowFabric.Proofs.DataPlane.Conservation
import FlowFabric.Proofs.DataPlane.Fixpoint

namespace FlowFabric

open Exact

namespace Exact

/-- An undefined value does not count, and infinities are the ends of the line. -/
theorem min_eq (a b : Exact) :
    Quantity.min a b = match a, b with
      | fin x, fin y => fin (x ⊓ y)
      | undef, b => b
      | a, undef => a
      | negInf, _ => negInf
      | _, negInf => negInf
      | posInf, b => b
      | a, posInf => a := by
  cases a <;> cases b <;> first | exact min_fin | exact min_posInf_left | rfl | skip
  -- What is left is an undefined value before a finite one.
  exact if_pos (fin_le_fin.mpr le_rfl)

/-- The least of some values does not depend on their order, whichever of them are undefined. -/
instance : RightCommutative (Quantity.min : Exact → Exact → Exact) where
  right_comm a b c := by
    cases a <;> cases b <;> cases c <;> simp only [min_eq, inf_comm, inf_left_comm]

theorem nonneg_iff {x : Exact} : x.Nonneg ↔ Quantity.isFinite x = true ∧ 0 ≤ x := by
  constructor
  · rintro ⟨q, rfl, hq⟩
    exact ⟨rfl, fin_le_fin.mpr (by exact_mod_cast hq)⟩
  · rintro ⟨hfinite, hzero⟩
    obtain ⟨q, rfl⟩ := eq_fin_of_isFinite hfinite
    exact .fin (by exact_mod_cast fin_le_fin.mp hzero)

theorem Nonneg.lt_infinity {x : Exact} (h : x.Nonneg) : x < Quantity.infinity :=
  BandwidthLaws.lt_infinity (nonneg_iff.mp h).1

/-- Only a finite value can be close to a finite one. -/
theorem eq_fin_of_abs_sub_le {b e : ℚ} {a : Exact} (h : Quantity.abs (fin b - a) ≤ fin e) :
    ∃ q, a = fin q := by
  cases a with
  | fin q => exact ⟨q, rfl⟩
  | posInf => exact absurd h Bool.false_ne_true
  | negInf => exact absurd h Bool.false_ne_true
  | undef => exact absurd h Bool.false_ne_true

end Exact

namespace Shares

variable {R : Type}

theorem dedicatedCount_pos {s : Shares R} {x : Share R} (hx : x ∈ s.values)
    (hd : x.dedicated = true) : 0 < s.dedicatedCount :=
  List.length_pos_of_mem (List.mem_filter.mpr ⟨hx, hd⟩)

end Shares

namespace Channel

section Slowest

variable {R : Type} [Quantity R]

/-- No lane of the list is slower than this one. -/
structure Slowest (net : Network R) (lanes : List Lane) (lane : Lane) : Prop where
  mem : lane ∈ lanes
  least : ∀ other ∈ lanes, net.capacity lane ≤ net.capacity other

instance (net : Network R) (lanes : List Lane) (lane : Lane) : Decidable (Slowest net lanes lane) :=
  decidable_of_iff (lane ∈ lanes ∧ ∀ other ∈ lanes, net.capacity lane ≤ net.capacity other)
    ⟨fun h => ⟨h.1, h.2⟩, fun h => ⟨h.mem, h.least⟩⟩

/-- Lanes before this one are faster, and lanes after it are no slower. -/
def FirstSlowest (net : Network R) (lanes : List Lane) (lane : Lane) : Prop :=
  ∃ before after, lanes = before ++ lane :: after ∧
    (∀ other ∈ before, net.capacity lane < net.capacity other) ∧
    ∀ other ∈ after, net.capacity lane ≤ net.capacity other

/-- One step of the search for the first slowest lane. -/
def slower (net : Network R) (best : R × Option Lane) (lane : Lane) : R × Option Lane :=
  if net.capacity lane < best.1 then (net.capacity lane, some lane) else best

theorem slowest?_eq (net : Network R) (lanes : List Lane) :
    slowest? net lanes = (lanes.foldl (slower net) (Quantity.infinity, none)).2 :=
  rfl

/-- As long as only faster lanes have been seen, a slower one will take their place. -/
theorem lt_foldl_slower {net : Network R} {bound : R} {lanes : List Lane}
    (h : ∀ lane ∈ lanes, bound < net.capacity lane) {best : R × Option Lane}
    (hbest : bound < best.1) :
    bound < (lanes.foldl (slower net) best).1 := by
  induction lanes generalizing best with
  | nil => exact hbest
  | cons lane rest ih =>
    refine ih (fun other ho => h other (List.mem_cons_of_mem _ ho)) ?_
    unfold slower
    split
    · exact h lane List.mem_cons_self
    · exact hbest

/-- Lanes that are no slower than the best one so far leave it in place. -/
theorem foldl_slower_of_le [OrderLaws R] {net : Network R} {best : R × Option Lane}
    {lanes : List Lane} (h : ∀ lane ∈ lanes, best.1 ≤ net.capacity lane)
    : lanes.foldl (slower net) best = best := by
  induction lanes with
  | nil => rfl
  | cons lane rest ih =>
    have hkeep : slower net best lane = best :=
      if_neg (OrderLaws.not_lt_of_le (h lane List.mem_cons_self))
    rw [List.foldl_cons, hkeep]
    exact ih fun other ho => h other (List.mem_cons_of_mem _ ho)

theorem FirstSlowest.slowest? [OrderLaws R] {net : Network R} {lanes : List Lane} {lane : Lane}
    (h : FirstSlowest net lanes lane) (hfinite : net.capacity lane < Quantity.infinity) :
    slowest? net lanes = some lane := by
  obtain ⟨before, after, rfl, hbefore, hafter⟩ := h
  have htake : slower net (before.foldl (slower net) (Quantity.infinity, none)) lane
      = (net.capacity lane, some lane) := if_pos (lt_foldl_slower hbefore hfinite)
  rw [slowest?_eq, List.foldl_append, List.foldl_cons, htake, foldl_slower_of_le hafter]

/-- The channel has at most an equal share of the lane, up to the tolerance of changes. -/
def KeepsShare (c : Channel R) (net : Network R) (lane : Lane) : Prop :=
  c.allocated ≤ net.capacity lane / Quantity.ofNat (net.shares lane).dedicatedCount
    + 1e-9 * Quantity.max (c.dedicatedTarget net) 1

instance (c : Channel R) (net : Network R) (lane : Lane) : Decidable (c.KeepsShare net lane) :=
  inferInstanceAs (Decidable (_ ≤ _))

end Slowest

variable {net : Network Exact} {lanes : List Lane}

theorem exists_firstSlowest (hcap : ∀ lane, (net.capacity lane).Nonneg) (hne : lanes ≠ []) :
    ∃ lane, FirstSlowest net lanes lane ∧ Slowest net lanes lane := by
  have hle (a b : Lane) : net.capacity a ≤ net.capacity b ↔
      (net.capacity a).toRat ≤ (net.capacity b).toRat := by
    rw [(hcap a).eq_fin, (hcap b).eq_fin, fin_le_fin, toRat_fin, toRat_fin]
  have hlt (a b : Lane) : net.capacity a < net.capacity b ↔
      (net.capacity a).toRat < (net.capacity b).toRat := by
    rw [(hcap a).eq_fin, (hcap b).eq_fin, fin_lt_fin, toRat_fin, toRat_fin]
  induction lanes with
  | nil => exact absurd rfl hne
  | cons lane rest ih =>
    by_cases hrest : rest = []
    · subst hrest
      refine ⟨lane, ⟨[], [], rfl, nofun, nofun⟩, List.mem_cons_self, ?_⟩
      simp [hle]
    obtain ⟨best, ⟨before, after, hsplit, hbefore, hafter⟩, hbest⟩ := ih hrest
    rcases le_or_gt (net.capacity lane).toRat (net.capacity best).toRat with h | h
    · have hleast : ∀ other ∈ rest, net.capacity lane ≤ net.capacity other := fun other ho =>
        (hle lane other).mpr (h.trans ((hle best other).mp (hbest.least other ho)))
      refine ⟨lane, ⟨[], rest, rfl, nofun, hleast⟩, List.mem_cons_self, ?_⟩
      exact List.forall_mem_cons.mpr ⟨(hle lane lane).mpr le_rfl, hleast⟩
    · refine ⟨best, ⟨lane :: before, after, by rw [hsplit, List.cons_append], ?_, hafter⟩,
        List.mem_cons_of_mem _ hbest.mem, ?_⟩
      · exact List.forall_mem_cons.mpr ⟨(hlt best lane).mpr h, hbefore⟩
      · exact List.forall_mem_cons.mpr ⟨(hle best lane).mpr h.le, hbest.least⟩

/-- Lanes in another order have the same slowest ones. -/
theorem Slowest.perm {lanes' : List Lane} (hp : lanes'.Perm lanes) {lane : Lane}
    (h : Slowest net lanes lane) : Slowest net lanes' lane :=
  ⟨hp.mem_iff.mpr h.mem, fun other ho => h.least other (hp.mem_iff.mp ho)⟩

theorem scale_perm {lanes' : List Lane} (hp : lanes'.Perm lanes) :
    scale net lanes' = scale net lanes :=
  (hp.map net.factor).foldl_eq 1

/-- Slowest lanes have one capacity. -/
theorem Slowest.capacity_eq (hcap : ∀ lane, (net.capacity lane).Nonneg) {a b : Lane}
    (ha : Slowest net lanes a) (hb : Slowest net lanes b) : net.capacity a = net.capacity b := by
  have hab := ha.least b hb.mem
  have hba := hb.least a ha.mem
  rw [(hcap a).eq_fin, (hcap b).eq_fin, fin_le_fin] at hab hba
  rw [(hcap a).eq_fin, (hcap b).eq_fin, le_antisymm hab hba]

/-- The target of a dedicated channel is at most an equal share of the first slowest lane. -/
theorem dedicatedTarget_le_equalShare (hcap : ∀ lane, (net.capacity lane).Nonneg)
    {c : Channel Exact} (hr : Quantity.isFinite c.requested = true) {lane : Lane}
    (h : slowest? net c.path.lanes = some lane) :
    c.dedicatedTarget net ≤ equalShare net lane := by
  have hfinite (lane : Lane) := nonneg_iff.mp (hcap lane)
  obtain ⟨hlow, hhigh⟩ := scale_mem_unit hfinite c.path.lanes
  obtain ⟨r, hr⟩ := eq_fin_of_isFinite (BandwidthLaws.finite_mul hr hlow hhigh)
  obtain ⟨e, he⟩ := eq_fin_of_isFinite (finite_equalShare hfinite lane)
  unfold dedicatedTarget
  rw [h]
  dsimp only
  rw [hr, he, min_fin, fin_le_fin]
  exact inf_le_right

/-- A lane that is as slow and no more used has no smaller share for each. -/
theorem equalShare_le_part (hcap : ∀ lane, (net.capacity lane).Nonneg) {first lane : Lane}
    (hsame : net.capacity lane = net.capacity first) (hpos : 0 < (net.shares lane).dedicatedCount)
    (hle : (net.shares lane).dedicatedCount ≤ (net.shares first).dedicatedCount) :
    ∃ e b : ℚ, equalShare net first = fin e ∧ e ≤ b ∧
      net.capacity lane / Quantity.ofNat (net.shares lane).dedicatedCount = fin b := by
  obtain ⟨C, hC, hC0⟩ := hcap first
  have hfirst : Nat.max (net.shares first).dedicatedCount 1 = (net.shares first).dedicatedCount :=
    Nat.max_eq_left (hpos.trans_le hle)
  refine ⟨C / (net.shares first).dedicatedCount, C / (net.shares lane).dedicatedCount, ?_, ?_, ?_⟩
  · unfold equalShare
    rw [hfirst, hC, ofNat_div_fin (hpos.trans_le hle).ne']
  · exact div_le_div_of_nonneg_left hC0 (Nat.cast_pos.mpr hpos) (Nat.cast_le.mpr hle)
  · rw [hsame, hC, ofNat_div_fin hpos.ne']

/-- What a settled channel has is no further above a bound on its target than the tolerance. -/
theorem allocated_le_of_target_le {c : Channel Exact} {target bound : ℚ} (hb : target ≤ bound)
    (h : c.isSettledAt (fin target) = true) :
    c.allocated ≤ fin bound + 1e-9 * Quantity.max (fin target) 1 := by
  have hclose := of_decide_eq_true h
  have htol : (1e-9 : Exact) = fin slack := tolerance_eq
  rw [tolerance_eq, ofNat_eq_fin, max_fin, fin_mul_fin] at hclose
  obtain ⟨a, ha⟩ := eq_fin_of_abs_sub_le hclose
  rw [ha, fin_sub_fin, abs_fin, fin_le_fin] at hclose
  rw [ha, htol, ofNat_eq_fin, max_fin, fin_mul_fin, fin_add_fin, fin_le_fin]
  have hdist := (abs_le.mp hclose).1
  unfold slack
  linarith

/-- The order of the lanes makes no difference to the target if the slowest
ones have equally many dedicated channels. -/
theorem dedicatedTarget_perm (hcap : ∀ lane, (net.capacity lane).Nonneg) {c : Channel Exact}
    {path : Path} (hp : path.lanes.Perm c.path.lanes)
    (hcount : ∀ a b, Slowest net c.path.lanes a → Slowest net c.path.lanes b →
      (net.shares a).dedicatedCount = (net.shares b).dedicatedCount) :
    ({ c with path } : Channel Exact).dedicatedTarget net = c.dedicatedTarget net := by
  unfold dedicatedTarget
  dsimp only
  rw [scale_perm hp]
  by_cases hne : c.path.lanes = []
  · rw [hne] at hp ⊢
    rw [hp.eq_nil]
  obtain ⟨a, ha, hsa⟩ := exists_firstSlowest hcap hne
  have hne' : path.lanes ≠ [] := fun h => hne (h ▸ hp).nil_eq.symm
  obtain ⟨b, hb, hslowest⟩ := exists_firstSlowest hcap hne'
  have hsb := hslowest.perm hp.symm
  have hshare : equalShare net b = equalShare net a := by
    unfold equalShare
    rw [hsb.capacity_eq hcap hsa, hcount b a hsb hsa]
  rw [ha.slowest? (hcap a).lt_infinity, hb.slowest? (hcap b).lt_infinity]
  dsimp only
  rw [hshare]

end Channel

namespace DataPlane

variable {net : Network Exact} {discipline : Discipline} {timeout : Option Exact}
    {dp : DataPlane Exact}

/-- A dedicated channel counts on the lanes of its path. -/
theorem Registered.dedicatedCount_pos (h : dp.Registered) {key : FlowKey} {c : Channel Exact}
    (hc : dp.channel? key = some c) (hd : c.isDedicated = true) {lane : Lane}
    (hlane : lane ∈ c.path.lanes) :
    0 < (dp.network.shares lane).dedicatedCount := by
  have hshare : (dp.network.shares lane).get? key = some c.share := by
    rw [h.shares lane key, hc]
    exact if_pos hlane
  have hmem : c.share ∈ (dp.network.shares lane).values :=
    List.mem_map.mpr ⟨(key, c.share), Table.get?_eq_some_iff.mp hshare, rfl⟩
  exact Shares.dedicatedCount_pos hmem hd

/-- After any operations with finite requests, a dedicated channel keeps to its share of the first
slowest lane of its path, and of every slowest lane that no more dedicated channels use. If equally
many use all slowest lanes, the order of the lanes makes no difference. -/
theorem equal_share_kept (ht : net.topology.Constructed) (hfresh : net.load = Table.empty)
    (h : Reachable net discipline timeout dp) {key : FlowKey} {c : Channel Exact}
    (hc : dp.channel? key = some c) (hd : c.isDedicated = true) :
    (c.path.lanes ≠ [] → ∃ first, Channel.FirstSlowest dp.network c.path.lanes first ∧
      ∀ lane, Channel.Slowest dp.network c.path.lanes lane →
        (dp.network.shares lane).dedicatedCount ≤ (dp.network.shares first).dedicatedCount →
        0 < (dp.network.shares lane).dedicatedCount ∧ c.KeepsShare dp.network lane) ∧
    ((∀ a b, Channel.Slowest dp.network c.path.lanes a → Channel.Slowest dp.network c.path.lanes b →
        (dp.network.shares a).dedicatedCount = (dp.network.shares b).dedicatedCount) →
      ∀ path : Path, path.lanes.Perm c.path.lanes →
        ({ c with path } : Channel Exact).dedicatedTarget dp.network =
          c.dedicatedTarget dp.network) := by
  have hrests := h.rests ht hfresh
  have hcap (lane : Lane) : (dp.network.capacity lane).Nonneg :=
    nonneg_iff.mpr (hrests.capacity lane)
  have hr := (hrests.channel key c hc).requested
  refine ⟨fun hne => ?_, fun hcount path hp => Channel.dedicatedTarget_perm hcap hp hcount⟩
  obtain ⟨first, hfirst, hslowest⟩ := Channel.exists_firstSlowest hcap hne
  refine ⟨first, hfirst, fun lane hlane hle => ?_⟩
  have hpos := hrests.registered.dedicatedCount_pos hc hd hlane.mem
  -- The target is at most the equal share of the first slowest lane, and that no more than the part
  -- of this one.
  have htarget :=
    Channel.dedicatedTarget_le_equalShare hcap hr (hfirst.slowest? (hcap first).lt_infinity)
  obtain ⟨e, b, he, heb, hb⟩ :=
    Channel.equalShare_le_part hcap (hlane.capacity_eq hcap hslowest) hpos hle
  obtain ⟨q, hq⟩ := eq_fin_of_isFinite (Channel.finite_dedicatedTarget hrests.capacity hr)
  rw [hq, he, fin_le_fin] at htarget
  have hsettled : c.isSettledAt (fin q) = true := by
    have hat := hrests.settled key c hc
    rwa [Channel.target, if_pos hd, hq] at hat
  refine ⟨hpos, ?_⟩
  unfold Channel.KeepsShare
  rw [hb, hq]
  exact Channel.allocated_le_of_target_le (htarget.trans heb) hsettled

/-- Two flows ask for more than the links of a rack have, and one of them keeps to half of each
link, whichever of the links comes first. -/
theorem rack_equal_share_kept :
    let net : Network Exact := { Network.empty .tree with topology := Topology.rack }
    let across : Path := ⟨0, [⟨⟨2, .up⟩, 2⟩, ⟨⟨3, .down⟩, 1⟩]⟩
    let ops : List (Exact × Operation Exact) :=
      [(0, .add ⟨1, 2, 7⟩ across 800 .timeShared none),
        (1, .add ⟨1, 2, 8⟩ across 700 .timeShared none)]
    let dp := (DataPlane.create net .timeShared none).run ops
    Reachable net .timeShared none dp ∧ ∃ c ∈ dp.channel? ⟨1, 2, 7⟩, c.isDedicated = true ∧
      c.path = across ∧
      (∀ lane ∈ across.lanes, c.KeepsShare dp.network lane) ∧
      ({ c with path := ⟨1, across.hops.reverse⟩ } : Channel Exact).dedicatedTarget dp.network
        = c.dedicatedTarget dp.network := by
  intro net across ops dp
  have hops : ∀ op ∈ ops, op.2.Asks fun bandwidth => Quantity.isFinite bandwidth = true := by
    rw [List.forall_mem_cons, List.forall_mem_singleton]
    exact ⟨rfl, rfl⟩
  have hreach : Reachable net .timeShared none dp := Reachable.create.run hops
  have hlive : ∃ c ∈ dp.channel? ⟨1, 2, 7⟩, c.isDedicated = true ∧ c.path = across := by
    decide +kernel
  have hlanes : ∀ lane ∈ across.lanes, Channel.Slowest dp.network across.lanes lane ∧
      (dp.network.shares lane).dedicatedCount = 2 := by decide +kernel
  obtain ⟨c, hc, hd, hpath⟩ := hlive
  obtain ⟨hshare, horder⟩ := equal_share_kept Topology.rack_constructed rfl hreach hc hd
  rw [hpath] at hshare horder
  obtain ⟨first, ⟨before, after, hsplit, _⟩, hfirst⟩ := hshare (List.cons_ne_nil _ _)
  have hmem : first ∈ across.lanes := hsplit ▸ List.mem_append_right before List.mem_cons_self
  refine ⟨hreach, c, hc, hd, hpath, fun lane hlane => ?_, ?_⟩
  · exact (hfirst lane (hlanes lane hlane).1
      (by rw [(hlanes lane hlane).2, (hlanes first hmem).2])).2
  · exact horder (fun a b ha hb => by rw [(hlanes a ha.mem).2, (hlanes b hb.mem).2]) _
      ((List.reverse_perm across.hops).map Hop.lane)

end DataPlane

namespace Topology

def trioNodes : Topology Exact :=
  ((((empty .tree).pushNode "left" .host 1000).pushNode "middle" .host 1000).pushNode "right" .host
    1000).pushNode "top" (.switch .edge) 1000

/-- Three hosts below a switch. -/
def trio : Topology Exact :=
  ((trioNodes.pushLink 3 0 0 1000 1000).pushLink 3 1 0 1000 1000).pushLink 3 2 0 1000 1000

end Topology

namespace DataPlane

/-- Two of three hosts send to the third. All links are equally slow and none is overbooked, so each
flow has the first link of its path for itself, and one of them gets most of the link that both
arrive by. -/
theorem trio_share_exceeded :
    let net : Network Exact := { Network.empty .tree with topology := Topology.trio }
    let dp := (DataPlane.create net .timeShared none).run
      [(0, .add ⟨1, 3, 7⟩ ⟨0, [⟨⟨3, .up⟩, 3⟩, ⟨⟨5, .down⟩, 2⟩]⟩ 900 .timeShared none),
        (0, .add ⟨2, 3, 8⟩ ⟨1, [⟨⟨4, .up⟩, 3⟩, ⟨⟨5, .down⟩, 2⟩]⟩ 100 .timeShared none)]
    ∃ c ∈ dp.channel? ⟨1, 3, 7⟩, c.isDedicated = true ∧ c.allocated = 900 ∧
      Channel.Slowest dp.network c.path.lanes ⟨5, .down⟩ ∧
        ¬ c.KeepsShare dp.network ⟨5, .down⟩ := by
  decide +kernel

end DataPlane

end FlowFabric
