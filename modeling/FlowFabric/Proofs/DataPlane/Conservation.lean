import FlowFabric.Proofs.DataPlane.Standards
import FlowFabric.Proofs.Quantity.Bandwidth

namespace FlowFabric

open Exact

def slack : ℚ := 1 / 10 ^ 9

theorem slack_pos : 0 < slack := by
  unfold slack
  positivity

/-- What an allocation can be when it is left within the tolerance of a target. -/
theorem le_of_close {target a : ℚ} (ht : 0 ≤ target) (h : |target - a| ≤ slack * (target ⊔ 1)) :
    a ≤ target * (1 + slack) + slack := by
  have hs := slack_pos
  have hmax : target ⊔ 1 ≤ target + 1 := sup_le (by linarith) (by linarith)
  have hslack : slack * (target ⊔ 1) ≤ slack * (target + 1) := mul_le_mul_of_nonneg_left hmax hs.le
  have hdist := (abs_le.mp h).1
  nlinarith

theorem sum_map_le_of_forall {α : Type} {l : List α} {f g : α → ℚ} {k e : ℚ}
    (h : ∀ x ∈ l, f x ≤ g x * k + e) : (l.map f).sum ≤ (l.map g).sum * k + l.length * e := by
  induction l with
  | nil => simp
  | cons x rest ih =>
    have hx := h x List.mem_cons_self
    have hrest := ih fun y hy => h y (List.mem_cons_of_mem _ hy)
    simp only [List.map_cons, List.sum_cons, List.length_cons, Nat.cast_add, Nat.cast_one]
    linarith

namespace Shares

/-- All that is asked for and given is finite and not negative. -/
def Sound (s : Shares Exact) : Prop := ∀ x ∈ s.values, x.requested.Nonneg ∧ x.allocated.Nonneg

/-- What is given to the channels of a lane is at most its capacity, up to the tolerance. -/
def Fits (s : Shares Exact) (capacity : Exact) : Prop :=
  s.allocatedDedicated ≤ capacity * (1 + 1e-9) + Quantity.ofNat s.size * 1e-9 ∧
    s.allocated ≤ capacity * (1 + 1e-9) + Quantity.ofNat s.size * 1e-9

def common (s : Shares Exact) : List (Share Exact) := s.values.filter fun x => !x.dedicated

def total (f : Share Exact → Exact) (l : List (Share Exact)) : ℚ := (l.map fun x => (f x).toRat).sum

variable {s : Shares Exact} {C : ℚ}

theorem total_nonneg {f : Share Exact → Exact} {l : List (Share Exact)}
    (h : ∀ x ∈ l, (f x).Nonneg) : 0 ≤ total f l := by
  apply List.sum_nonneg
  intro q hq
  obtain ⟨x, hx, rfl⟩ := List.mem_map.mp hq
  exact (h x hx).toRat_nonneg

theorem sum_eq_total {f : Share Exact → Exact} {l : List (Share Exact)}
    (h : ∀ x ∈ l, (f x).Nonneg) : Quantity.sum (l.map f) = fin (total f l) :=
  sum_map_fin f (fun x => (f x).toRat) fun x hx => (h x hx).eq_fin

theorem Sound.requested_dedicated (h : s.Sound) : ∀ x ∈ s.dedicated, x.requested.Nonneg :=
  fun x hx => (h x (List.mem_of_mem_filter hx)).1

theorem Sound.allocated_dedicated (h : s.Sound) : ∀ x ∈ s.dedicated, x.allocated.Nonneg :=
  fun x hx => (h x (List.mem_of_mem_filter hx)).2

theorem dedicatedCount_le_size (s : Shares Exact) : s.dedicatedCount ≤ s.size := by
  have hsize : s.values.length = s.size := List.length_map _
  rw [← hsize]
  exact List.length_filter_le _ _

theorem length_common (s : Shares Exact) : s.common.length = s.sharedCount := by
  have hcount := List.length_eq_length_filter_add (l := s.values) Share.dedicated
  have hsize : s.values.length = s.size := List.length_map _
  show s.common.length = s.size - s.dedicated.length
  unfold common dedicated
  omega

/-- The factor makes the dedicated requests fit. -/
theorem factor_fin (h : s.Sound) (hC : 0 ≤ C) :
    ∃ φ : ℚ, s.factor (fin C) = fin φ ∧ 0 ≤ φ ∧ total Share.requested s.dedicated * φ ≤ C := by
  have hreq : s.requestedDedicated = fin (total Share.requested s.dedicated) :=
    sum_eq_total h.requested_dedicated
  have hpos := total_nonneg h.requested_dedicated
  unfold factor
  rw [hreq]
  split
  · rename_i hlt
    rw [fin_lt_fin] at hlt
    have hne : total Share.requested s.dedicated ≠ 0 := by linarith
    refine ⟨C / total Share.requested s.dedicated, fin_div_fin hne, by positivity, ?_⟩
    rw [mul_div_cancel₀ _ hne]
  · rename_i hle
    rw [fin_lt_fin, not_lt] at hle
    exact ⟨1, rfl, zero_le_one, by rwa [mul_one]⟩

theorem free_fin (h : s.Sound) :
    s.free (fin C) = fin ((C - total Share.allocated s.dedicated) ⊔ 0) := by
  have halloc : s.allocatedDedicated = fin (total Share.allocated s.dedicated) :=
    sum_eq_total h.allocated_dedicated
  unfold free
  rw [halloc]
  simp only [fin_sub_fin, ofNat_eq_fin, fin_lt_fin, Nat.cast_zero]
  split
  · rename_i hlt
    rw [sup_eq_right.mpr hlt.le]
  · rename_i hle
    rw [sup_eq_left.mpr (not_lt.mp hle)]

/-- The equal parts of the channels of default flows add up to no more than what is free. -/
theorem perShared_fin (h : s.Sound) :
    ∃ p : ℚ, s.perShared (fin C) = fin p ∧ 0 ≤ p ∧
      s.sharedCount * p ≤ (C - total Share.allocated s.dedicated) ⊔ 0 := by
  unfold perShared
  rw [free_fin h]
  split
  · rename_i hzero
    exact ⟨_, rfl, le_sup_right, by rw [hzero]; simp⟩
  · rename_i hne
    have hcount : (0 : ℚ) < s.sharedCount := Nat.cast_pos.mpr (Nat.pos_of_ne_zero hne)
    refine ⟨_, ofNat_div_fin hne, div_nonneg le_sup_right hcount.le, ?_⟩
    rw [mul_div_cancel₀ _ hcount.ne']

theorem total_split (f : Share Exact → Exact) (s : Shares Exact) :
    total f s.values = total f s.dedicated + total f s.common := by
  unfold dedicated common
  induction s.values with
  | nil => simp [total]
  | cons x rest ih =>
    unfold total at ih ⊢
    cases hx : x.dedicated <;> simp only [List.map_cons, List.sum_cons, List.filter_cons, hx,
      Bool.not_false, Bool.not_true, if_true, Bool.false_eq_true, if_false] <;> linarith

/-- Dedicated channels that are close to their scaled requests, and other channels that are close to
their equal parts, fit the capacity. -/
theorem allocations_fit (h : s.Sound) (hC : 0 ≤ C)
    (hded : ∀ φ : ℚ, s.factor (fin C) = fin φ → ∀ x ∈ s.dedicated,
      x.allocated.toRat ≤ x.requested.toRat * φ * (1 + slack) + slack)
    (hcommon : ∀ p : ℚ, s.perShared (fin C) = fin p → ∀ x ∈ s.common,
      x.allocated.toRat ≤ p * (1 + slack) + slack) :
    total Share.allocated s.dedicated ≤ C * (1 + slack) + s.dedicatedCount * slack ∧
      total Share.allocated s.values ≤ C * (1 + slack) + s.size * slack := by
  obtain ⟨φ, hφ, hφ0, hfit⟩ := factor_fin h hC
  obtain ⟨p, hp, hp0, hparts⟩ := perShared_fin (C := C) h
  have hs := slack_pos
  -- Every dedicated channel is within its slack of a request that has been scaled to fit.
  have hd : total Share.allocated s.dedicated
      ≤ total Share.requested s.dedicated * (φ * (1 + slack)) + s.dedicatedCount * slack := by
    apply sum_map_le_of_forall
    intro x hx
    rw [← mul_assoc]
    exact hded φ hφ x hx
  have hdC : total Share.allocated s.dedicated ≤ C * (1 + slack) + s.dedicatedCount * slack := by
    have hscale := mul_le_mul_of_nonneg_right hfit (by linarith : 0 ≤ 1 + slack)
    rw [mul_assoc] at hscale
    linarith
  -- Every other channel is within its slack of an equal part of what is free.
  have hc : total Share.allocated s.common ≤ s.sharedCount * p * (1 + slack) +
      s.sharedCount * slack := by
    have hsum : total Share.allocated s.common
        ≤ (s.common.map fun _ => (1 : ℚ)).sum * (p * (1 + slack)) + s.common.length * slack := by
      apply sum_map_le_of_forall
      intro x hx
      rw [one_mul]
      exact hcommon p hp x hx
    have hones : (s.common.map fun _ => (1 : ℚ)).sum = s.sharedCount := by
      rw [← length_common, List.map_const', List.sum_replicate, nsmul_eq_mul, mul_one]
    rw [hones, length_common, ← mul_assoc] at hsum
    exact hsum
  refine ⟨hdC, ?_⟩
  have hcount : (s.size : ℚ) = s.dedicatedCount + s.sharedCount := by
    have hle := dedicatedCount_le_size s
    have hnat : s.size = s.dedicatedCount + s.sharedCount := by
      unfold sharedCount
      omega
    exact_mod_cast hnat
  have hded0 := total_nonneg h.allocated_dedicated
  rw [total_split, hcount]
  -- What dedicated channels have beyond the capacity is within their own slack, and then nothing is
  -- shared.
  rcases le_total (total Share.allocated s.dedicated) C with hle | hle
  · rw [sup_eq_left.mpr (by linarith)] at hparts
    nlinarith
  · rw [sup_eq_right.mpr (by linarith)] at hparts
    nlinarith

end Shares

namespace Network

def Sound (net : Network Exact) : Prop :=
  ∀ lane, (net.capacity lane).Nonneg ∧ (net.shares lane).Sound

variable {net : Network Exact}

/-- The factor of a lane is finite, and the dedicated requests scaled by it fit the capacity. -/
theorem Sound.factor (h : net.Sound) (lane : Lane) : (net.factor lane).Nonneg := by
  obtain ⟨C, hC, hC0⟩ := (h lane).1
  obtain ⟨φ, hφ, hφ0, _⟩ := Shares.factor_fin (h lane).2 hC0
  unfold Network.factor
  rw [hC, hφ]
  exact .fin hφ0

theorem Sound.perShared (h : net.Sound) (lane : Lane) : (net.perShared lane).Nonneg := by
  obtain ⟨C, hC, hC0⟩ := (h lane).1
  obtain ⟨p, hp, hp0, _⟩ := Shares.perShared_fin (C := C) (h lane).2
  unfold Network.perShared
  rw [hC, hp]
  exact .fin hp0

end Network

namespace Channel

variable {net : Network Exact} {c : Channel Exact}

/-- The scale of a path is at most the factor of each of its lanes. -/
theorem scale_nonneg (h : net.Sound) (lanes : List Lane) :
    ∃ m, scale net lanes = fin m ∧ 0 ≤ m ∧ ∀ lane ∈ lanes, m ≤ (net.factor lane).toRat := by
  have hfactors : ∀ x ∈ lanes.map net.factor, x.Nonneg := by
    intro x hx
    obtain ⟨lane, _, rfl⟩ := List.mem_map.mp hx
    exact h.factor lane
  obtain ⟨m, hm, hm0, _, hmin⟩ := foldl_min_nonneg hfactors zero_le_one
  exact ⟨m, hm, hm0, fun lane hlane => hmin _ (List.mem_map_of_mem hlane)⟩

theorem equalShare_nonneg (h : net.Sound) (lane : Lane) : (equalShare net lane).Nonneg :=
  (h lane).1.div_ofNat (Nat.ne_of_gt (Nat.lt_of_lt_of_le Nat.one_pos (Nat.le_max_right _ _)))

/-- The target of a dedicated channel is at most its request,
scaled by the factor of any of its lanes. -/
theorem dedicatedTarget_nonneg (h : net.Sound) (hr : c.requested.Nonneg) :
    (c.dedicatedTarget net).Nonneg ∧ ∀ lane ∈ c.path.lanes,
      (c.dedicatedTarget net).toRat ≤ c.requested.toRat * (net.factor lane).toRat := by
  obtain ⟨m, hm, hm0, hmin⟩ := scale_nonneg h c.path.lanes
  obtain ⟨r, hr, hr0⟩ := hr
  -- Whether there is a slowest lane or not, the target is at most the scaled request.
  have hbound : ∃ q, c.dedicatedTarget net = fin q ∧ 0 ≤ q ∧ q ≤ r * m := by
    unfold dedicatedTarget
    rw [hm, hr]
    dsimp only
    split
    · rename_i lane _
      obtain ⟨e, he, he0⟩ := equalShare_nonneg h lane
      rw [he, fin_mul_fin, min_fin]
      exact ⟨_, rfl, le_inf (mul_nonneg hr0 hm0) he0, inf_le_left⟩
    · exact ⟨_, min_posInf_right, mul_nonneg hr0 hm0, le_refl _⟩
  obtain ⟨q, hq, hq0, hqr⟩ := hbound
  rw [hq, hr]
  refine ⟨.fin hq0, fun lane hlane => ?_⟩
  calc q ≤ r * m := hqr
    _ ≤ r * (net.factor lane).toRat := mul_le_mul_of_nonneg_left (hmin lane hlane) hr0

/-- The target of a channel of a default flow is at most the equal part of any of its lanes. -/
theorem sharedTarget_nonneg (h : net.Sound) :
    (c.sharedTarget net).Nonneg ∧
      ∀ lane ∈ c.path.lanes, (c.sharedTarget net).toRat ≤ (net.perShared lane).toRat := by
  have hparts : ∀ x ∈ c.path.lanes.map net.perShared, x.Nonneg := by
    intro x hx
    obtain ⟨lane, _, rfl⟩ := List.mem_map.mp hx
    exact h.perShared lane
  unfold sharedTarget
  -- A path without hops has no lane to be fitted to.
  by_cases hne : c.path.lanes.map net.perShared = []
  · rw [hne]
    refine ⟨.fin (le_refl 0), fun lane hlane => ?_⟩
    rw [List.map_eq_nil_iff.mp hne] at hlane
    cases hlane
  · obtain ⟨m, hm, hm0, hmin⟩ := minimum_nonneg hparts hne
    rw [hm]
    exact ⟨.fin hm0, fun lane hlane => hmin _ (List.mem_map_of_mem hlane)⟩

theorem target_nonneg (h : net.Sound) (hr : c.requested.Nonneg) : (c.target net).Nonneg := by
  unfold target
  split
  · exact (dedicatedTarget_nonneg h hr).1
  · exact (sharedTarget_nonneg h).1

end Channel

theorem steady_of_nonneg {b : Exact} (h : b.Nonneg) : Steady b := by
  obtain ⟨q, rfl, _⟩ := h
  exact BandwidthLaws.close_self rfl

/-- A settled channel has what its target is, up to the tolerance. -/
theorem allocated_le_of_isSettledAt {c : Channel Exact} {b : Exact} (hb : b.Nonneg)
    (ha : c.allocated.Nonneg) (h : c.isSettledAt b = true) :
    c.allocated.toRat ≤ b.toRat * (1 + slack) + slack := by
  obtain ⟨q, rfl, hq⟩ := hb
  obtain ⟨a, ha, _⟩ := ha
  have hclose := of_decide_eq_true h
  rw [tolerance_eq, ofNat_eq_fin, ha, fin_sub_fin, abs_fin, max_fin, fin_mul_fin,
    fin_le_fin] at hclose
  rw [ha]
  exact le_of_close hq hclose

namespace DataPlane

/-- Lanes and channels agree, and all bandwidths are finite and not negative. -/
structure Sound (dp : DataPlane Exact) : Prop where
  registered : dp.Registered
  capacity : ∀ lane, (dp.network.capacity lane).Nonneg
  requested : ∀ k c, dp.channel? k = some c → c.requested.Nonneg
  allocated : ∀ k c, dp.channel? k = some c → c.allocated.Nonneg

/-- The requested bandwidth that an operation brings, if any, is finite and not negative. -/
def Operation.Sound : Operation Exact → Prop
  | .add _ _ requested _ _ => requested.Nonneg
  | .setRequested _ requested => requested.Nonneg
  | _ => True

namespace Sound

variable {dp : DataPlane Exact}

theorem network (h : dp.Sound) : dp.network.Sound := by
  intro lane
  refine ⟨h.capacity lane, fun x hx => ?_⟩
  obtain ⟨k, c, hc, _, rfl⟩ := h.registered.share_of_mem hx
  exact ⟨h.requested k c hc, h.allocated k c hc⟩

end Sound

/-- A sound plane on which every channel is at its target, up to the tolerance. -/
structure Settled (dp : DataPlane Exact) : Prop where
  sound : dp.Sound
  settled : ∀ k, dp.SettledAt k

/-- What a sound plane requires of bandwidths. -/
def nonneg : Standard Exact := .bandwidths Exact.Nonneg Exact.Nonneg Exact.Nonneg

theorem meets_nonneg_iff {dp : DataPlane Exact} : Meets nonneg dp ↔ dp.Sound :=
  ⟨fun h => ⟨h.registered, h.capacity, fun k c hc => (h.channel k c hc).requested,
      fun k c hc => (h.channel k c hc).allocated⟩,
    fun h => ⟨h.registered, h.capacity, fun k c hc =>
      ⟨trivial, h.requested k c hc, h.allocated k c hc, fun _ _ => trivial⟩⟩⟩

theorem rests_nonneg_iff {dp : DataPlane Exact} : Rests nonneg dp ↔ dp.Settled :=
  ⟨fun h => ⟨meets_nonneg_iff.mp h.toMeets, h.settled⟩,
    fun h => ⟨meets_nonneg_iff.mpr h.sound, h.settled⟩⟩

theorem attainable_nonneg : Attainable nonneg := by
  have htarget {dp : DataPlane Exact} {k : FlowKey} {c : Channel Exact} (h : Meets nonneg dp)
      (hc : dp.channel? k = some c) : (c.target dp.network).Nonneg :=
    Channel.target_nonneg (meets_nonneg_iff.mp h).network (h.channel k c hc).requested
  exact ⟨⟨.fin (le_refl 0), htarget, fun _ => trivial⟩, fun h hc => steady_of_nonneg (htarget h hc)⟩

namespace Settled

variable {dp : DataPlane Exact}

theorem perform (h : dp.Settled) (time : Exact) {op : Operation Exact} (hop : op.Sound) :
    (dp.perform time op).Settled := by
  have hasks : op.Asks Exact.Nonneg := by
    cases op <;> exact hop
  exact rests_nonneg_iff.mp (attainable_nonneg.perform (rests_nonneg_iff.mpr h) time hasks.brings)

theorem create {net : Network Exact} (ht : net.topology.Constructed)
    (hfresh : net.load = Table.empty) (discipline : Discipline) (timeout : Option Exact) :
    (DataPlane.create net discipline timeout).Settled := by
  have hadmitted (b : Exact) (hb : Topology.Admitted b) : b.Nonneg := by
    obtain ⟨hpos, hfinite⟩ := hb
    obtain ⟨q, rfl⟩ := eq_fin_of_isFinite hfinite
    exact .fin (fin_lt_fin.mp hpos).le
  have hcap (lane : Lane) : nonneg.capacity (net.capacity lane) :=
    ht.wellFormed.capacity_induction (.fin (le_refl 0)) hadmitted lane
  exact rests_nonneg_iff.mp (.create hcap hfresh discipline timeout)

/-- A channel that takes a lane has no more than the target that it has been settled at. -/
theorem allocated_le (h : dp.Settled) {k : FlowKey} {c : Channel Exact}
    (hc : dp.channel? k = some c) :
    c.allocated.toRat ≤ (c.target dp.network).toRat * (1 + slack) + slack :=
  allocated_le_of_isSettledAt (Channel.target_nonneg h.sound.network (h.sound.requested k c hc))
    (h.sound.allocated k c hc) (h.settled k c hc)

theorem allocated_le_of_dedicated (h : dp.Settled) {lane : Lane} {x : Share Exact}
    (hx : x ∈ (dp.network.shares lane).dedicated) {φ : ℚ} (hφ : dp.network.factor lane = fin φ) :
    x.allocated.toRat ≤ x.requested.toRat * φ * (1 + slack) + slack := by
  obtain ⟨hmem, hkind⟩ := List.mem_filter.mp hx
  obtain ⟨k, c, hc, hlane, rfl⟩ := h.sound.registered.share_of_mem hmem
  have htarget :=
    (Channel.dedicatedTarget_nonneg h.sound.network (h.sound.requested k c hc)).2 lane hlane
  rw [hφ, toRat_fin] at htarget
  have hle := h.allocated_le hc
  rw [show c.target dp.network = c.dedicatedTarget dp.network from if_pos hkind] at hle
  have hs := slack_pos
  calc c.allocated.toRat ≤ (c.dedicatedTarget dp.network).toRat * (1 + slack) + slack := hle
    _ ≤ c.requested.toRat * φ * (1 + slack) + slack := by
      have hscaled := mul_le_mul_of_nonneg_right htarget (by linarith : 0 ≤ 1 + slack)
      linarith

theorem allocated_le_of_common (h : dp.Settled) {lane : Lane} {x : Share Exact}
    (hx : x ∈ (dp.network.shares lane).common) {p : ℚ} (hp : dp.network.perShared lane = fin p) :
    x.allocated.toRat ≤ p * (1 + slack) + slack := by
  obtain ⟨hmem, hkind⟩ := List.mem_filter.mp hx
  obtain ⟨k, c, hc, hlane, rfl⟩ := h.sound.registered.share_of_mem hmem
  have htarget := (Channel.sharedTarget_nonneg (c := c) h.sound.network).2 lane hlane
  rw [hp, toRat_fin] at htarget
  have hle := h.allocated_le hc
  have hfalse : c.isDedicated = false := by simpa [Channel.share] using hkind
  rw [show c.target dp.network = c.sharedTarget dp.network from if_neg
    (by rw [hfalse]; exact Bool.false_ne_true)]
    at hle
  have hs := slack_pos
  calc c.allocated.toRat ≤ (c.sharedTarget dp.network).toRat * (1 + slack) + slack := hle
    _ ≤ p * (1 + slack) + slack := by
      have hscaled := mul_le_mul_of_nonneg_right htarget (by linarith : 0 ≤ 1 + slack)
      linarith

theorem fits (h : dp.Settled) (lane : Lane) :
    (dp.network.shares lane).Fits (dp.network.capacity lane) := by
  have hs : (dp.network.shares lane).Sound := (h.sound.network lane).2
  obtain ⟨C, hC, hC0⟩ := (h.sound.network lane).1
  have hslack := slack_pos
  obtain ⟨hd, ha⟩ : _ ∧ _ := by
    apply Shares.allocations_fit hs hC0
    · intro φ hφ x hx
      apply h.allocated_le_of_dedicated hx
      rw [Network.factor, hC, hφ]
    · intro p hp x hx
      apply h.allocated_le_of_common hx
      rw [Network.perShared, hC, hp]
  have hded : (dp.network.shares lane).allocatedDedicated = fin _ :=
    Shares.sum_eq_total hs.allocated_dedicated
  have hall : (dp.network.shares lane).allocated = fin _ :=
    Shares.sum_eq_total fun x hx => (hs x hx).2
  have htol : (1e-9 : Exact) = fin slack := tolerance_eq
  unfold Shares.Fits
  rw [hded, hall, hC, htol, ofNat_eq_fin, ofNat_fin, fin_add_fin, fin_mul_fin, fin_mul_fin,
    fin_add_fin, Nat.cast_one, fin_le_fin, fin_le_fin]
  refine ⟨hd.trans ?_, ha⟩
  have hcount : ((dp.network.shares lane).dedicatedCount : ℚ) ≤ (dp.network.shares lane).size :=
    Nat.cast_le.mpr (Shares.dedicatedCount_le_size _)
  have hscaled := mul_le_mul_of_nonneg_right hcount hslack.le
  linarith

end Settled

/-- On every lane, what dedicated channels are given and what all channels are given stays within
the capacity, up to what the tolerance of changes lets stand, after any operations on a plane that
started empty. -/
theorem bandwidth_conserved {net : Network Exact} (ht : net.topology.Constructed)
    (hfresh : net.load = Table.empty)
    (discipline : Discipline) (timeout : Option Exact) {ops : List (Exact × Operation Exact)}
    (hops : ∀ op ∈ ops, op.2.Sound) (lane : Lane) :
    let dp := (DataPlane.create net discipline timeout).run ops
    (dp.network.shares lane).Fits (dp.network.capacity lane) := by
  have hstart := Settled.create ht hfresh discipline timeout
  have hstep (dp : DataPlane Exact) (time : Exact) (op : Operation Exact) (hop : op.Sound)
      (h : dp.Settled) :
      (dp.perform time op).Settled := h.perform time hop
  exact (run_induction hstep ops hops hstart).fits lane

/-- Two flows that ask for more than a link has, and one that takes what is left. -/
theorem rack_bandwidth_conserved :
    let net : Network Exact := { Network.empty .tree with topology := Topology.rack }
    let across : Path := ⟨0, [⟨⟨2, .up⟩, 2⟩, ⟨⟨3, .down⟩, 1⟩]⟩
    let ops : List (Exact × Operation Exact) :=
      [(0, .add ⟨1, 2, 7⟩ across 800 .timeShared none),
        (1, .add ⟨1, 2, 8⟩ across 700 .timeShared none),
        (2, .add ⟨1, 2, -1⟩ across 0 .spaceShared none), (3, .setRequested ⟨1, 2, 8⟩ 100)]
    net.topology.Constructed ∧ net.load = Table.empty ∧ (∀ op ∈ ops, op.2.Sound) ∧
      let dp := (DataPlane.create net .timeShared none).run ops
      (dp.network.shares ⟨2, .up⟩).Fits (dp.network.capacity ⟨2, .up⟩) := by
  intro net across ops
  have hops : ∀ op ∈ ops, op.2.Sound := by
    have hn (n : Nat) : (Quantity.ofNat n : Exact).Nonneg := .fin n.cast_nonneg
    rw [List.forall_mem_cons, List.forall_mem_cons, List.forall_mem_cons, List.forall_mem_singleton]
    exact ⟨hn 800, hn 700, hn 0, hn 100⟩
  exact ⟨Topology.rack_constructed, rfl, hops,
    bandwidth_conserved Topology.rack_constructed rfl .timeShared none hops ⟨2, .up⟩⟩

end DataPlane

end FlowFabric
