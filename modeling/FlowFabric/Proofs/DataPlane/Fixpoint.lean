import FlowFabric.Proofs.DataPlane.Standards
import FlowFabric.Proofs.Quantity.Bandwidth

/-! What a pass gives to a channel depends on what the pass found, not on the channels that it
visited before, so that the order in which channels are registered makes no difference. -/

namespace FlowFabric

variable {R : Type} [Quantity R]

open Quantity (isFinite)

namespace Shares

variable [BandwidthLaws R]

theorem factor_mem_unit (s : Shares R) {capacity : R} (h : 0 ≤ capacity) :
    0 ≤ s.factor capacity ∧ s.factor capacity ≤ 1 := by
  unfold factor
  split
  · rename_i hlt
    exact BandwidthLaws.fraction h hlt
  · exact ⟨BandwidthLaws.zero_le_one, BandwidthLaws.le_self_of_finite BandwidthLaws.finite_one⟩

end Shares

namespace Channel

variable {net net' : Network R}

/-- Targets are read off what is asked of the lanes and what dedicated channels were given. -/
theorem target_congr (h : net.SameSupply net') (c : Channel R) : c.target net' = c.target net := by
  unfold target
  split
  · exact dedicatedTarget_congr h.toSameDemand rfl rfl
  · exact sharedTarget_congr h rfl

theorem setAllocated_changed (c : Channel R) (net : Network R) (bandwidth time : R) :
    (c.setAllocated net bandwidth time).1 = !c.isSettledAt bandwidth := by
  unfold setAllocated
  split
  · rename_i h
    rw [h]
    rfl
  · rename_i h
    rw [Bool.not_eq_true] at h
    rw [h]
    rfl

theorem setAllocated_of_isSettledAt {c : Channel R} {bandwidth : R}
    (h : c.isSettledAt bandwidth = true) (net : Network R) (time : R) :
    c.setAllocated net bandwidth time = (false, c, net) :=
  if_pos h

/-- What becomes of the channel itself does not depend on the lanes. -/
theorem setAllocated_channel (c : Channel R) (net net' : Network R) (bandwidth time : R) :
    (c.setAllocated net bandwidth time).2.1 = (c.setAllocated net' bandwidth time).2.1 := by
  unfold setAllocated
  split <;> rfl

section Finite

variable [BandwidthLaws R] (hcap : ∀ lane, isFinite (net.capacity lane) = true ∧
  0 ≤ net.capacity lane)

include hcap

theorem scale_mem_unit (lanes : List Lane) : 0 ≤ scale net lanes ∧ scale net lanes ≤ 1 := by
  have hone := BandwidthLaws.le_self_of_finite (R := R) BandwidthLaws.finite_one
  refine Quantity.foldl_min_induction (P := fun x => 0 ≤ x ∧ x ≤ 1) ?_
    ⟨BandwidthLaws.zero_le_one, hone⟩
  intro x hx
  obtain ⟨lane, _, rfl⟩ := List.mem_map.mp hx
  exact (net.shares lane).factor_mem_unit (hcap lane).2

theorem finite_equalShare (lane : Lane) : isFinite (equalShare net lane) = true := by
  have hcount : Nat.max (net.shares lane).dedicatedCount 1 ≠ 0 := by
    have hle := Nat.le_max_right (net.shares lane).dedicatedCount 1
    exact Nat.ne_of_gt hle
  exact BandwidthLaws.finite_div_ofNat (hcap lane).1 hcount

theorem finite_dedicatedTarget {c : Channel R} (hr : isFinite c.requested = true) :
    isFinite (c.dedicatedTarget net) = true := by
  obtain ⟨hlow, hhigh⟩ := scale_mem_unit hcap c.path.lanes
  have hscaled := BandwidthLaws.finite_mul hr hlow hhigh
  unfold dedicatedTarget
  dsimp only
  split
  · rename_i lane _
    exact Quantity.min_induction (P := fun b => isFinite b = true) hscaled
      (finite_equalShare hcap lane)
  -- A path without hops has no slowest lane, and its channel gets all that it asks for.
  · unfold Quantity.min
    rw [if_pos (BandwidthLaws.lt_infinity hscaled)]
    exact hscaled

omit hcap in
theorem finite_sharedTarget (c : Channel R) (net : Network R) :
    isFinite (c.sharedTarget net) = true := by
  unfold sharedTarget
  dsimp only
  split
  · assumption
  · exact BandwidthLaws.finite_zero

theorem finite_target {c : Channel R} (hr : isFinite c.requested = true) :
    isFinite (c.target net) = true := by
  unfold target
  split
  · exact finite_dedicatedTarget hcap hr
  · exact finite_sharedTarget c net

end Finite

end Channel

namespace DataPlane

/-- Capacities are finite and not negative, and what is asked for is finite. -/
def finite : Standard R :=
  .bandwidths (fun bandwidth => isFinite bandwidth = true ∧ 0 ≤ bandwidth)
    (fun bandwidth => isFinite bandwidth = true) fun _ => True

theorem attainable_finite [BandwidthLaws R] : Attainable (finite (R := R)) where
  zero := trivial
  target _ _ := trivial
  unfinished _ := trivial
  steady h hc :=
    BandwidthLaws.close_self (Channel.finite_target h.capacity (h.channel _ _ hc).requested)

theorem changed_adjustEach_cons (time : R) (key : FlowKey) (rest : List FlowKey)
    (dp : DataPlane R) : (adjustEach time (key :: rest) dp).1 =
      ((dp.adjust key time).1 || (adjustEach time rest (dp.adjust key time).2).1) :=
  rfl

section Fixpoint

variable {dp : DataPlane R}

theorem adjust_of_settledAt (hreg : dp.Registered) {key : FlowKey} (h : dp.SettledAt key)
    (time : R) : dp.adjust key time = (false, dp) := by
  cases hc : dp.channel? key with
  | none => exact adjust_eq_of_none hc time
  | some c =>
    have hsame := Channel.setAllocated_of_isSettledAt (h c hc) dp.network time
    have hback : dp.replace c dp.network = dp := by
      unfold replace
      rw [hreg.key key c hc, Table.insert_of_get? hc]
    rw [adjust_eq_of_some hc, hsame, hback]

theorem adjustEach_of_settled (hreg : dp.Registered) (h : ∀ k, dp.SettledAt k) (time : R)
    (keys : List FlowKey) : adjustEach time keys dp = (false, dp) := by
  induction keys with
  | nil => rfl
  | cons key rest ih =>
    have hfirst := adjust_of_settledAt hreg (h key) time
    unfold adjustEach
    rw [hfirst]
    dsimp only
    rw [ih]
    rfl

theorem Rests.settle_eq {s : Standard R} (h : Rests s dp) (time : R) :
    dp.settle time = (false, dp) :=
  adjustEach_of_settled h.registered h.settled time dp.settlingOrder

end Fixpoint

/-- The states that operations reach from an empty plane, if all that is asked for is finite. A
channel that is added is a new one or one that was removed before, with what it holds. -/
inductive Reachable (net : Network R) (discipline : Discipline) (timeout : Option R) :
    DataPlane R → Prop where
  | create : Reachable net discipline timeout (create net discipline timeout)
  | perform {dp : DataPlane R} (time : R) {op : Operation R}
      (hop : op.Asks fun bandwidth => isFinite bandwidth = true)
      (h : Reachable net discipline timeout dp) : Reachable net discipline timeout
        (dp.perform time op)
  | add {dp : DataPlane R} (time : R) {c : Channel R} (hb : c.queue.bandwidth = c.allocated)
      (hr : isFinite c.requested = true) (h : Reachable net discipline timeout dp) :
      Reachable net discipline timeout (dp.add c time)

theorem Reachable.run {net : Network R} {discipline : Discipline} {timeout : Option R}
    {dp : DataPlane R} (h : Reachable net discipline timeout dp) {ops : List (R × Operation R)}
    (hops : ∀ op ∈ ops, op.2.Asks fun bandwidth => isFinite bandwidth = true) :
    Reachable net discipline timeout (dp.run ops) :=
  run_induction (fun _ time _ hop hdp => hdp.perform time hop) ops hops h

/-- The lanes of a topology that was built,
and those that it does not have, have a finite capacity. -/
theorem finite_capacity [BandwidthLaws R] {net : Network R} (ht : net.topology.Constructed)
    (lane : Lane) : finite.capacity (net.capacity lane) := by
  have hadmitted (b : R) (hb : Topology.Admitted b) : isFinite b = true ∧ 0 ≤ b :=
    ⟨hb.2, BandwidthLaws.le_of_lt hb.1⟩
  have hzero : isFinite (0 : R) = true ∧ (0 : R) ≤ 0 :=
    ⟨BandwidthLaws.finite_zero, BandwidthLaws.le_self_of_finite BandwidthLaws.finite_zero⟩
  exact ht.wellFormed.capacity_induction hzero hadmitted lane

theorem Reachable.rests [BandwidthLaws R] {net : Network R} (ht : net.topology.Constructed)
    (hfresh : net.load = Table.empty) {discipline : Discipline} {timeout : Option R}
    {dp : DataPlane R} (h : Reachable net discipline timeout dp) : Rests finite dp := by
  induction h with
  | create => exact Rests.create (finite_capacity ht) hfresh discipline timeout
  | perform time hop _ ih => exact attainable_finite.perform ih time hop.brings
  | add time hb hr _ ih =>
    exact attainable_finite.add ih hb ⟨trivial, hr, trivial, fun _ _ => trivial⟩ time

/-- Channels are registered under their own keys,
and lanes label a share as dedicated if the flow is. -/
structure Labelled (dp : DataPlane R) : Prop where
  key : ∀ k c, dp.channel? k = some c → c.key = k
  label : ∀ lane k x, (dp.network.shares lane).get? k = some x → x.dedicated = k.isDedicated

/-- Two planes with the same channels and the same shares on every lane,
whatever the order in which channels are registered. -/
structure Alike (dp dp' : DataPlane R) : Prop where
  topology : dp'.network.topology = dp.network.topology
  shares : ∀ lane, dp'.network.shares lane = dp.network.shares lane
  channel : ∀ k, dp'.channel? k = dp.channel? k

namespace Alike

variable {dp dp' dp'' : DataPlane R}

omit [Quantity R] in
theorem refl (dp : DataPlane R) : dp.Alike dp := ⟨rfl, fun _ => rfl, fun _ => rfl⟩

omit [Quantity R] in
theorem trans (h : dp.Alike dp') (h' : dp'.Alike dp'') : dp.Alike dp'' where
  topology := h'.topology.trans h.topology
  shares lane := (h'.shares lane).trans (h.shares lane)
  channel k := (h'.channel k).trans (h.channel k)

omit [Quantity R] in
theorem sameSupply (h : dp.Alike dp') : dp.network.SameSupply dp'.network where
  topology := h.topology
  demand lane := by rw [h.shares]
  dedicated lane := by rw [h.shares]

/-- Like planes are adjusted alike. -/
theorem adjust (h : dp.Alike dp') (key : FlowKey) (time : R) :
    (dp'.adjust key time).1 = (dp.adjust key time).1 ∧
      (dp.adjust key time).2.Alike (dp'.adjust key time).2 := by
  have hlive := h.channel key
  cases hc : dp.channel? key with
  | none =>
    rw [hc] at hlive
    rw [adjust_eq_of_none hc, adjust_eq_of_none hlive]
    exact ⟨rfl, h⟩
  | some c =>
    rw [hc] at hlive
    have htarget := Channel.target_congr h.sameSupply c
    have hchannel :=
      Channel.setAllocated_channel c dp.network dp'.network (c.target dp.network) time
    rw [adjust_eq_of_some hc, adjust_eq_of_some hlive, htarget]
    refine ⟨?_, ?_, ?_, ?_⟩
    · dsimp only
      rw [Channel.setAllocated_changed, Channel.setAllocated_changed]
    · have ht := (Channel.sameDemand_setAllocated c dp.network (c.target dp.network) time).topology
      have ht' :=
        (Channel.sameDemand_setAllocated c dp'.network (c.target dp.network) time).topology
      exact ht'.trans (h.topology.trans ht.symm)
    · intro lane
      show (c.setAllocated dp'.network (c.target dp.network) time).2.2.shares lane = _
      rw [Channel.shares_setAllocated, h.shares, ← Channel.shares_setAllocated c dp.network _ time]
      rfl
    · intro k
      dsimp only
      rw [← hchannel]
      by_cases hk : k = (c.setAllocated dp.network (c.target dp.network) time).2.1.key
      · rw [hk, channel?_replace_self, channel?_replace_self]
      · rw [channel?_replace_of_ne _ hk, channel?_replace_of_ne _ hk, h.channel]

theorem adjustEach (h : dp.Alike dp') (time : R) (keys : List FlowKey) :
    (DataPlane.adjustEach time keys dp').1 = (DataPlane.adjustEach time keys dp).1 ∧
      (DataPlane.adjustEach time keys dp).2.Alike (DataPlane.adjustEach time keys dp').2 := by
  induction keys generalizing dp dp' with
  | nil => exact ⟨rfl, h⟩
  | cons key rest ih =>
    obtain ⟨hfirst, hstep⟩ := h.adjust key time
    obtain ⟨hrest, hend⟩ := ih hstep
    refine ⟨?_, hend⟩
    rw [changed_adjustEach_cons, changed_adjustEach_cons, hfirst, hrest]

end Alike

namespace Labelled

variable {dp : DataPlane R}

theorem of_registered (h : dp.Registered) : dp.Labelled where
  key := h.key
  label lane k x hx := by
    obtain ⟨c, hc, _, rfl⟩ := h.share_of_get? hx
    show c.key.isDedicated = k.isDedicated
    rw [h.key k c hc]

omit [Quantity R] in
theorem common (h : dp.Labelled) {key : FlowKey} {c : Channel R} (hc : dp.channel? key = some c)
    (hkey : key.isDedicated = false) (lane : Lane) (x : Share R)
    (hx : (dp.network.shares lane).get? c.key = some x) : x.dedicated = false := by
  rw [h.label lane c.key x hx, h.key key c hc, hkey]

theorem adjust (h : dp.Labelled) (key : FlowKey) (time : R) : (dp.adjust key time).2.Labelled := by
  cases hc : dp.channel? key with
  | none => rwa [adjust_of_none hc]
  | some c =>
    have hkey := (Channel.setAllocated_same c dp.network (c.target dp.network) time).1
    rw [adjust_of_some hc]
    refine ⟨?_, ?_⟩
    · intro k d hd
      rcases live_of_replace hd with ⟨hk, rfl⟩ | ⟨_, hd'⟩
      · exact hk.symm
      · exact h.key k d hd'
    · intro lane k x hx
      have hshares := Channel.shares_setAllocated c dp.network (c.target dp.network) time lane
      have hx' : ((c.setAllocated dp.network (c.target dp.network) time).2.2.shares lane).get? k
          = some x := hx
      rw [hshares] at hx'
      split at hx'
      -- Only the allocation in the share changes, not its label.
      · by_cases hk : k = c.key
        · rw [hk, Table.get?_modify_self, Option.map_eq_some_iff] at hx'
          obtain ⟨y, hy, rfl⟩ := hx'
          rw [hk]
          exact h.label lane c.key y hy
        · rw [Table.get?_modify_of_ne _ hk] at hx'
          exact h.label lane k x hx'
      · exact h.label lane k x hx'

theorem adjustEach (h : dp.Labelled) (time : R) (keys : List FlowKey) :
    (DataPlane.adjustEach time keys dp).2.Labelled := by
  induction keys generalizing dp with
  | nil => exact h
  | cons key rest ih => exact ih (h.adjust key time)

/-- The targets of a kind of channels do not depend on what one of them is given. -/
theorem target_adjust (h : dp.Labelled) {key other : FlowKey}
    (hkind : key.isDedicated = other.isDedicated) {d : Channel R}
    (hd : dp.channel? other = some d) (time : R) :
    d.target (dp.adjust key time).2.network = d.target dp.network := by
  cases hc : dp.channel? key with
  | none => rw [adjust_of_none hc]
  | some c =>
    have hdk : d.isDedicated = key.isDedicated := by
      unfold Channel.isDedicated
      rw [h.key other d hd, hkind]
    rw [adjust_of_some hc]
    show d.target (c.setAllocated dp.network (c.target dp.network) time).2.2 = _
    unfold Channel.target
    rw [hdk]
    cases hk : key.isDedicated with
    | true =>
      exact Channel.dedicatedTarget_congr (Channel.sameDemand_setAllocated c _ _ time) rfl rfl
    | false =>
      exact Channel.sharedTarget_congr (Channel.sameSupply_setAllocated (h.common hc hk) _ time) rfl

/-- One after the other, two channels of a kind are given the same in either order. -/
theorem adjust_comm (h : dp.Labelled) {a b : FlowKey} (hne : a ≠ b)
    (hkind : a.isDedicated = b.isDedicated) (time : R) :
    ((dp.adjust a time).2.adjust b time).1 = (dp.adjust b time).1 ∧
      ((dp.adjust a time).2.adjust b time).2.Alike ((dp.adjust b time).2.adjust a time).2 := by
  have hb := channel?_adjust_of_ne h.key hne.symm time
  have ha := channel?_adjust_of_ne h.key hne time
  cases hca : dp.channel? a with
  | none =>
    rw [hca] at ha
    rw [adjust_eq_of_none hca, adjust_eq_of_none ha]
    exact ⟨rfl, .refl _⟩
  | some c =>
    cases hcb : dp.channel? b with
    | none =>
      rw [hcb] at hb
      rw [adjust_eq_of_none hb, adjust_eq_of_none hcb]
      exact ⟨rfl, .refl _⟩
    | some d =>
      rw [hca] at ha
      rw [hcb] at hb
      have hta := h.target_adjust hkind.symm hca time
      have htb := h.target_adjust hkind hcb time
      have hac := h.key a c hca
      have hbd := h.key b d hcb
      rw [adjust_eq_of_some hb, adjust_eq_of_some ha, hta, htb, adjust_eq_of_some hca,
        adjust_eq_of_some hcb]
      generalize c.target dp.network = x
      generalize d.target dp.network = y
      dsimp only
      refine ⟨?_, ?_, ?_, ?_⟩
      · rw [Channel.setAllocated_changed, Channel.setAllocated_changed]
      · have htop (e : Channel R) (net : Network R) (bandwidth : R) :
            (e.setAllocated net bandwidth time).2.2.topology = net.topology :=
          (Channel.sameDemand_setAllocated e net bandwidth time).topology
        show (c.setAllocated (d.setAllocated dp.network y time).2.2 x time).2.2.topology =
          (d.setAllocated (c.setAllocated dp.network x time).2.2 y time).2.2.topology
        rw [htop, htop, htop, htop]
      · intro lane
        show (c.setAllocated (d.setAllocated dp.network y time).2.2 x time).2.2.shares lane =
          (d.setAllocated (c.setAllocated dp.network x time).2.2 y time).2.2.shares lane
        rw [Channel.shares_setAllocated, Channel.shares_setAllocated, Channel.shares_setAllocated,
          Channel.shares_setAllocated]
        have hkeys : c.key ≠ d.key := by rwa [hac, hbd]
        split <;> split
        · exact (Table.modify_modify_of_ne hkeys _ _ _).symm
        · rfl
        · rfl
        · rfl
      · intro k
        -- What becomes of either channel does not depend on which of them comes first.
        obtain ⟨c', hc'⟩ : ∃ c', ∀ net, (c.setAllocated net x time).2.1 = c' :=
          ⟨_, fun net => c.setAllocated_channel net dp.network x time⟩
        obtain ⟨d', hd'⟩ : ∃ d', ∀ net, (d.setAllocated net y time).2.1 = d' :=
          ⟨_, fun net => d.setAllocated_channel net dp.network y time⟩
        have hkc : c'.key = a := by
          rw [← hc' dp.network, (Channel.setAllocated_same c dp.network x time).1, hac]
        have hkd : d'.key = b := by
          rw [← hd' dp.network, (Channel.setAllocated_same d dp.network y time).1, hbd]
        simp only [hc', hd', channel?_replace, hkc, hkd]
        by_cases hka : k = a
        · have hkb : k ≠ b := fun hkb => hne (hka.symm.trans hkb)
          rw [if_pos hka, if_neg hkb, if_pos hka]
        · rw [if_neg hka, if_neg hka]

end Labelled

/-- Channels of one kind can be adjusted in any order. -/
theorem adjustEach_perm (time : R) (kind : Bool) {keys keys' : List FlowKey}
    (hp : keys.Perm keys') (hkind : ∀ k ∈ keys, k.isDedicated = kind) (hnd : keys.Nodup)
    {dp dp' : DataPlane R} (hl : dp.Labelled) (h : dp.Alike dp') :
    (adjustEach time keys' dp').1 = (adjustEach time keys dp).1 ∧
      (adjustEach time keys dp).2.Alike (adjustEach time keys' dp').2 := by
  induction hp generalizing dp dp' with
  | nil => exact ⟨rfl, h⟩
  | cons key _ ih =>
    obtain ⟨hfirst, hstep⟩ := h.adjust key time
    have hkind' := fun k hk => hkind k (List.mem_cons_of_mem _ hk)
    obtain ⟨hrest, hend⟩ := ih hkind' (List.nodup_cons.mp hnd).2 (hl.adjust key time) hstep
    refine ⟨?_, hend⟩
    rw [changed_adjustEach_cons, changed_adjustEach_cons, hfirst, hrest]
  | swap a b rest =>
    have hne : b ≠ a := fun hba => (List.nodup_cons.mp hnd).1 (hba ▸ List.mem_cons_self)
    have ha : a.isDedicated = kind := hkind a (List.mem_cons_of_mem _ List.mem_cons_self)
    have hb : b.isDedicated = kind := hkind b List.mem_cons_self
    have hab := hb.trans ha.symm
    -- The first two channels are exchanged in the first plane, and the planes are then alike for
    -- good.
    obtain ⟨hsecond, hswap⟩ := hl.adjust_comm hne hab time
    obtain ⟨hsecond', -⟩ := hl.adjust_comm hne.symm hab.symm time
    obtain ⟨hfirst, hone⟩ := h.adjust a time
    obtain ⟨hnext, htwo⟩ := hone.adjust b time
    obtain ⟨hrest, hend⟩ := (hswap.trans htwo).adjustEach time rest
    refine ⟨?_, hend⟩
    simp only [changed_adjustEach_cons]
    rw [hrest, hfirst, hnext, hsecond, hsecond', ← Bool.or_assoc, ← Bool.or_assoc,
      Bool.or_comm (dp.adjust a time).1]
  | trans hp₁ _ ih₁ ih₂ =>
    obtain ⟨hflag₁, halike₁⟩ := ih₁ hkind hnd hl (.refl dp)
    have hkind₂ := fun k hk => hkind k (hp₁.mem_iff.mpr hk)
    obtain ⟨hflag₂, halike₂⟩ := ih₂ hkind₂ (hp₁.nodup_iff.mp hnd) hl h
    exact ⟨hflag₂.trans hflag₁, halike₁.trans halike₂⟩

theorem changed_adjustEach_append (time : R) (keys more : List FlowKey) (dp : DataPlane R) :
    (adjustEach time (keys ++ more) dp).1 = ((adjustEach time keys dp).1 ||
      (adjustEach time more (adjustEach time keys dp).2).1) := by
  induction keys generalizing dp with
  | nil => rfl
  | cons key rest ih =>
    rw [List.cons_append, changed_adjustEach_cons, ih, changed_adjustEach_cons, Bool.or_assoc]
    rfl

/-- A plane whose channels are registered in another order is settled alike. -/
theorem Labelled.settle_perm {dp : DataPlane R} (h : dp.Labelled)
    {channels : Table FlowKey (Channel R)} (hp : channels.entries.Perm dp.channels.entries)
    (time : R) :
    (({ dp with channels } : DataPlane R).settle time).1 = (dp.settle time).1 ∧
      (dp.settle time).2.Alike (({ dp with channels } : DataPlane R).settle time).2 := by
  let other : DataPlane R := { dp with channels }
  have hlive (k : FlowKey) : other.channel? k = dp.channel? k := by
    apply Option.ext
    intro c
    show channels.get? k = some c ↔ dp.channels.get? k = some c
    rw [Table.get?_eq_some_iff, Table.get?_eq_some_iff]
    exact hp.mem_iff
  have halike : dp.Alike other := ⟨rfl, fun _ => rfl, hlive⟩
  have hkeys : dp.channels.keys.Perm channels.keys := (hp.map Prod.fst).symm
  have hnd : dp.channels.keys.Nodup := dp.channels.keys_nodup
  -- Both passes go over the same channels of one kind.
  obtain ⟨hfirst, hmid⟩ := adjustEach_perm time true (hkeys.filter FlowKey.isDedicated)
    (fun k hk => (List.mem_filter.mp hk).2) (hnd.filter _) h halike
  obtain ⟨hsecond, hend⟩ := adjustEach_perm time false (hkeys.filter fun key => !key.isDedicated)
    (fun k hk => by simpa using (List.mem_filter.mp hk).2) (hnd.filter _)
    (h.adjustEach time (dp.channels.keys.filter FlowKey.isDedicated)) hmid
  unfold settle settlingOrder
  rw [changed_adjustEach_append, changed_adjustEach_append, adjustEach_append, adjustEach_append]
  refine ⟨?_, hend⟩
  rw [hfirst, hsecond]

/-- After any operations on a plane that started empty, every channel has the bandwidth that the
other ones leave it, up to the tolerance, and settling changes nothing. What settling makes of any
plane does not depend on the order in which its channels are registered. -/
theorem settle_reaches_fixpoint [BandwidthLaws R] :
    (∀ (net : Network R) (discipline : Discipline) (timeout : Option R) (dp : DataPlane R),
      net.topology.Constructed → net.load = Table.empty →
      Reachable net discipline timeout dp →
        (∀ k, dp.SettledAt k) ∧ ∀ time, dp.settle time = (false, dp)) ∧
    ∀ (dp : DataPlane R) (channels : Table FlowKey (Channel R)), dp.Labelled →
      channels.entries.Perm dp.channels.entries → ∀ time,
        let other : DataPlane R := { dp with channels }
        (other.settle time).1 = (dp.settle time).1 ∧
          (dp.settle time).2.Alike (other.settle time).2 := by
  refine ⟨?_, ?_⟩
  · intro net discipline timeout dp ht hfresh h
    have hrests := h.rests ht hfresh
    exact ⟨hrests.settled, fun time => hrests.settle_eq time⟩
  · intro dp channels h hp time
    exact h.settle_perm hp time

/-- Two dedicated channels that ask for more than a link has and one of a default flow are settled,
and are settled alike if they are registered the other way round. -/
theorem rack_settle_reaches_fixpoint :
    let net : Network Exact := { Network.empty .tree with topology := Topology.rack }
    let across : Path := ⟨0, [⟨⟨2, .up⟩, 2⟩, ⟨⟨3, .down⟩, 1⟩]⟩
    let ops : List (Exact × Operation Exact) :=
      [(0, .add ⟨1, 2, 7⟩ across 800 .timeShared none),
        (1, .add ⟨1, 2, -1⟩ across 0 .spaceShared none),
        (2, .add ⟨1, 2, 8⟩ across 700 .timeShared none)]
    let dp := (DataPlane.create net .timeShared none).run ops
    let other : DataPlane Exact := { dp with
      channels := ⟨dp.channels.entries.reverse, by
        rw [List.map_reverse]
        exact List.nodup_reverse.mpr dp.channels.keys_nodup⟩ }
    Reachable net .timeShared none dp ∧ (∀ k, dp.SettledAt k) ∧ dp.settle 3 = (false, dp) ∧
      dp.Labelled ∧
      (other.settle 3).1 = (dp.settle 3).1 ∧ (dp.settle 3).2.Alike (other.settle 3).2 := by
  intro net across ops dp other
  have hops : ∀ op ∈ ops, op.2.Asks fun bandwidth => isFinite bandwidth = true := by
    rw [List.forall_mem_cons, List.forall_mem_cons, List.forall_mem_singleton]
    exact ⟨rfl, rfl, rfl⟩
  have hreach : Reachable net .timeShared none dp := Reachable.create.run hops
  have hlabel : dp.Labelled := .of_registered ((Registered.create rfl .timeShared none).run ops)
  obtain ⟨hsettled, hsame⟩ :=
    settle_reaches_fixpoint.1 net .timeShared none dp Topology.rack_constructed rfl hreach
  refine ⟨hreach, hsettled, hsame 3, hlabel, ?_⟩
  exact settle_reaches_fixpoint.2 dp _ hlabel (List.reverse_perm _) 3

end DataPlane

end FlowFabric
