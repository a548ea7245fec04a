import FlowFabric.Proofs.DataPlane.Fixpoint
import FlowFabric.Proofs.DataPlane.Traffic
import FlowFabric.Proofs.Queue.Predictions

namespace FlowFabric

namespace DataPlane

open Quantity (isFinite)
open Exact (fin posInf Definite)

/-- Capacities and what is asked for are finite, and every queue is timely. -/
structure Timely (dp : DataPlane Exact) : Prop where
  meets : Meets finite dp
  queue : ∀ k c, dp.channel? k = some c → c.queue.Timely
  timeout : ∀ x, dp.defaultTimeout = some x → x.Definite

namespace Timely

variable {dp : DataPlane Exact} {a : ℚ}

theorem create {net : Network Exact}
    (hcap : ∀ lane, isFinite (net.capacity lane) = true ∧ 0 ≤ net.capacity lane)
    (hfresh : net.load = Table.empty) (discipline : Discipline) {timeout : Option Exact}
    (ht : ∀ x, timeout = some x → x.Definite) :
    (DataPlane.create net discipline timeout).Timely where
  meets := .create hcap hfresh discipline timeout
  queue k c hc := by cases hc
  timeout := ht

theorem replace (h : dp.Timely) {c : Channel Exact} {net : Network Exact}
    (hmeets : Meets finite (dp.replace c net)) (hq : c.queue.Timely) :
    (dp.replace c net).Timely where
  meets := hmeets
  queue k d hd := by
    rcases live_of_replace hd with ⟨-, rfl⟩ | ⟨-, hd'⟩
    · exact hq
    · exact h.queue k d hd'
  timeout := h.timeout

theorem adjust (h : dp.Timely) (key : FlowKey) (a : ℚ) : (dp.adjust key (fin a)).2.Timely := by
  have hmeets := attainable_finite.toSustained.adjust h.meets key (fin a)
  cases hc : dp.channel? key with
  | none => rwa [adjust_of_none hc]
  | some c =>
    rw [adjust_of_some hc] at hmeets ⊢
    refine h.replace hmeets ?_
    unfold Channel.setAllocated
    split
    · exact h.queue key c hc
    · have hrequested := (h.meets.channel key c hc).requested
      exact ((h.queue key c hc).advance a).setBandwidth
        (Channel.finite_target h.meets.capacity hrequested)

theorem settle (h : dp.Timely) (a : ℚ) : (dp.settle (fin a)).2.Timely := by
  have heach (keys : List FlowKey) {dp : DataPlane Exact} (h : dp.Timely) :
      (adjustEach (fin a) keys dp).2.Timely := by
    induction keys generalizing dp with
    | nil => exact h
    | cons key rest ih => exact ih (h.adjust key a)
  exact heach dp.settlingOrder h

theorem flush (h : dp.Timely) (a : ℚ) : (dp.flush (fin a)).Timely where
  meets := attainable_finite.toSustained.flush h.meets (fin a)
  queue k c hc := by
    obtain ⟨d, hd, rfl⟩ := live_of_mapQueues hc
    exact ((h.queue k d hd).advance a).collect
  timeout := h.timeout

theorem discardAll (h : dp.Timely) (keys : List FlowKey) : (keys.foldl discard dp).Timely := by
  induction keys generalizing dp with
  | nil => exact h
  | cons key rest ih =>
    refine ih ⟨h.meets.discard key, fun k c hc => h.queue k c (live_of_discard hc), ?_⟩
    have hsame : (dp.discard key).defaultTimeout = dp.defaultTimeout := by
      unfold discard unregister
      dsimp only
      split <;> rfl
    rw [hsame]
    exact h.timeout

theorem advance (h : dp.Timely) (a : ℚ) : (dp.advance (fin a)).2.Timely := by
  rw [advance_eq]
  split
  · exact h.flush a
  · exact ((h.flush a).discardAll _).settle a

theorem setRequested (h : dp.Timely) (key : FlowKey) {requested : Exact}
    (hr : isFinite requested = true) (a : ℚ) :
    (dp.setRequested key requested (fin a)).2.Timely := by
  unfold DataPlane.setRequested
  cases hc : dp.channel? key with
  | none => exact h
  | some c =>
    have henters := Channel.enters_setRequested (h.meets.registered.enters hc) requested
    have hmeets := h.meets.replace henters ⟨trivial, hr, trivial, fun _ _ => trivial⟩
    exact (h.replace hmeets (h.queue key c hc)).settle a

theorem reroute (h : dp.Timely) (key : FlowKey) (path : Path) (a : ℚ) :
    (dp.reroute key path (fin a)).2.Timely := by
  unfold DataPlane.reroute
  cases hc : dp.channel? key with
  | none => exact h
  | some c =>
    have henters := Channel.enters_reroute (h.meets.registered.enters hc) path (fin a)
    have hmeets := h.meets.replace henters
      ⟨trivial, (h.meets.channel key c hc).requested, trivial, fun _ _ => trivial⟩
    exact (h.replace hmeets ((h.queue key c hc).advance a)).settle a

/-- A new channel takes its timeout from the plane. -/
theorem add (h : dp.Timely) (key : FlowKey) (path : Path) {requested : Exact}
    (hr : isFinite requested = true) (a : ℚ) :
    (dp.add (Channel.create key path requested dp.discipline dp.defaultTimeout)
      (fin a)).Timely := by
  let c : Channel Exact := Channel.create key path requested dp.discipline dp.defaultTimeout
  have hmeets := Sustained.replaced (c := c) h.meets rfl ⟨trivial, hr, trivial, fun _ _ => trivial⟩
  rw [add_eq]
  exact (h.replace hmeets (Queue.Timely.empty _ h.timeout)).settle a

theorem send (h : dp.Timely) (key : FlowKey) {t : Transmission Exact} (ht : t.Timely) (a : ℚ) :
    (dp.send key t (fin a)).2.Timely := by
  unfold DataPlane.send
  cases hc : dp.channel? key with
  | none => exact h
  | some c =>
    have henters := Channel.enters_send (h.meets.registered.enters hc) t (fin a)
    have hmeets := h.meets.replace henters
      ⟨trivial, (h.meets.channel key c hc).requested, trivial, fun _ _ => trivial⟩
    exact h.replace hmeets (((h.queue key c hc).advance a).add ht a)

theorem withForwarding (h : dp.Timely) (entries : Table (NodeId × FlowKey) NodeId) :
    Timely { dp with network := dp.network.withForwarding entries } where
  meets := ⟨h.meets.registered.perform 0 (.forward entries), h.meets.capacity, h.meets.channel⟩
  queue := h.queue
  timeout := h.timeout

end Timely

/-- Nothing is predicted for any channel. -/
def Still (dp : DataPlane Exact) : Prop :=
  ∀ k c, dp.channel? k = some c → c.queue.nextFinish = posInf ∧ c.queue.nextTimeout = posInf

variable {dp : DataPlane Exact}

theorem Timely.definite_predictions (h : dp.Timely) :
    (∀ x ∈ dp.channels.values.map fun c => c.queue.nextFinish, x.Definite) ∧
      ∀ x ∈ dp.channels.values.map fun c => c.queue.nextTimeout, x.Definite := by
  rw [List.forall_mem_map, List.forall_mem_map]
  refine ⟨fun c hc => ?_, fun c hc => ?_⟩
  · obtain ⟨k, hc⟩ := Table.exists_of_mem_values hc
    exact (h.queue k c hc).definite_nextFinish
  · obtain ⟨k, hc⟩ := Table.exists_of_mem_values hc
    exact (h.queue k c hc).definite_nextTimeout

/-- If the least of all predictions is not a time, then nothing is predicted for any channel. -/
theorem Timely.still (h : dp.Timely)
    (hnever : isFinite (Quantity.min
      (Quantity.minimum (dp.channels.values.map fun c => c.queue.nextFinish)) dp.nextTimeout) =
        false) :
    dp.Still := by
  obtain ⟨hfinish, htimeout⟩ := h.definite_predictions
  have hfirst := Exact.definite_minimum hfinish
  have hsecond : dp.nextTimeout.Definite := Exact.definite_minimum htimeout
  obtain ⟨hnofinish, hnotimeout⟩ := Exact.min_eq_posInf hfirst hsecond
    ((Quantity.min_induction hfirst hsecond).eq_posInf hnever)
  intro k c hc
  have hmem : c ∈ dp.channels.values :=
    List.mem_map.mpr ⟨(k, c), Table.get?_eq_some_iff.mp hc, rfl⟩
  constructor
  · exact Exact.eq_posInf_of_minimum hfinish hnofinish _ (List.mem_map_of_mem hmem)
  · exact Exact.eq_posInf_of_minimum htimeout hnotimeout _ (List.mem_map_of_mem hmem)

/-- Without predictions every channel keeps what it carries, so that none is removed and none gets
the bandwidth of another one. -/
theorem Still.advance (h : dp.Still) {a : ℚ} (ht : dp.Timely) (hl : dp.Loaded (fin a)) :
    (dp.advance (fin a)).2.Still := by
  have hstalled {k : FlowKey} {c : Channel Exact} (hc : dp.channel? k = some c) : c.queue.Stalled :=
    (ht.queue k c hc).stalled (hl.full k c hc) (h k c hc).1 (h k c hc).2
  have hbusy : (dp.idle (fin a)).isEmpty = true := by
    rw [List.isEmpty_iff, List.eq_nil_iff_forall_not_mem]
    intro k hk
    obtain ⟨c, hc, hempty⟩ := hl.live_of_mem_idle hk
    exact (hstalled hc).advance_ne_nil (ht.queue k c hc) (hl.full k c hc) a hempty
  rw [advance_eq, if_pos hbusy]
  intro k c hc
  obtain ⟨d, hd, rfl⟩ := live_of_mapQueues hc
  have hq := (ht.queue k d hd).advance a
  have hs := (hstalled hd).advance (ht.queue k d hd) a
  exact ⟨hs.nextFinish hq, hs.nextTimeout⟩

end DataPlane

end FlowFabric
