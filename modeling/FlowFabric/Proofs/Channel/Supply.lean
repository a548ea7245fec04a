import FlowFabric.Proofs.DataPlane.Registration
import FlowFabric.Proofs.Queue.Service

namespace FlowFabric

namespace Channel

open Exact

/-- What can be done with a channel. -/
inductive Operation (R : Type) where
  | register
  | unregister
  | adjustDedicated
  | adjustShared
  | setRequested (requested : R)
  | reroute (path : Path)
  /-- A packet that entered the fabric at `start`. -/
  | send (packet : Packet R) (start : R)
  | advance

/-- An operation, the time at which it is carried out and the network as it is by then. -/
structure Occasion where
  time : ℚ
  network : Network Exact
  operation : Operation Exact

/-- The channel after an operation. -/
def perform {R : Type} [Quantity R] (c : Channel R) (net : Network R) (time : R) :
    Operation R → Channel R
  | .register => (c.register net).1
  | .unregister => c
  | .adjustDedicated => (c.adjustDedicated net time).2.1
  | .adjustShared => (c.adjustShared net time).2.1
  | .setRequested requested => (c.setRequested net requested).1
  | .reroute path => (c.reroute net path time).1
  | .send packet start => c.send (.ofPacket packet start) time
  | .advance => c.advance time

def step (c : Channel Exact) (o : Occasion) : Channel Exact :=
  c.perform o.network (fin o.time) o.operation

def run (c : Channel Exact) (os : List Occasion) : Channel Exact := os.foldl step c

/-- The integral of the allocated bandwidth from one time to another,
through the operations in between. -/
def supplied (c : Channel Exact) (since : ℚ) : List Occasion → ℚ → Exact
  | [], finish => c.allocated * fin (finish - since)
  | o :: rest, finish => c.allocated * fin (o.time - since) + (c.step o).supplied o.time rest finish

/-- A packet that is sent has a size. -/
def Operation.Sized : Operation Exact → Prop
  | .send packet _ => packet.size.Nonneg
  | _ => True

/-- By the time, the channel has delivered no more than the amount,
and would not if its queue were advanced to it. -/
structure Within (c : Channel Exact) (now amount : ℚ) : Prop where
  numeric : c.queue.Numeric
  bandwidth : c.queue.bandwidth = c.allocated
  certain : c.queue.certain ≤ amount
  last : ∃ a, c.queue.lastUpdate = fin a ∧ (c.queue.inFlight ≠ [] →
    a ≤ now ∧ c.queue.certain + c.allocated.toRat * (now - a) ≤ amount)

/-- A queue that carries something has been advanced to the time. -/
def Flushed (c : Channel Exact) (now : ℚ) : Prop :=
  c.queue.inFlight ≠ [] → c.queue.lastUpdate = fin now

namespace Within

variable {c : Channel Exact} {now later amount : ℚ}

theorem create (key : FlowKey) (path : Path) (requested : Exact) (discipline : Discipline)
    (timeout : Option Exact) (now : ℚ) :
    (Channel.create key path requested discipline timeout).Within now 0 where
  numeric := ⟨.fin le_rfl, List.forall_mem_nil _, List.forall_mem_nil _, List.forall_mem_nil _⟩
  bandwidth := rfl
  certain := by
    show (0 : ℚ) + 0 + 0 ≤ 0
    rw [add_zero, add_zero]
  last := ⟨0, rfl, fun h => absurd rfl h⟩

theorem allocated (h : c.Within now amount) : c.allocated.Nonneg :=
  h.bandwidth ▸ h.numeric.bandwidth

/-- Time provides the bandwidth in force. -/
theorem wait (h : c.Within now amount) (hle : now ≤ later) :
    c.Within later (amount + c.allocated.toRat * (later - now)) := by
  have hgain : 0 ≤ c.allocated.toRat * (later - now) :=
    mul_nonneg h.allocated.toRat_nonneg (sub_nonneg.mpr hle)
  have hcertain := h.certain
  obtain ⟨a, ha, hlast⟩ := h.last
  refine ⟨h.numeric, h.bandwidth, by linarith, a, ha, fun hne => ?_⟩
  obtain ⟨hnow, hdue⟩ := hlast hne
  refine ⟨hnow.trans hle, ?_⟩
  linarith

theorem of_flushed (hnum : c.queue.Numeric) (hb : c.queue.bandwidth = c.allocated)
    (hcertain : c.queue.certain ≤ amount) (hlast : ∃ a, c.queue.lastUpdate = fin a)
    (hf : c.Flushed now) : c.Within now amount := by
  obtain ⟨a, ha⟩ := hlast
  refine ⟨hnum, hb, hcertain, a, ha, fun hne => ?_⟩
  have hnow : a = now := by
    have hfin : fin a = fin now := ha.symm.trans (hf hne)
    cases hfin
    rfl
  rw [hnow, sub_self, mul_zero, add_zero]
  exact ⟨le_rfl, hcertain⟩

/-- An advance accounts for what has been provided since the last one. -/
theorem advance (h : c.Within now amount) :
    (c.advance (fin now)).Within now amount ∧ (c.advance (fin now)).Flushed now := by
  obtain ⟨a, ha, hlast⟩ := h.last
  obtain ⟨hnum, hcertain⟩ := h.numeric.advance ha now
  have hlater : (c.queue.advance (fin now)).lastUpdate = fin (a ⊔ now) := by
    rw [Queue.lastUpdate_advance, ha, max_fin]
  by_cases hne : c.queue.inFlight = []
  · have hidle := Queue.advance_of_idle hne (fin now)
    have hnone : (c.queue.advance (fin now)).inFlight = [] := by
      rw [hidle]
      exact hne
    have hsame : (c.queue.advance (fin now)).certain = c.queue.certain := by
      rw [hidle]
      rfl
    have hflushed : (c.advance (fin now)).Flushed now := fun hc => absurd hnone hc
    refine ⟨of_flushed hnum ?_ (hsame.trans_le h.certain) ⟨_, hlater⟩ hflushed, hflushed⟩
    exact (Queue.bandwidth_advance _ _).trans h.bandwidth
  · obtain ⟨hnow, hdue⟩ := hlast hne
    have hflushed : (c.advance (fin now)).Flushed now := by
      intro _
      show (c.queue.advance (fin now)).lastUpdate = fin now
      rw [hlater, sup_eq_right.mpr hnow]
    refine ⟨of_flushed hnum ?_ ?_ ⟨_, hlater⟩ hflushed, hflushed⟩
    · exact (Queue.bandwidth_advance _ _).trans h.bandwidth
    · show (c.queue.advance (fin now)).certain ≤ amount
      rw [h.bandwidth, sup_eq_left.mpr (sub_nonneg.mpr hnow)] at hcertain
      exact hcertain.trans hdue

/-- The bandwidth of a queue that has been advanced to the present can be changed. -/
theorem setBandwidth (h : c.Within now amount) (hf : c.Flushed now) {bandwidth : Exact}
    (hb : bandwidth.Nonneg) :
    Channel.Within { c with allocated := bandwidth, queue := c.queue.setBandwidth bandwidth }
      now amount := by
  obtain ⟨a, ha, _⟩ := h.last
  exact of_flushed ⟨hb, h.numeric.inFlight, h.numeric.completed, h.numeric.failed⟩ rfl h.certain
    ⟨a, ha⟩ hf

theorem adjust (h : c.Within now amount) (net : Network Exact) (bandwidth : Exact)
    (hb : (c.setAllocated net bandwidth (fin now)).2.1.allocated.Nonneg) :
    (c.setAllocated net bandwidth (fin now)).2.1.Within now amount := by
  unfold setAllocated at hb ⊢
  split at hb
  · rename_i hsettled
    rw [if_pos hsettled]
    exact h
  · rename_i hchange
    rw [if_neg hchange]
    obtain ⟨hadvanced, hflushed⟩ := h.advance
    exact hadvanced.setBandwidth hflushed hb

theorem send (h : c.Within now amount) {packet : Packet Exact} (hsize : packet.size.Nonneg)
    (start : Exact) : (c.send (.ofPacket packet start) (fin now)).Within now amount := by
  obtain ⟨hadvanced, hflushed⟩ := h.advance
  obtain ⟨a, ha, _⟩ := hadvanced.last
  have hcertain := Queue.certain_add (c.queue.advance (fin now))
    (Transmission.sentData_ofPacket packet start) (fin now)
  -- The clock of an idle queue is set; any other queue stands at the present already.
  have hlast : ((c.queue.advance (fin now)).add (.ofPacket packet start) (fin now)).lastUpdate =
      fin now := by
    unfold Queue.add
    dsimp only
    split
    · rfl
    · rename_i hne
      exact hflushed fun hnil => hne (List.isEmpty_iff.mpr hnil)
  have hnew : (Transmission.ofPacket packet start).Numeric := ⟨hsize, hsize⟩
  exact of_flushed (hadvanced.numeric.add hnew (fin now)) hadvanced.bandwidth
    (hcertain.trans_le hadvanced.certain) ⟨now, hlast⟩ fun _ => hlast

/-- No operation delivers more than has been provided. -/
theorem step {o : Occasion} (h : c.Within o.time amount) (hsize : o.operation.Sized)
    (halloc : (c.step o).allocated.Nonneg) : (c.step o).Within o.time amount := by
  obtain ⟨time, net, op⟩ := o
  cases op with
  | register | unregister | setRequested => exact ⟨h.numeric, h.bandwidth, h.certain, h.last⟩
  | adjustDedicated | adjustShared => exact h.adjust net _ halloc
  | reroute =>
    have hadvanced := h.advance.1
    exact ⟨hadvanced.numeric, hadvanced.bandwidth, hadvanced.certain, hadvanced.last⟩
  | send packet start => exact h.send hsize start
  | advance => exact h.advance.1

/-- By induction on the operations, the amount delivered grows by what is supplied. -/
theorem run {os : List Occasion} {finish : ℚ} (h : c.Within now amount)
    (htimes : (now :: os.map Occasion.time ++ [finish]).Pairwise (· ≤ ·))
    (hsize : ∀ o ∈ os, o.operation.Sized)
    (halloc : ∀ n, (c.run (os.take n)).allocated.Nonneg) :
    ∃ s, c.supplied now os finish = fin s ∧ (c.run os).Within finish (amount + s) := by
  induction os generalizing c now amount with
  | nil =>
    have hle : now ≤ finish := (List.pairwise_cons.mp htimes).1 _ List.mem_cons_self
    refine ⟨c.allocated.toRat * (finish - now), ?_, h.wait hle⟩
    show c.allocated * fin (finish - now) = _
    rw [h.allocated.eq_fin, fin_mul_fin, toRat_fin]
  | cons o rest ih =>
    obtain ⟨hfirst, hrest⟩ := List.pairwise_cons.mp htimes
    have hle : now ≤ o.time := hfirst _ List.mem_cons_self
    have hnext := (h.wait hle).step (hsize o List.mem_cons_self) (halloc 1)
    obtain ⟨s, hs, hwithin⟩ := ih hnext hrest (fun o' ho' => hsize o' (List.mem_cons_of_mem _ ho'))
      fun n => halloc (n + 1)
    refine ⟨c.allocated.toRat * (o.time - now) + s, ?_, ?_⟩
    · show c.allocated * fin (o.time - now) + (c.step o).supplied o.time rest finish = _
      rw [hs, h.allocated.eq_fin, fin_mul_fin, fin_add_fin, toRat_fin]
    · rw [← add_assoc]
      exact hwithin

end Within

/-- Changes of bandwidth are never retroactive: up to any time at which a channel is advanced, it
has delivered no more than the bandwidth in force at each moment provides, and the tolerance for
each completed transmission. -/
theorem delivered_le_supplied (key : FlowKey) (path : Path) (requested : Exact)
    (discipline : Discipline) (timeout : Option Exact) (start finish : ℚ) (os : List Occasion)
    (htimes : (start :: os.map Occasion.time ++ [finish]).Pairwise (· ≤ ·))
    (hsize : ∀ o ∈ os, o.operation.Sized)
    (halloc : ∀ n,
      ((create key path requested discipline timeout).run (os.take n)).allocated.Nonneg) :
    let c := create key path requested discipline timeout
    let q := ((c.run os).advance (fin finish)).queue
    q.delivered ≤ c.supplied start os finish + q.forgiven := by
  intro c q
  have hstart : c.Within start 0 := .create key path requested discipline timeout start
  obtain ⟨s, hs, hwithin⟩ := hstart.run htimes hsize halloc
  rw [zero_add] at hwithin
  have hend := hwithin.advance.1
  rw [hs]
  exact hend.numeric.delivered_le hend.certain

/-- What holds of every beginning of a list up to its length holds of all that are asked for. -/
theorem forall_take {α : Type} {l : List α} {P : List α → Prop}
    (h : ∀ n < l.length + 1, P (l.take n)) (n : Nat) : P (l.take n) := by
  rcases Nat.lt_or_ge n (l.length + 1) with hlt | hge
  · exact h n hlt
  · rw [List.take_of_length_le (by omega), ← List.take_length (l := l)]
    exact h l.length (Nat.lt_succ_self _)

/-- A flow that asks for less while its second packet waits for the first one. -/
theorem rack_delivered_le_supplied :
    let net : Network Exact := { Network.empty .tree with topology := Topology.rack }
    let across : Path := ⟨0, [⟨⟨2, .up⟩, 2⟩, ⟨⟨3, .down⟩, 1⟩]⟩
    let os : List Occasion :=
      [⟨0, net, .register⟩, ⟨0, net, .adjustDedicated⟩,
        ⟨1, net, .send ⟨⟨0, 1, 2, 7⟩, [], 1000, none, 1⟩ 1⟩,
        ⟨1, net, .send ⟨⟨1, 1, 2, 7⟩, [], 500, none, 1⟩ 1⟩, ⟨2, net, .setRequested 400⟩,
        ⟨2, net, .adjustDedicated⟩]
    let c := create ⟨1, 2, 7⟩ across (800 : Exact) .timeShared none
    ((0 : ℚ) :: os.map Occasion.time ++ [3]).Pairwise (· ≤ ·) ∧ (∀ o ∈ os, o.operation.Sized) ∧
      (∀ n, (c.run (os.take n)).allocated.Nonneg) ∧
      ((c.run os).advance (fin 3)).queue.delivered ≤
        c.supplied 0 os 3 + ((c.run os).advance (fin 3)).queue.forgiven := by
  intro net across os c
  have htimes : ((0 : ℚ) :: os.map Occasion.time ++ [3]).Pairwise (· ≤ ·) := by decide +kernel
  have hn (n : Nat) : (Quantity.ofNat n : Exact).Nonneg := .fin n.cast_nonneg
  have hsize : ∀ o ∈ os, o.operation.Sized := by
    rw [List.forall_mem_cons, List.forall_mem_cons, List.forall_mem_cons, List.forall_mem_cons,
      List.forall_mem_cons, List.forall_mem_singleton]
    exact ⟨trivial, trivial, hn 1000, hn 500, trivial, trivial⟩
  have hall : ∀ x ∈ [(0 : Exact), 800, 400], x.Nonneg := by
    rw [List.forall_mem_cons, List.forall_mem_cons, List.forall_mem_singleton]
    exact ⟨hn 0, hn 800, hn 400⟩
  have hgiven : ∀ n < 7, (c.run (os.take n)).allocated ∈ [(0 : Exact), 800, 400] := by
    decide +kernel
  have halloc : ∀ n, (c.run (os.take n)).allocated.Nonneg :=
    forall_take (P := fun os => (c.run os).allocated.Nonneg) fun n hn => hall _ (hgiven n hn)
  exact ⟨htimes, hsize, halloc, delivered_le_supplied ⟨1, 2, 7⟩ across 800 .timeShared none 0 3 os
    htimes hsize halloc⟩

end Channel

end FlowFabric
