import FlowFabric.Controller.Events
import FlowFabric.Controller.Migration
import FlowFabric.Controller.Traffic
import FlowFabric.Proofs.DataPlane.Traffic

namespace FlowFabric

variable {R ε : Type}

open Simulation (pending given cancel)

namespace Simulation.Agenda

variable {α : Type}

theorem perm_filter_id {l : List (Event R α)} (hnodup : (l.map Event.id).Nodup) {e : Event R α}
    (he : e ∈ l) : l.Perm (e :: l.filter fun f => f.id != e.id) := by
  induction l with
  | nil => cases he
  | cons f rest ih =>
    obtain ⟨hnot, hrest⟩ := List.nodup_cons.mp hnodup
    rcases List.mem_cons.mp he with rfl | hmem
    -- No later event has the number, so that all of them stay.
    · have hkeep : rest.filter (fun f => f.id != e.id) = rest := by
        apply List.filter_eq_self.mpr
        intro f hf
        rw [bne_iff_ne]
        intro hid
        exact hnot (List.mem_map.mpr ⟨f, hf, hid⟩)
      rw [List.filter_cons_of_neg (by simp), hkeep]
    · have hne : f.id ≠ e.id := by
        intro hid
        exact hnot (List.mem_map.mpr ⟨e, hmem, hid.symm⟩)
      rw [List.filter_cons_of_pos (by rw [bne_iff_ne]; exact hne)]
      exact ((ih hrest hmem).cons f).trans (List.Perm.swap e f _)

variable [Simulation R]

/-- No two events have the same number, and all numbers have been given. -/
structure Sound (a : Simulation.Agenda R α) : Prop where
  nodup : ((pending a).map Event.id).Nodup
  given : ∀ e ∈ pending a, given a e.id

namespace Sound

variable [Quantity R] [SimulationLaws R] {a : Simulation.Agenda R α}

theorem empty : (Simulation.empty : Simulation.Agenda R α).Sound where
  nodup := by
    rw [SimulationLaws.pending_empty]
    exact List.nodup_nil
  given e he := by
    rw [SimulationLaws.pending_empty] at he
    cases he

theorem emit (h : a.Sound) (delay : R) (what : α) : (Simulation.emit a delay what).2.Sound where
  nodup := by
    rw [SimulationLaws.pending_emit, List.map_append, List.nodup_append]
    refine ⟨h.nodup, List.pairwise_singleton _ _, ?_⟩
    intro i hi j hj hij
    obtain ⟨e, he, rfl⟩ := List.mem_map.mp hi
    -- The new number has not been given to any that is pending.
    have hold := h.given e he
    rw [hij, List.mem_singleton.mp hj] at hold
    exact SimulationLaws.fresh a delay what hold
  given e he := by
    rw [SimulationLaws.given_emit]
    exact (mem_emit.mp he).imp (h.given e) (congrArg Event.id)

theorem cancel (h : a.Sound) (id : EventId) : (Simulation.cancel a id).Sound where
  nodup := by
    rw [SimulationLaws.pending_cancel]
    exact List.Nodup.sublist (List.filter_sublist.map _) h.nodup
  given e he := SimulationLaws.given_cancel.mpr (h.given e (mem_cancel.mp he).1)

theorem setClock (h : a.Sound) (time : R) : (Simulation.setClock a time).Sound where
  nodup := by
    rw [SimulationLaws.pending_setClock]
    exact h.nodup
  given e he := by
    rw [SimulationLaws.pending_setClock] at he
    exact SimulationLaws.given_setClock.mpr (h.given e he)

/-- Taking one event back leaves the others. -/
theorem perm_cancel (h : a.Sound) {e : Event R α} (he : e ∈ pending a) :
    (pending a).Perm (e :: pending (Simulation.cancel a e.id)) := by
  rw [SimulationLaws.pending_cancel]
  exact perm_filter_id h.nodup he

end Sound

end Simulation.Agenda

namespace Notice

/-- The packet that a notice reports as arrived, with the time at which it was sent. -/
def arrived? : Notice R ε → Option (Packet R × R)
  | .completed _ packet start _ => some (packet, start)
  | _ => none

/-- The packet that a notice reports as lost, with the time at which it was sent. -/
def lost? : Notice R ε → Option (Packet R × R)
  | .failed _ packet start _ => some (packet, start)
  | _ => none

/-- A report goes to whom its packet says. -/
def Addressed : Notice R ε → Prop
  | .completed recipient packet _ _ => recipient = packet.notify
  | .failed recipient packet _ _ => recipient = packet.notify
  | _ => True

end Notice

def arrivals (l : List (Notice R ε)) : Multiset (Packet R × R) := ↑(l.filterMap Notice.arrived?)

def losses (l : List (Notice R ε)) : Multiset (Packet R × R) := ↑(l.filterMap Notice.lost?)

section Reports

variable {l m : List (Notice R ε)}

theorem arrivals_append (l m : List (Notice R ε)) :
    arrivals (l ++ m) = arrivals l + arrivals m := by
  unfold arrivals
  rw [List.filterMap_append, Multiset.coe_add]

theorem losses_append (l m : List (Notice R ε)) : losses (l ++ m) = losses l + losses m := by
  unfold losses
  rw [List.filterMap_append, Multiset.coe_add]

theorem arrivals_perm (h : l.Perm m) : arrivals l = arrivals m := Quot.sound (h.filterMap _)

theorem losses_perm (h : l.Perm m) : losses l = losses m := Quot.sound (h.filterMap _)

end Reports

namespace Controller

variable [Simulation R]

def notices (c : Controller R ε) : List (Notice R ε) := (pending c.agenda).map Event.what

/-- The books of a controller. `accepted` are the packets that were taken, `delivered` the notices
that have left the agenda, and `carried` the packets that are in flight. -/
structure Ledger (accepted : Multiset (Packet R × R)) (delivered : List (Notice R ε))
    (carried : Multiset (Packet R × R)) (c : Controller R ε) : Prop where
  balance : accepted = arrivals (delivered ++ c.notices) + losses (delivered ++ c.notices) + carried
  completed : c.stats.completed = (arrivals (delivered ++ c.notices)).card
  failed : c.stats.failed = (losses (delivered ++ c.notices)).card
  agenda : c.agenda.Sound
  /-- The event that may be taken back is an update. -/
  update : ∀ id, c.pendingUpdate = some id → given c.agenda id ∧ ∀ e ∈ pending c.agenda,
    e.id = id → e.what = .update
  addressed : ∀ what ∈ delivered ++ c.notices, what.Addressed

namespace Ledger

variable {accepted carried : Multiset (Packet R × R)} {delivered : List (Notice R ε)}
    {c : Controller R ε}

/-- The books are kept in the agenda and in the counts. -/
theorem congr (h : Ledger accepted delivered carried c) {c' : Controller R ε}
    (ha : c'.agenda = c.agenda) (hc : c'.stats.completed = c.stats.completed)
    (hf : c'.stats.failed = c.stats.failed)
    (hu : c'.pendingUpdate = c.pendingUpdate ∨ c'.pendingUpdate = none) :
    Ledger accepted delivered carried c' := by
  have hn : c'.notices = c.notices := by
    unfold notices
    rw [ha]
  refine ⟨?_, ?_, ?_, ha ▸ h.agenda, ?_, hn ▸ h.addressed⟩
  · rw [hn]
    exact h.balance
  · rw [hn, hc]
    exact h.completed
  · rw [hn, hf]
    exact h.failed
  · intro id hid
    rw [ha]
    rcases hu with hu | hu
    · exact h.update id (hu ▸ hid)
    · rw [hu] at hid
      cases hid

theorem accept (h : Ledger accepted delivered carried c) (x : Packet R × R) :
    Ledger (x ::ₘ accepted) delivered (x ::ₘ carried) c where
  balance := by rw [h.balance, Multiset.add_cons]
  completed := h.completed
  failed := h.failed
  agenda := h.agenda
  update := h.update
  addressed := h.addressed

/-- Reports made one after the other, each of them moving one packet, move them all. -/
theorem reportAll {report : Controller R ε → Departure R → Controller R ε}
    (hreport : ∀ c d carried, Ledger accepted delivered (d.transmission.origin ::ₘ carried) c →
      Ledger accepted delivered carried (report c d))
    (ds : List (Departure R)) (h : Ledger accepted delivered (DataPlane.departed ds + carried) c) :
    Ledger accepted delivered carried (ds.foldl report c) := by
  induction ds generalizing c with
  | nil =>
    have hzero : DataPlane.departed ([] : List (Departure R)) + carried = carried := zero_add _
    rwa [hzero] at h
  | cons d rest ih =>
    have hcons : DataPlane.departed (d :: rest) + carried
        = d.transmission.origin ::ₘ (DataPlane.departed rest + carried) := by
      unfold DataPlane.departed
      rw [List.map_cons, origins_cons, Multiset.cons_add]
    rw [hcons] at h
    exact ih (hreport c d _ h)

variable [Quantity R] [SimulationLaws R]

theorem setClock (h : Ledger accepted delivered carried c) (time : R) :
    Ledger accepted delivered carried (c.setClock time) := by
  have hn : (c.setClock time).notices = c.notices :=
    congrArg (List.map Event.what) (SimulationLaws.pending_setClock c.agenda time)
  refine ⟨hn ▸ h.balance, hn ▸ h.completed, hn ▸ h.failed, h.agenda.setClock time, ?_,
    hn ▸ h.addressed⟩
  intro id hid
  obtain ⟨hgiven, hup⟩ := h.update id hid
  refine ⟨SimulationLaws.given_setClock.mpr hgiven, fun e he => hup e ?_⟩
  rwa [← SimulationLaws.pending_setClock c.agenda time]

/-- A new event leaves the one that may be taken back what it was. -/
theorem update_emit (h : Ledger accepted delivered carried c) (delay : R) (what : Notice R ε)
    (id : EventId) (hid : c.pendingUpdate = some id) :
    given (Simulation.emit c.agenda delay what).2 id ∧
      ∀ e ∈ pending (Simulation.emit c.agenda delay what).2, e.id = id → e.what = .update := by
  obtain ⟨hgiven, hup⟩ := h.update id hid
  refine ⟨SimulationLaws.given_emit.mpr (Or.inl hgiven), ?_⟩
  intro e he heid
  rcases Simulation.mem_emit.mp he with he | rfl
  · exact hup e he heid
  · subst heid
    exact absurd hgiven (SimulationLaws.fresh c.agenda delay what)

/-- An event that is entered is one more notice, and what it reports is no longer carried. -/
theorem emit {left : Multiset (Packet R × R)} {what : Notice R ε}
    (h : Ledger accepted delivered carried c)
    (hleft : carried = arrivals [what] + losses [what] + left) (haddressed : what.Addressed)
    (delay : R) {stats : Stats R}
    (hc : stats.completed = c.stats.completed + (arrivals [what]).card)
    (hf : stats.failed = c.stats.failed + (losses [what]).card) :
    Ledger accepted delivered left (Controller.emit { c with stats } delay what) := by
  have hn : (Controller.emit { c with stats } delay what).notices = c.notices ++ [what] := by
    show (pending (Simulation.emit c.agenda delay what).2).map Event.what = _
    rw [SimulationLaws.pending_emit, List.map_append]
    rfl
  have harrivals : arrivals (delivered ++ (Controller.emit { c with stats } delay what).notices)
      = arrivals (delivered ++ c.notices) + arrivals [what] := by
    rw [hn, ← List.append_assoc, arrivals_append]
  have hlosses : losses (delivered ++ (Controller.emit { c with stats } delay what).notices)
      = losses (delivered ++ c.notices) + losses [what] := by
    rw [hn, ← List.append_assoc, losses_append]
  refine ⟨?_, ?_, ?_, h.agenda.emit _ _, h.update_emit _ _, ?_⟩
  · rw [harrivals, hlosses, h.balance, hleft]
    abel
  · rw [harrivals, Multiset.card_add, ← h.completed]
    exact hc
  · rw [hlosses, Multiset.card_add, ← h.failed]
    exact hf
  · rw [hn, ← List.append_assoc]
    intro what' hwhat
    rcases List.mem_append.mp hwhat with hold | hnew
    · exact h.addressed what' hold
    · rw [List.mem_singleton.mp hnew]
      exact haddressed

theorem reportCompleted {d : Departure R}
    (h : Ledger accepted delivered (d.transmission.origin ::ₘ carried) c) :
    Ledger accepted delivered carried (c.reportCompleted d) := by
  have hone : d.transmission.origin ::ₘ carried = {d.transmission.origin} + 0 + carried := by
    rw [add_zero, Multiset.singleton_add]
  have haddressed : (Notice.completed d.transmission.packet.notify d.transmission.packet
      d.transmission.start (d.transmission.finish.getD c.now) : Notice R ε).Addressed := rfl
  exact h.emit hone haddressed _ rfl rfl

theorem reportFailed {d : Departure R}
    (h : Ledger accepted delivered (d.transmission.origin ::ₘ carried) c) :
    Ledger accepted delivered carried (c.reportFailed d) := by
  have hone : d.transmission.origin ::ₘ carried = 0 + {d.transmission.origin} + carried := by
    rw [zero_add, Multiset.singleton_add]
  have haddressed : (Notice.failed d.transmission.packet.notify d.transmission.packet
      d.transmission.start (d.transmission.finish.getD c.now) : Notice R ε).Addressed := rfl
  exact h.emit hone haddressed _ rfl rfl

/-- Taking back the update takes back no report. -/
theorem cancelUpdate (h : Ledger accepted delivered carried c) :
    Ledger accepted delivered carried c.cancelUpdate := by
  unfold Controller.cancelUpdate
  cases hid : c.pendingUpdate with
  | none => exact h
  | some id =>
    obtain ⟨_, hup⟩ := h.update id hid
    -- The events with the number of the update, the only ones that are taken back, report nothing.
    have hsame (f : Notice R ε → Option (Packet R × R)) (hf : f .update = none) :
        (delivered ++ (pending (cancel c.agenda id)).map Event.what).filterMap f
          = (delivered ++ c.notices).filterMap f := by
      unfold notices
      rw [SimulationLaws.pending_cancel, List.filterMap_append, List.filterMap_append,
        List.filterMap_map, List.filterMap_map]
      refine congrArg _ ?_
      rw [List.filterMap_filter]
      refine List.filterMap_congr fun e he => ?_
      show (if (e.id != id) = true then f e.what else none) = f e.what
      split
      · rfl
      · rename_i hgone
        rw [hup e he (by simpa using hgone), hf]
    have harrivals : arrivals (delivered ++ (pending (cancel c.agenda id)).map Event.what)
        = arrivals (delivered ++ c.notices) := congrArg Multiset.ofList (hsame Notice.arrived? rfl)
    have hlosses : losses (delivered ++ (pending (cancel c.agenda id)).map Event.what)
        = losses (delivered ++ c.notices) := congrArg Multiset.ofList (hsame Notice.lost? rfl)
    refine ⟨?_, ?_, ?_, h.agenda.cancel id, fun _ => nofun, fun what hwhat => ?_⟩
    · rw [h.balance, ← harrivals, ← hlosses]
      rfl
    · exact h.completed.trans (congrArg Multiset.card harrivals.symm)
    · exact h.failed.trans (congrArg Multiset.card hlosses.symm)
    · refine h.addressed what (List.mem_append.mpr ((List.mem_append.mp hwhat).imp_right ?_))
      intro hleft
      obtain ⟨e, he, rfl⟩ := List.mem_map.mp hleft
      exact List.mem_map_of_mem (Simulation.mem_cancel.mp he).1

theorem emit_quiet (h : Ledger accepted delivered carried c) (delay : R) (what : Notice R ε)
    (ha : what.arrived? = none) (hl : what.lost? = none) :
    Ledger accepted delivered carried (c.emit delay what) := by
  have harrivals : arrivals [what] = 0 := by
    unfold arrivals
    rw [List.filterMap_cons, ha]
    rfl
  have hlosses : losses [what] = 0 := by
    unfold losses
    rw [List.filterMap_cons, hl]
    rfl
  have haddressed : what.Addressed := by
    cases what with
    | completed => cases ha
    | failed => cases hl
    | _ => trivial
  refine h.emit ?_ haddressed delay ?_ ?_
  · rw [harrivals, hlosses, zero_add, zero_add]
  · rw [harrivals, Multiset.card_zero, add_zero]
  · rw [hlosses, Multiset.card_zero, add_zero]

theorem scheduleUpdate (h : Ledger accepted delivered carried c) :
    Ledger accepted delivered carried c.scheduleUpdate := by
  have hc := h.cancelUpdate
  unfold Controller.scheduleUpdate
  dsimp only
  split
  · exact hc
  · rename_i next _
    let delay := Quantity.max (next - c.cancelUpdate.now) c.cancelUpdate.settings.minInterval
    have he := hc.emit_quiet delay .update rfl rfl
    refine ⟨he.balance, he.completed, he.failed, he.agenda, ?_, he.addressed⟩
    intro id hid
    have hnew : (Simulation.emit c.cancelUpdate.agenda delay .update).1 = id := Option.some.inj hid
    -- The number was not in use before, so that only the new event has it.
    refine ⟨SimulationLaws.given_emit.mpr (Or.inr hnew.symm), ?_⟩
    intro e hmem heid
    rcases Simulation.mem_emit.mp hmem with hold | rfl
    · have hgiven := hc.agenda.given e hold
      rw [heid.trans hnew.symm] at hgiven
      exact absurd hgiven (SimulationLaws.fresh _ _ _)
    · rfl

theorem scheduleTick (h : Ledger accepted delivered carried c) :
    Ledger accepted delivered carried c.scheduleTick := by
  unfold Controller.scheduleTick
  split
  · exact h
  · have he := h.emit_quiet c.settings.monitoringInterval .tick rfl rfl
    exact ⟨he.balance, he.completed, he.failed, he.agenda, he.update, he.addressed⟩

/-- An event that is delivered moves from the agenda to what has been delivered. -/
theorem deliver (h : Ledger accepted delivered carried c) {e : Event R (Notice R ε)}
    (he : e ∈ pending c.agenda) :
    Ledger accepted (delivered ++ [e.what]) carried { c with agenda := cancel c.agenda e.id } := by
  -- Before and after the delivery the notices are the same in another order.
  have hperm : (delivered ++ c.notices).Perm
      (delivered ++ [e.what] ++ (pending (cancel c.agenda e.id)).map Event.what) := by
    rw [List.append_assoc]
    exact ((h.agenda.perm_cancel he).map Event.what).append_left delivered
  refine ⟨?_, ?_, ?_, h.agenda.cancel e.id, ?_, fun what hwhat => ?_⟩
  · rw [h.balance, arrivals_perm hperm, losses_perm hperm]
    rfl
  · rw [h.completed, arrivals_perm hperm]
    rfl
  · rw [h.failed, losses_perm hperm]
    rfl
  · intro id hid
    obtain ⟨hgiven, hup⟩ := h.update id hid
    exact ⟨SimulationLaws.given_cancel.mpr hgiven, fun f hf =>
      hup f (Simulation.mem_cancel.mp hf).1⟩
  · exact h.addressed what (hperm.mem_iff.mpr hwhat)

end Ledger

end Controller

end FlowFabric
