import FlowFabric.Quantity.Exact

/-! Events that are due at later times, and the clock. -/

namespace FlowFabric

abbrev EventId := Nat

/-- Something that happens at a time. -/
structure Event (R α : Type) where
  id : EventId
  time : R
  what : α

/-- What events are entered into and taken from. It belongs to the surrounding program, and how it
keeps its events is left open. -/
class Simulation (R : Type) where
  /-- A clock and the events to come. -/
  Agenda : Type → Type
  /-- No events at the beginning of time. -/
  empty {α : Type} : Agenda α
  clock {α : Type} (a : Agenda α) : R
  /-- The events to come, in the order in which they were entered. -/
  pending {α : Type} (a : Agenda α) : List (Event R α)
  /-- Whether some event has been given the number, be it pending or not. -/
  given {α : Type} (a : Agenda α) (id : EventId) : Prop
  /-- Enters an event that is due after a delay. -/
  emit {α : Type} (a : Agenda α) (delay : R) (what : α) : EventId × Agenda α
  cancel {α : Type} (a : Agenda α) (id : EventId) : Agenda α
  setClock {α : Type} (a : Agenda α) (time : R) : Agenda α
  /-- The event that comes next. -/
  next? {α : Type} (a : Agenda α) : Option (Event R α)

namespace Simulation

variable {R α : Type} [Simulation R]

/-- Takes the next event and moves the clock to its time. -/
def take (a : Agenda R α) : Option (Event R α) × Agenda R α :=
  match next? a with
  | none => (none, a)
  | some e => (some e, setClock (cancel a e.id) e.time)

end Simulation

open Simulation in
/-- What is relied on. The numbers of events are fresh, and nothing but a cancellation takes an
event back, which then has that number. -/
class SimulationLaws (R : Type) [Quantity R] [Simulation R] : Prop where
  clock_empty {α : Type} : clock (empty : Agenda R α) = 0
  pending_empty {α : Type} : pending (empty : Agenda R α) = []
  /-- The event of a new number is pending from now on. There are no negative delays. -/
  pending_emit {α : Type} (a : Agenda R α) (delay : R) (what : α) :
    pending (emit a delay what).2 =
      pending a ++ [⟨(emit a delay what).1, clock a + Quantity.max delay 0, what⟩]
  fresh {α : Type} (a : Agenda R α) (delay : R) (what : α) : ¬ given a (emit a delay what).1
  given_emit {α : Type} {a : Agenda R α} {delay : R} {what : α} {id : EventId} :
    given (emit a delay what).2 id ↔ given a id ∨ id = (emit a delay what).1
  clock_emit {α : Type} (a : Agenda R α) (delay : R) (what : α) :
    clock (emit a delay what).2 = clock a
  pending_cancel {α : Type} (a : Agenda R α) (id : EventId) :
    pending (cancel a id) = (pending a).filter fun e => e.id != id
  given_cancel {α : Type} {a : Agenda R α} {id id' : EventId} :
    given (cancel a id) id' ↔ given a id'
  clock_cancel {α : Type} (a : Agenda R α) (id : EventId) : clock (cancel a id) = clock a
  pending_setClock {α : Type} (a : Agenda R α) (time : R) : pending (setClock a time) = pending a
  given_setClock {α : Type} {a : Agenda R α} {time : R} {id : EventId} :
    given (setClock a time) id ↔ given a id
  clock_setClock {α : Type} (a : Agenda R α) (time : R) : clock (setClock a time) = time
  cancel_setClock {α : Type} (a : Agenda R α) (time : R) (id : EventId) :
    cancel (setClock a time) id = setClock (cancel a id) time
  next?_mem {α : Type} {a : Agenda R α} {e : Event R α} : next? a = some e → e ∈ pending a

namespace Simulation

open SimulationLaws

attribute [simp] clock_empty pending_empty clock_emit clock_cancel pending_setClock clock_setClock

variable {R α : Type} [Quantity R] [Simulation R] [SimulationLaws R] {a : Agenda R α}

/-- A cancelled event is gone, and the others stay. -/
theorem mem_cancel {id : EventId} {e : Event R α} :
    e ∈ pending (cancel a id) ↔ e ∈ pending a ∧ e.id ≠ id := by
  simp [pending_cancel]

theorem mem_emit {delay : R} {what : α} {e : Event R α} :
    e ∈ pending (emit a delay what).2 ↔
      e ∈ pending a ∨ e = ⟨(emit a delay what).1, clock a + Quantity.max delay 0, what⟩ := by
  simp [pending_emit]

end Simulation

/-- An agenda that is a list. Events are numbered one after the other, and of two events for the
same time the one entered first comes first. -/
structure EventList (R α : Type) where
  clock : R
  /-- The number of the event that is entered next. -/
  nextId : EventId
  pending : List (Event R α)

namespace EventList

variable {R α : Type} [Quantity R]

def emit (a : EventList R α) (delay : R) (what : α) : EventId × EventList R α :=
  (a.nextId,
    { a with
      nextId := a.nextId + 1
      pending := a.pending ++ [⟨a.nextId, a.clock + Quantity.max delay 0, what⟩] })

def cancel (a : EventList R α) (id : EventId) : EventList R α :=
  { a with pending := a.pending.filter fun e => e.id != id }

/-- Whether an event comes before another. -/
def before (e f : Event R α) : Bool :=
  decide (e.time < f.time) || (!decide (f.time < e.time) && decide (e.id < f.id))

/-- The earlier of an event and those of a list. -/
def earliest (e : Event R α) (l : List (Event R α)) : Event R α :=
  l.foldl (fun best f => if before f best then f else best) e

def next? (a : EventList R α) : Option (Event R α) :=
  match a.pending with
  | [] => none
  | e :: rest => some (earliest e rest)

theorem earliest_mem (e : Event R α) (l : List (Event R α)) : earliest e l ∈ e :: l := by
  induction l generalizing e with
  | nil => simp [earliest]
  | cons f rest ih =>
    have hs : earliest e (f :: rest) = earliest (if before f e then f else e) rest := rfl
    rw [hs]
    rcases List.mem_cons.1 (ih (if before f e then f else e)) with h | h
    · rw [h]
      split <;> simp
    · exact List.mem_cons_of_mem _ (List.mem_cons_of_mem _ h)

theorem mem_of_next? {a : EventList R α} {e : Event R α} (h : a.next? = some e) :
    e ∈ a.pending := by
  unfold next? at h
  split at h
  · cases h
  · rename_i f rest hp
    cases h
    rw [hp]
    exact earliest_mem f rest

/-- Events in a list. -/
abbrev simulation (R : Type) [Quantity R] : Simulation R where
  Agenda := EventList R
  empty := ⟨0, 0, []⟩
  clock := clock
  pending := pending
  given a id := id < a.nextId
  emit := emit
  cancel := cancel
  setClock a time := { a with clock := time }
  next? := next?

theorem laws (R : Type) [Quantity R] : @SimulationLaws R _ (simulation R) :=
  letI := simulation R
  { clock_empty := rfl
    pending_empty := rfl
    pending_emit := fun _ _ _ => rfl
    fresh := fun a _ _ => Nat.lt_irrefl a.nextId
    given_emit := Nat.lt_succ_iff_lt_or_eq
    clock_emit := fun _ _ _ => rfl
    pending_cancel := fun _ _ => rfl
    given_cancel := Iff.rfl
    clock_cancel := fun _ _ => rfl
    pending_setClock := fun _ _ => rfl
    given_setClock := Iff.rfl
    clock_setClock := fun _ _ => rfl
    cancel_setClock := fun _ _ _ => rfl
    next?_mem := mem_of_next? }

instance : Simulation Exact := simulation Exact

instance : SimulationLaws Exact := laws Exact

end EventList

end FlowFabric
