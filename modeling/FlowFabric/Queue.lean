import FlowFabric.Packet

/-! Either the first transmission has all of the bandwidth, or all have equal parts. An advance is
cut at every completion and deadline, so that bandwidth set free goes to the others at once. -/

namespace FlowFabric

/-- How a queue shares its bandwidth. -/
inductive Discipline where
  /-- All of it to the first transmission. -/
  | timeShared
  /-- Equal parts to all transmissions. -/
  | spaceShared
deriving DecidableEq

/-- The number of transmissions served at once, `none` if there is no limit. -/
def Discipline.limit : Discipline → Option Nat
  | timeShared => some 1
  | spaceShared => none

/-- The tolerance of all comparisons of times and of remaining data. -/
def tolerance {R : Type} [Quantity R] : R := 1e-9

/-- Transmissions in order of arrival, and those that have ended since the last collection. -/
structure Queue (R : Type) where
  discipline : Discipline
  /-- The timeout of transmissions that bring none. -/
  defaultTimeout : Option R
  bandwidth : R
  inFlight : List (Transmission R)
  completed : List (Transmission R)
  failed : List (Transmission R)
  lastUpdate : R

namespace Queue

variable {R : Type} [Quantity R]

open Quantity (min max)

/-- A queue without transmissions and without bandwidth. -/
def empty (discipline : Discipline) (defaultTimeout : Option R) : Queue R where
  discipline := discipline
  defaultTimeout := defaultTimeout
  bandwidth := 0
  inFlight := []
  completed := []
  failed := []
  lastUpdate := 0

/-- Appends a transmission. An idle queue has no progress to account for, so its clock is set. -/
def add (q : Queue R) (t : Transmission R) (time : R) : Queue R :=
  { q with
    lastUpdate := if q.inFlight.isEmpty then time else q.lastUpdate
    inFlight := q.inFlight ++ [{ t with timeout := t.timeout <|> q.defaultTimeout }] }

def setBandwidth (q : Queue R) (bandwidth : R) : Queue R := { q with bandwidth }

/-- Hands out the transmissions that have completed. -/
def takeCompleted (q : Queue R) : List (Transmission R) × Queue R :=
  (q.completed, { q with completed := [] })

/-- Hands out the transmissions that have failed. -/
def takeFailed (q : Queue R) : List (Transmission R) × Queue R :=
  (q.failed, { q with failed := [] })

def collect (q : Queue R) : Queue R := { q with completed := [], failed := [] }

/-- Whether the transmission has reached its deadline. -/
def isDue (now : R) (t : Transmission R) : Bool := !decide (now + tolerance < t.deadline)

/-- Whether what is left of the transmission is within the tolerance. -/
def isDone (t : Transmission R) : Bool := !decide (tolerance * max t.size 1 < t.remaining)

/-- Fails the transmissions that have reached their deadline. -/
def expire (q : Queue R) (now : R) : Queue R :=
  { q with
    inFlight := q.inFlight.filter fun t => !isDue now t
    failed := q.failed ++ (q.inFlight.filter (isDue now)).map fun t =>
      { t with finish := some now } }

def served (limit : Option Nat) (n : Nat) : Nat :=
  match limit with
  | some c => Nat.min n c
  | none => n

/-- The rate at which each served transmission proceeds. -/
def rate (q : Queue R) (limit : Option Nat) : R :=
  q.bandwidth / Quantity.ofNat (served limit q.inFlight.length)

/-- How far the queue can be advanced at once: to `time`,
to the first completion or to the first deadline. -/
def step (q : Queue R) (limit : Option Nat) (now time : R) : R :=
  let r := q.rate limit
  -- Only served transmissions can complete, and only at a positive rate.
  let toFinish :=
    if 0 < r then
      (q.inFlight.take (served limit q.inFlight.length)).foldl (fun s t => min s (t.remaining / r))
        (time - now)
    else time - now
  -- Waiting transmissions have deadlines too. One that has passed makes the step zero, not
  -- negative.
  max (q.inFlight.foldl (fun s t => min s (t.deadline - now)) toFinish) 0

/-- Separates the transmissions that are done from the others, looking at the first `n` places; a
transmission that leaves lets the next one move up. -/
def retire (now : R) : Nat → List (Transmission R) → List (Transmission R) × List (Transmission R)
  | _, [] => ([], [])
  | 0, rest => ([], rest)
  | n + 1, t :: rest =>
    if isDone t then
      let (done, left) := retire now (n + 1) rest
      ({ t with remaining := 0, finish := some now } :: done, left)
    else
      let (done, left) := retire now n rest
      (done, t :: left)

/-- Lets the first `n` transmissions send for the duration of a step. -/
def transmit (n : Nat) (amount : R) (l : List (Transmission R)) : List (Transmission R) :=
  (l.take n).map (fun t => { t with remaining := t.remaining - amount }) ++ l.drop n

/-- The end of a step from `now`.
A remainder of the interval within the tolerance counts as none. -/
def stepEnd (now time step : R) : R :=
  if time - (now + step) ≤ tolerance then time else now + step

/-- One round: the queue after the longest step without a completion
or a deadline inside, and the time reached. -/
def round (q : Queue R) (limit : Option Nat) (now time : R) : Queue R × R :=
  let n := served limit q.inFlight.length
  let s := q.step limit now time
  let reached := stepEnd now time s
  let (done, left) := retire reached n (transmit n (q.rate limit * s) q.inFlight)
  ({ q with inFlight := left, completed := q.completed ++ done }, reached)

/-- Rounds until the time is reached or the queue is empty, at most `fuel` of them. -/
def rounds (limit : Option Nat) (time : R) : Nat → Queue R → R → Queue R
  -- Even then nothing that is due at the end stays in flight.
  | 0, q, _ => q.expire time
  | fuel + 1, q, now =>
    -- A transmission that is due fails even if it would complete at this very moment.
    let q := q.expire now
    if q.inFlight.isEmpty || decide (time ≤ now) then q
    else
      let (q, reached) := q.round limit now time
      rounds limit time fuel q reached

/-- The number of rounds granted to a queue. A round ends with a completion, before a failure or at
the end of the interval; the rest is room for steps that rounding cuts short. -/
def roundLimit (q : Queue R) : Nat := 4 * q.inFlight.length + 8

/-- Advances the queue with the given number of transmissions served at once. -/
def advanceServing (q : Queue R) (limit : Option Nat) (time : R) : Queue R :=
  let q' := rounds limit time q.roundLimit q q.lastUpdate
  { q' with lastUpdate := max q'.lastUpdate time }

def advance (q : Queue R) (time : R) : Queue R := q.advanceServing q.discipline.limit time

/-- Advances the queue and tells whether a transmission completed. -/
def advance? (q : Queue R) (time : R) : Bool × Queue R :=
  let q' := q.advance time
  (decide (q.completed.length < q'.completed.length), q')

def nextTimeout (q : Queue R) : R := Quantity.minimum (q.inFlight.map Transmission.deadline)

/-- The time of the next completion at the present bandwidth. -/
def nextFinish (q : Queue R) : R :=
  match q.discipline with
  | .timeShared =>
    match q.inFlight with
    | head :: _ => if 0 < q.bandwidth then q.lastUpdate + head.remaining / q.bandwidth
      else Quantity.infinity
    | [] => Quantity.infinity
  | .spaceShared =>
    if q.inFlight.isEmpty || decide (q.bandwidth ≤ 0) then Quantity.infinity
    else
      q.lastUpdate
        + Quantity.minimum (q.inFlight.map Transmission.remaining) * Quantity.ofNat
          q.inFlight.length / q.bandwidth

/-- The data to be sent until the packet has passed,
when one transmission is served after the other. -/
def dataThrough (id : Nat) : R → List (Transmission R) → Option R
  | _, [] => none
  | ahead, t :: rest =>
    let ahead := ahead + t.remaining
    if t.packet.header.id = id then some ahead else dataThrough id ahead rest

/-- The time to send `target` when the ascending amounts are served together: each lasts until it is
used up and then leaves its share to the others. -/
def sharedTime (bandwidth target : R) : R → R → List R → R
  | elapsed, _, [] => elapsed
  | elapsed, processed, r :: rest =>
    let elapsed := elapsed + (r - processed) * Quantity.ofNat (rest.length + 1) / bandwidth
    if target ≤ r then elapsed else sharedTime bandwidth target elapsed r rest

/-- The predicted completion time of a packet. -/
def estimateFinish (q : Queue R) (id : Nat) : Option R :=
  match q.discipline with
  | .timeShared =>
    (dataThrough id 0 q.inFlight).map fun ahead =>
      if 0 < q.bandwidth then q.lastUpdate + ahead / q.bandwidth else Quantity.infinity
  | .spaceShared =>
    (q.inFlight.find? fun t => t.packet.header.id == id).map fun target =>
      if q.bandwidth ≤ 0 then Quantity.infinity
      else
        let amounts := (q.inFlight.map Transmission.remaining).mergeSort Quantity.sortsBefore
        q.lastUpdate + sharedTime q.bandwidth target.remaining 0 0 amounts

end Queue

end FlowFabric
