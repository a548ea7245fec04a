import FlowFabric.Fault
import FlowFabric.Table
import FlowFabric.Topology.Basic

/-! Channels of dedicated flows come first: their requests are scaled down until they fit the
capacity. What they leave is split equally among the channels of default flows. -/

namespace FlowFabric

/-- The part of a channel in the load of a lane. -/
structure Share (R : Type) where
  /-- Whether the channel has bandwidth of its own. -/
  dedicated : Bool
  requested : R
  allocated : R

/-- The channels that use one lane. -/
abbrev Shares (R : Type) := Table FlowKey (Share R)

namespace Shares

variable {R : Type} [Quantity R]

/-- The shares of dedicated flows. -/
def dedicated (s : Shares R) : List (Share R) := s.values.filter Share.dedicated

def dedicatedCount (s : Shares R) : Nat := s.dedicated.length

/-- The number of channels of default flows. -/
def sharedCount (s : Shares R) : Nat := s.size - s.dedicatedCount

def requestedDedicated (s : Shares R) : R := Quantity.sum (s.dedicated.map Share.requested)

def allocatedDedicated (s : Shares R) : R := Quantity.sum (s.dedicated.map Share.allocated)

def allocated (s : Shares R) : R := Quantity.sum (s.values.map Share.allocated)

def allocatedTo? (s : Shares R) (key : FlowKey) : Option R := (s.get? key).map Share.allocated

/-- The factor by which dedicated requests have to be scaled to fit the capacity. -/
def factor (s : Shares R) (capacity : R) : R :=
  if capacity < s.requestedDedicated then capacity / s.requestedDedicated else 1

/-- What dedicated channels leave of the capacity, at least nothing. -/
def free (s : Shares R) (capacity : R) : R :=
  let rest := capacity - s.allocatedDedicated
  if rest < 0 then 0 else rest

/-- What each channel of a default flow gets. -/
def perShared (s : Shares R) (capacity : R) : R :=
  if s.sharedCount = 0 then s.free capacity
  else s.free capacity / Quantity.ofNat s.sharedCount

/-- The fraction of the capacity that is given to channels. -/
def utilization (s : Shares R) (capacity : R) : R :=
  if capacity ≤ 0 then 0 else s.allocated / capacity

end Shares

/-- The load of all links. A lane that no channel uses need not occur. -/
abbrev Load (R : Type) := Table Lane (Shares R)

namespace Load

variable {R : Type}

def shares (ld : Load R) (lane : Lane) : Shares R := (ld.get? lane).getD Table.empty

/-- Enters a channel into a lane, or replaces its share. -/
def enter (ld : Load R) (lane : Lane) (key : FlowKey) (share : Share R) : Load R :=
  ld.insert lane ((ld.shares lane).insert key share)

def leave (ld : Load R) (lane : Lane) (key : FlowKey) : Load R :=
  ld.insert lane ((ld.shares lane).erase key)

/-- Changes the share of a channel in a lane, if it has one there. -/
def adjust (ld : Load R) (lane : Lane) (key : FlowKey) (f : Share R → Share R) : Load R :=
  ld.insert lane ((ld.shares lane).modify key f)

def enterAll (ld : Load R) (lanes : List Lane) (key : FlowKey) (share : Share R) : Load R :=
  lanes.foldl (fun ld lane => ld.enter lane key share) ld

def leaveAll (ld : Load R) (lanes : List Lane) (key : FlowKey) : Load R :=
  lanes.foldl (fun ld lane => ld.leave lane key) ld

def adjustAll (ld : Load R) (lanes : List Lane) (key : FlowKey) (f : Share R → Share R) : Load R :=
  lanes.foldl (fun ld lane => ld.adjust lane key f) ld

@[simp] theorem shares_enter_self (ld : Load R) (lane : Lane) (key : FlowKey) (share : Share R) :
    (ld.enter lane key share).shares lane = (ld.shares lane).insert key share := by
  simp [enter, shares]

theorem shares_enter_of_ne (ld : Load R) {lane other : Lane} (h : other ≠ lane) (key : FlowKey)
    (share : Share R) : (ld.enter lane key share).shares other = ld.shares other := by
  simp [enter, shares, Table.get?_insert_of_ne _ h]

@[simp] theorem shares_leave_self (ld : Load R) (lane : Lane) (key : FlowKey) :
    (ld.leave lane key).shares lane = (ld.shares lane).erase key := by
  simp [leave, shares]

theorem shares_leave_of_ne (ld : Load R) {lane other : Lane} (h : other ≠ lane) (key : FlowKey) :
    (ld.leave lane key).shares other = ld.shares other := by
  simp [leave, shares, Table.get?_insert_of_ne _ h]

@[simp] theorem shares_adjust_self (ld : Load R) (lane : Lane) (key : FlowKey)
    (f : Share R → Share R) :
    (ld.adjust lane key f).shares lane = (ld.shares lane).modify key f := by
  simp [adjust, shares]

theorem shares_adjust_of_ne (ld : Load R) {lane other : Lane} (h : other ≠ lane) (key : FlowKey)
    (f : Share R → Share R) : (ld.adjust lane key f).shares other = ld.shares other := by
  simp [adjust, shares, Table.get?_insert_of_ne _ h]

theorem shares_enterAll (ld : Load R) (lanes : List Lane) (key : FlowKey) (share : Share R)
    (lane : Lane) : (ld.enterAll lanes key share).shares lane
      = if lane ∈ lanes then (ld.shares lane).insert key share else ld.shares lane := by
  induction lanes generalizing ld with
  | nil => simp [enterAll]
  | cons first rest ih =>
    have hs : ld.enterAll (first :: rest) key share =
        (ld.enter first key share).enterAll rest key share := rfl
    rw [hs, ih]
    by_cases h : lane = first
    · subst h
      simp
    · simp [h, shares_enter_of_ne ld h]

theorem shares_leaveAll (ld : Load R) (lanes : List Lane) (key : FlowKey) (lane : Lane) :
    (ld.leaveAll lanes key).shares lane
      = if lane ∈ lanes then (ld.shares lane).erase key else ld.shares lane := by
  induction lanes generalizing ld with
  | nil => simp [leaveAll]
  | cons first rest ih =>
    have hs : ld.leaveAll (first :: rest) key = (ld.leave first key).leaveAll rest key := rfl
    rw [hs, ih]
    by_cases h : lane = first
    · subst h
      simp
    · simp [h, shares_leave_of_ne ld h]

/-- A change that may as well be made twice reaches every lane of the list once. -/
theorem shares_adjustAll {f : Share R → Share R} (hf : ∀ s, f (f s) = f s) (ld : Load R)
    (lanes : List Lane) (key : FlowKey) (lane : Lane) :
    (ld.adjustAll lanes key f).shares lane
      = if lane ∈ lanes then (ld.shares lane).modify key f else ld.shares lane := by
  induction lanes generalizing ld with
  | nil => simp [adjustAll]
  | cons first rest ih =>
    have hs : ld.adjustAll (first :: rest) key f = (ld.adjust first key f).adjustAll rest key f :=
      rfl
    rw [hs, ih]
    by_cases h : lane = first
    · subst h
      simp [Table.modify_modify_self hf]
    · simp [h, shares_adjust_of_ne ld h]

/-- Whether a channel uses a link in either direction. -/
def uses (ld : Load R) (link : LinkId) (key : FlowKey) : Bool :=
  (ld.shares ⟨link, .up⟩).contains key || (ld.shares ⟨link, .down⟩).contains key

end Load

end FlowFabric
