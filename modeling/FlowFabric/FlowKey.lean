namespace FlowFabric

abbrev VmId := Nat

abbrev FlowId := Int

/-- The number of the default flow between any two machines. -/
def defaultFlow : FlowId := -1

/-- A flow from one machine to another. -/
structure FlowKey where
  src : VmId
  dst : VmId
  flow : FlowId
deriving DecidableEq

namespace FlowKey

/-- The default flow between the same machines. -/
def toDefault (k : FlowKey) : FlowKey := { k with flow := defaultFlow }

/-- Whether the flow has bandwidth of its own. -/
def isDedicated (k : FlowKey) : Bool := k.flow != defaultFlow

def touches (k : FlowKey) (vm : VmId) : Bool := k.src == vm || k.dst == vm

/-- The order by source, then destination, then flow number. -/
def before (a b : FlowKey) : Bool :=
  a.src < b.src || (a.src == b.src && (a.dst < b.dst || (a.dst == b.dst && a.flow < b.flow)))

/-- Puts a key into an ascending list unless it is there already. -/
def insertSorted (k : FlowKey) : List FlowKey → List FlowKey
  | [] => [k]
  | k' :: rest =>
    if k = k' then k' :: rest
    else if k.before k' then k :: k' :: rest
    else k' :: insertSorted k rest

/-- The keys of a list in ascending order, each once. -/
def sortDistinct (l : List FlowKey) : List FlowKey :=
  l.foldr insertSorted []

theorem mem_insertSorted {k k' : FlowKey} {l : List FlowKey} :
    k' ∈ insertSorted k l ↔ k' = k ∨ k' ∈ l := by
  induction l with
  | nil => simp [insertSorted]
  | cons a rest ih =>
    simp only [insertSorted]
    by_cases ha : k = a
    · subst ha
      simp
    · rw [if_neg ha]
      split
      · simp
      · simp only [List.mem_cons, ih]
        exact or_left_comm

@[simp] theorem mem_sortDistinct {k : FlowKey} {l : List FlowKey} : k ∈ sortDistinct l ↔ k ∈ l := by
  induction l with
  | nil => simp [sortDistinct]
  | cons a rest ih =>
    rw [sortDistinct, List.foldr_cons, mem_insertSorted, List.mem_cons]
    exact or_congr Iff.rfl ih

end FlowKey

end FlowFabric
