import FlowFabric.Registry
import Mathlib.Data.List.Induction

namespace FlowFabric

namespace Registry

variable {R : Type}

/-- A change of the registered flows. -/
inductive Change (R : Type) where
  | add (f : Flow R)
  | remove (id : FlowId)

/-- The number that a change is about. -/
def Change.id : Change R → FlowId
  | .add f => f.id
  | .remove id => id

/-- The change registers a flow with the name. -/
def Change.Adds (c : Change R) (name : String) : Prop := ∃ f, c = .add f ∧ f.name = name

def change (r : Registry R) : Change R → Registry R
  | .add f => r.addFlow f
  | .remove id => (r.removeFlow id).2

/-- What a sequence of changes leaves of a registry that was empty. -/
def history (changes : List (Change R)) : Registry R := changes.foldl change empty

/-- The flow registered under the number has the name. -/
def Bears (r : Registry R) (id : FlowId) (name : String) : Prop :=
  ∃ f, r.flow? id = some f ∧ f.name = name

/-- The change takes the name from the flow it is about, which shares it with a flow that stays. -/
structure Change.Withdraws (c : Change R) (r : Registry R) (name : String) : Prop where
  held : r.Bears c.id name
  shared : ∃ id, id ≠ c.id ∧ r.Bears id name
  gone : ¬ c.Adds name

/-- The name was withdrawn and has not been added since. -/
def Withdrawn (changes : List (Change R)) (name : String) : Prop :=
  ∃ before c after, changes = before ++ c :: after ∧ c.Withdraws (history before) name ∧
    ∀ c' ∈ after, ¬ c'.Adds name

theorem adds_add {f : Flow R} {name : String} : (Change.add f).Adds name ↔ f.name = name := by
  simp [Change.Adds]

theorem not_adds_remove {id : FlowId} {name : String} :
    ¬ (Change.remove id : Change R).Adds name := by
  simp [Change.Adds]

theorem flow?_change_of_ne (r : Registry R) {c : Change R} {id : FlowId} (h : id ≠ c.id) :
    (r.change c).flow? id = r.flow? id := by
  cases c with
  | add f => exact Table.get?_insert_of_ne r.flows h f
  | remove id' => exact Table.get?_erase_of_ne r.flows h

theorem flow?_change_add (r : Registry R) (f : Flow R) : (r.change (.add f)).flow? f.id = some f :=
  Table.get?_insert_self r.flows f.id f

theorem flow?_change_remove (r : Registry R) (id : FlowId) :
    (r.change (.remove id)).flow? id = none :=
  Table.get?_erase_self r.flows id

theorem bears_change_self {r : Registry R} {c : Change R} {name : String} :
    (r.change c).Bears c.id name ↔ c.Adds name := by
  cases c with
  | add f => simp [Bears, Change.id, flow?_change_add, adds_add]
  | remove id => simp [Bears, Change.id, flow?_change_remove, not_adds_remove]

theorem bears_change_of_ne {r : Registry R} {c : Change R} {id : FlowId} {name : String}
    (h : id ≠ c.id) : (r.change c).Bears id name ↔ r.Bears id name := by
  rw [Bears, Bears, flow?_change_of_ne r h]

/-- Besides the flow that a change adds, the flows under other numbers have the name. -/
theorem exists_bears_change {r : Registry R} {c : Change R} {name : String} :
    (∃ id, (r.change c).Bears id name) ↔ c.Adds name ∨ ∃ id, id ≠ c.id ∧ r.Bears id name := by
  constructor
  · rintro ⟨id, hid⟩
    by_cases he : id = c.id
    · exact .inl (bears_change_self.mp (he ▸ hid))
    · exact .inr ⟨id, he, (bears_change_of_ne he).mp hid⟩
  · rintro (ha | ⟨id, he, hid⟩)
    · exact ⟨c.id, bears_change_self.mpr ha⟩
    · exact ⟨id, (bears_change_of_ne he).mpr hid⟩

/-- The name of the flow that gives way is the only one that leaves the index. -/
theorem get?_forgetName_of_bears {r : Registry R} {id : FlowId} {name : String}
    (h : r.Bears id name) : (r.forgetName id).get? name = none := by
  obtain ⟨f, hf, rfl⟩ := h
  simp [forgetName, hf]

theorem get?_forgetName_of_not_bears {r : Registry R} {id : FlowId} {name : String}
    (h : ¬ r.Bears id name) : (r.forgetName id).get? name = r.flowNames.get? name := by
  unfold forgetName
  cases hf : r.flow? id with
  | none => rfl
  | some f => exact Table.get?_erase_of_ne r.flowNames fun he => h ⟨f, hf, he.symm⟩

theorem index_of_adds {r : Registry R} {c : Change R} {name : String} (h : c.Adds name) :
    (r.change c).flowNames.get? name = some c.id := by
  obtain ⟨f, rfl, rfl⟩ := h
  exact Table.get?_insert_self (r.forgetName f.id) f.name f.id

theorem index_of_not_adds {r : Registry R} {c : Change R} {name : String} (h : ¬ c.Adds name) :
    (r.change c).flowNames.get? name = (r.forgetName c.id).get? name := by
  cases c with
  | add f =>
    exact Table.get?_insert_of_ne (r.forgetName f.id) (fun he => h (adds_add.mpr he.symm)) f.id
  | remove id => rfl

/-- Flows are registered under their own numbers, and the index leads to flows with the name. -/
structure Indexed (r : Registry R) : Prop where
  keyed : ∀ id f, r.flow? id = some f → f.id = id
  sound : ∀ name id, r.flowNames.get? name = some id → r.Bears id name

theorem indexed_empty : (empty : Registry R).Indexed where
  keyed := nofun
  sound := nofun

theorem Indexed.change {r : Registry R} (h : r.Indexed) (c : Change R) : (r.change c).Indexed where
  keyed id f hf := by
    by_cases hid : id = c.id
    · subst hid
      cases c with
      | add g =>
        rw [Change.id, flow?_change_add] at hf
        cases hf
        rfl
      | remove id =>
        rw [Change.id, flow?_change_remove] at hf
        cases hf
    · exact h.keyed id f (flow?_change_of_ne r hid ▸ hf)
  sound name id hid := by
    by_cases ha : c.Adds name
    · rw [index_of_adds ha] at hid
      cases hid
      exact bears_change_self.mpr ha
    · rw [index_of_not_adds ha] at hid
      have hb : ¬ r.Bears c.id name := fun hb => by
        rw [get?_forgetName_of_bears hb] at hid
        cases hid
      rw [get?_forgetName_of_not_bears hb] at hid
      have hold := h.sound name id hid
      exact (bears_change_of_ne fun he => hb (he ▸ hold)).mpr hold

theorem history_concat (changes : List (Change R)) (c : Change R) :
    history (changes ++ [c]) = (history changes).change c := by
  rw [history, List.foldl_append]
  rfl

theorem indexed_history (changes : List (Change R)) : (history changes).Indexed := by
  induction changes using List.reverseRecOn with
  | nil => exact indexed_empty
  | append_singleton changes c ih => exact history_concat changes c ▸ ih.change c

theorem withdrawn_concat {changes : List (Change R)} {c : Change R} {name : String} :
    Withdrawn (changes ++ [c]) name ↔
      c.Withdraws (history changes) name ∨ Withdrawn changes name ∧ ¬ c.Adds name := by
  constructor
  · rintro ⟨before, d, after, he, hd, hafter⟩
    rcases List.eq_nil_or_concat after with rfl | ⟨rest, last, rfl⟩
    · obtain ⟨rfl, hcd⟩ := List.append_inj' he rfl
      cases hcd
      exact .inl hd
    · rw [List.concat_eq_append, ← List.cons_append, ← List.append_assoc] at he
      obtain ⟨rfl, hcd⟩ := List.append_inj' he rfl
      cases hcd
      exact .inr ⟨⟨before, d, rest, rfl, hd, fun c' hc' => hafter c' (by simp [hc'])⟩,
        hafter c (by simp)⟩
  · rintro (hd | ⟨⟨before, d, after, rfl, hd, hafter⟩, hc⟩)
    · exact ⟨changes, c, [], rfl, hd, nofun⟩
    · refine ⟨before, d, after ++ [c], by simp, hd, fun c' hc' => ?_⟩
      rcases List.mem_append.mp hc' with h | h
      · exact hafter c' h
      · exact List.mem_singleton.mp h ▸ hc

/-- A name that no flow has is not in the index; one that a flow has is, unless it was withdrawn. -/
theorem mem_index_iff (changes : List (Change R)) (name : String) :
    ((history changes).flowNames.get? name).isSome ↔
      (∃ id, (history changes).Bears id name) ∧ ¬ Withdrawn changes name := by
  induction changes using List.reverseRecOn with
  | nil => simp [history, empty, Bears, flow?]
  | append_singleton changes c ih =>
    rw [history_concat, withdrawn_concat, exists_bears_change]
    by_cases ha : c.Adds name
    · have hw : ¬ c.Withdraws (history changes) name := fun hw => hw.gone ha
      simp [index_of_adds ha, ha, hw]
    rw [index_of_not_adds ha]
    by_cases hb : (history changes).Bears c.id name
    · rw [get?_forgetName_of_bears hb]
      simp only [Option.isSome_none, Bool.false_eq_true, false_iff, not_and, not_not]
      exact fun hs => .inl ⟨hb, hs.resolve_left ha, ha⟩
    · have hw : ¬ c.Withdraws (history changes) name := fun hw => hb hw.held
      have hall : (∃ id, (history changes).Bears id name) ↔
          ∃ id, id ≠ c.id ∧ (history changes).Bears id name := by
        constructor
        · rintro ⟨id, hid⟩
          exact ⟨id, fun he => hb (he ▸ hid), hid⟩
        · rintro ⟨id, _, hid⟩
          exact ⟨id, hid⟩
      simp only [get?_forgetName_of_not_bears hb, ih, hall, ha, hw, false_or, not_false_eq_true,
        and_true]

/-- A lookup finds what the index leads to. -/
theorem isSome_flowNamed? {r : Registry R} (h : r.Indexed) (name : String) :
    (r.flowNamed? name).isSome = (r.flowNames.get? name).isSome := by
  unfold flowNamed?
  cases hid : r.flowNames.get? name with
  | none => rfl
  | some id =>
    obtain ⟨f, hf, _⟩ := h.sound name id hid
    simp [hf]

/-- A lookup by name returns a registered flow with the name. It returns one if there is any, unless
a flow that shared the name has given it up since the name was last added. -/
theorem flowNamed?_history (changes : List (Change R)) (name : String) :
    (∀ f, (history changes).flowNamed? name = some f →
      f.name = name ∧ (history changes).flow? f.id = some f) ∧
    (((history changes).flowNamed? name).isSome ↔
      (∃ id f, (history changes).flow? id = some f ∧ f.name = name) ∧
        ¬ Withdrawn changes name) := by
  have hi := indexed_history changes
  refine ⟨fun f hf => ?_, ?_⟩
  · obtain ⟨id, hid, hfid⟩ := Option.bind_eq_some_iff.mp hf
    obtain ⟨g, hg, hname⟩ := hi.sound name id hid
    obtain rfl : g = f := Option.some.inj (hg.symm.trans hfid)
    exact ⟨hname, hi.keyed id g hg ▸ hg⟩
  · rw [isSome_flowNamed? hi]
    exact mem_index_iff changes name

/-- Two flows take one name. Once the second is removed,
the first still has the name, and a lookup of the name finds nothing. -/
theorem shared_name_lost :
    let first : Flow Nat := ⟨1, "a", 1, 2, 10, none⟩
    let r := history [.add first, .add ⟨2, "a", 3, 4, 20, none⟩, .remove 2]
    r.flow? 1 = some first ∧ first.name = "a" ∧ r.flowNamed? "a" = none := by
  refine ⟨rfl, rfl, ?_⟩
  decide +kernel

end Registry

end FlowFabric
