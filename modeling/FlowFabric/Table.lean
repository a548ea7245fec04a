/-! A finite map that remembers the order in which its keys first arrived. Sums over a table run in
this order, so it is part of what a table is. -/

namespace FlowFabric

/-- A finite map from keys to values, its keys in order of arrival. -/
structure Table (κ α : Type) where
  entries : List (κ × α)
  keys_nodup : (entries.map Prod.fst).Nodup

namespace Table

variable {κ α : Type} [DecidableEq κ]

/-- The value of the first entry with the key. -/
def lookup (k : κ) : List (κ × α) → Option α
  | [] => none
  | (k', v) :: rest => if k' = k then some v else lookup k rest

/-- Replaces the value of the key where it stands, or adds an entry at the end. -/
def put (k : κ) (v : α) : List (κ × α) → List (κ × α)
  | [] => [(k, v)]
  | (k', v') :: rest => if k' = k then (k, v) :: rest else (k', v') :: put k v rest

/-- Drops the entries of the key. -/
def drop (k : κ) (l : List (κ × α)) : List (κ × α) :=
  l.filter (fun e => decide (e.1 ≠ k))

theorem mem_keys_put {k k' : κ} {v : α} {l : List (κ × α)} :
    k' ∈ (put k v l).map Prod.fst ↔ k' = k ∨ k' ∈ l.map Prod.fst := by
  induction l with
  | nil => simp [put]
  | cons e rest ih =>
    obtain ⟨c, w⟩ := e
    by_cases h : c = k
    · simp [put, h]
    · simp only [put, if_neg h, List.map_cons, List.mem_cons, ih]
      exact or_left_comm

theorem nodup_put {k : κ} {v : α} {l : List (κ × α)} (h : (l.map Prod.fst).Nodup) :
    ((put k v l).map Prod.fst).Nodup := by
  induction l with
  | nil => simp [put]
  | cons e rest ih =>
    obtain ⟨c, w⟩ := e
    simp only [List.map_cons, List.nodup_cons] at h
    by_cases hc : c = k
    · subst hc
      simp only [put, if_true, List.map_cons, List.nodup_cons]
      exact h
    · simp only [put, if_neg hc, List.map_cons, List.nodup_cons, mem_keys_put]
      exact ⟨fun hm => hm.elim hc h.1, ih h.2⟩

omit [DecidableEq κ] in
theorem nodup_filter {p : κ × α → Bool} {l : List (κ × α)} (h : (l.map Prod.fst).Nodup) :
    ((l.filter p).map Prod.fst).Nodup :=
  List.Nodup.sublist (List.filter_sublist.map _) h

def empty : Table κ α := ⟨[], List.nodup_nil⟩

instance : EmptyCollection (Table κ α) := ⟨empty⟩

instance : Inhabited (Table κ α) := ⟨empty⟩

def get? (t : Table κ α) (k : κ) : Option α := lookup k t.entries

def contains (t : Table κ α) (k : κ) : Bool := (t.get? k).isSome

def insert (t : Table κ α) (k : κ) (v : α) : Table κ α :=
  ⟨put k v t.entries, nodup_put t.keys_nodup⟩

def erase (t : Table κ α) (k : κ) : Table κ α :=
  ⟨drop k t.entries, nodup_filter t.keys_nodup⟩

/-- Keeps the entries that satisfy the test. -/
def filter (t : Table κ α) (p : κ × α → Bool) : Table κ α :=
  ⟨t.entries.filter p, nodup_filter t.keys_nodup⟩

/-- Changes the value of the key; a table without the key stays as it is. -/
def modify (t : Table κ α) (k : κ) (f : α → α) : Table κ α :=
  match t.get? k with
  | some v => t.insert k (f v)
  | none => t

def map {β : Type} (f : κ → α → β) (t : Table κ α) : Table κ β where
  entries := t.entries.map (fun e => (e.1, f e.1 e.2))
  keys_nodup := by
    rw [List.map_map]
    exact t.keys_nodup

/-- The keys in order of arrival. -/
def keys (t : Table κ α) : List κ := t.entries.map Prod.fst

/-- The values in the order of their keys. -/
def values (t : Table κ α) : List α := t.entries.map Prod.snd

def size (t : Table κ α) : Nat := t.entries.length

def isEmpty (t : Table κ α) : Bool := t.entries.isEmpty

omit [DecidableEq κ] in
@[ext] theorem ext {s t : Table κ α} (h : s.entries = t.entries) : s = t := by
  cases s; cases t; simp_all

instance [DecidableEq α] : DecidableEq (Table κ α) := fun s t =>
  decidable_of_iff (s.entries = t.entries) ⟨ext, congrArg entries⟩

theorem lookup_put_self (k : κ) (v : α) (l : List (κ × α)) : lookup k (put k v l) = some v := by
  induction l with
  | nil => simp [put, lookup]
  | cons e rest ih =>
    obtain ⟨c, w⟩ := e
    by_cases h : c = k <;> simp [put, lookup, h, ih]

theorem lookup_put_of_ne {k k' : κ} (h : k' ≠ k) (v : α) (l : List (κ × α)) :
    lookup k' (put k v l) = lookup k' l := by
  induction l with
  | nil => simp [put, lookup, h.symm]
  | cons e rest ih =>
    obtain ⟨c, w⟩ := e
    by_cases hc : c = k
    · subst hc
      simp [put, lookup, h.symm]
    · simp only [put, if_neg hc, lookup, ih]

theorem lookup_drop_self (k : κ) (l : List (κ × α)) : lookup k (drop k l) = none := by
  induction l with
  | nil => rfl
  | cons e rest ih =>
    obtain ⟨c, w⟩ := e
    by_cases h : c = k
    · simpa [drop, h] using ih
    · simpa [drop, lookup, h] using ih

theorem lookup_drop_of_ne {k k' : κ} (h : k' ≠ k) (l : List (κ × α)) :
    lookup k' (drop k l) = lookup k' l := by
  induction l with
  | nil => rfl
  | cons e rest ih =>
    obtain ⟨c, w⟩ := e
    by_cases hc : c = k
    · subst hc
      simpa [drop, lookup, h.symm] using ih
    · by_cases hk : c = k'
      · simp [drop, lookup, hk, h]
      · simpa [drop, lookup, hc, hk] using ih

theorem lookup_eq_none_iff {k : κ} {l : List (κ × α)} :
    lookup k l = none ↔ k ∉ l.map Prod.fst := by
  induction l with
  | nil => simp [lookup]
  | cons e rest ih =>
    obtain ⟨c, w⟩ := e
    by_cases h : c = k
    · simp [lookup, h]
    · simp only [lookup, if_neg h, ih, List.map_cons, List.mem_cons, not_or]
      exact ⟨fun hr => ⟨fun he => h he.symm, hr⟩, fun hr => hr.2⟩

theorem put_of_not_mem {k : κ} {v : α} {l : List (κ × α)} (h : k ∉ l.map Prod.fst) :
    put k v l = l ++ [(k, v)] := by
  induction l with
  | nil => rfl
  | cons e rest ih =>
    obtain ⟨c, w⟩ := e
    simp only [List.map_cons, List.mem_cons, not_or] at h
    simp only [put, if_neg (fun hc : c = k => h.1 hc.symm), ih h.2, List.cons_append]

theorem drop_of_not_mem {k : κ} {l : List (κ × α)} (h : k ∉ l.map Prod.fst) : drop k l = l := by
  refine List.filter_eq_self.2 fun e he => ?_
  simp only [ne_eq, decide_eq_true_eq]
  exact fun hk => h (List.mem_map.2 ⟨e, he, hk⟩)

@[simp] theorem get?_empty (k : κ) : (empty : Table κ α).get? k = none := rfl

@[simp] theorem get?_insert_self (t : Table κ α) (k : κ) (v : α) : (t.insert k v).get? k = some v :=
  lookup_put_self k v t.entries

theorem get?_insert_of_ne (t : Table κ α) {k k' : κ} (h : k' ≠ k) (v : α) :
    (t.insert k v).get? k' = t.get? k' :=
  lookup_put_of_ne h v t.entries

@[simp] theorem get?_erase_self (t : Table κ α) (k : κ) : (t.erase k).get? k = none :=
  lookup_drop_self k t.entries

theorem get?_erase_of_ne (t : Table κ α) {k k' : κ} (h : k' ≠ k) :
    (t.erase k).get? k' = t.get? k' :=
  lookup_drop_of_ne h t.entries

theorem get?_eq_none_iff {t : Table κ α} {k : κ} : t.get? k = none ↔ k ∉ t.keys :=
  lookup_eq_none_iff

theorem contains_iff_mem_keys {t : Table κ α} {k : κ} : t.contains k = true ↔ k ∈ t.keys := by
  rw [contains, Option.isSome_iff_ne_none, ne_eq, get?_eq_none_iff, Decidable.not_not]

theorem mem_keys_insert {t : Table κ α} {k k' : κ} {v : α} :
    k' ∈ (t.insert k v).keys ↔ k' = k ∨ k' ∈ t.keys :=
  mem_keys_put

theorem lookup_of_mem {k : κ} {v : α} {l : List (κ × α)} (h : (l.map Prod.fst).Nodup)
    (hm : (k, v) ∈ l) : lookup k l = some v := by
  induction l with
  | nil => cases hm
  | cons e rest ih =>
    obtain ⟨c, w⟩ := e
    simp only [List.map_cons, List.nodup_cons] at h
    rcases List.mem_cons.1 hm with he | hr
    · cases he
      simp [lookup]
    · have hc : c ≠ k := fun hck => h.1 (hck ▸ List.mem_map.2 ⟨(k, v), hr, rfl⟩)
      simp [lookup, hc, ih h.2 hr]

theorem mem_of_lookup {k : κ} {v : α} {l : List (κ × α)} (h : lookup k l = some v) :
    (k, v) ∈ l := by
  induction l with
  | nil => cases h
  | cons e rest ih =>
    obtain ⟨c, w⟩ := e
    by_cases hc : c = k
    · simp only [lookup, if_pos hc, Option.some.injEq] at h
      subst hc
      subst h
      exact List.mem_cons_self
    · simp only [lookup, if_neg hc] at h
      exact List.mem_cons_of_mem _ (ih h)

/-- A table and its entries say the same. -/
theorem get?_eq_some_iff {t : Table κ α} {k : κ} {v : α} : t.get? k = some v ↔ (k, v) ∈ t.entries :=
  ⟨mem_of_lookup, lookup_of_mem t.keys_nodup⟩

theorem exists_of_mem_values {t : Table κ α} {v : α} (h : v ∈ t.values) :
    ∃ k, t.get? k = some v := by
  obtain ⟨e, he, rfl⟩ := List.mem_map.mp h
  exact ⟨e.1, get?_eq_some_iff.mpr he⟩

theorem lookup_map {β : Type} (f : κ → α → β) (k : κ) (l : List (κ × α)) :
    lookup k (l.map fun e => (e.1, f e.1 e.2)) = (lookup k l).map (f k) := by
  induction l with
  | nil => rfl
  | cons e rest ih =>
    obtain ⟨c, w⟩ := e
    by_cases h : c = k
    · subst h
      simp [lookup]
    · simp [lookup, h, ih]

@[simp] theorem get?_map {β : Type} (f : κ → α → β) (t : Table κ α) (k : κ) :
    (t.map f).get? k = (t.get? k).map (f k) :=
  lookup_map f k t.entries

/-- A filter on keys answers for the keys that it keeps. -/
theorem get?_filter_key (p : κ → Bool) (t : Table κ α) (k : κ) :
    (t.filter fun e => p e.1).get? k = if p k then t.get? k else none := by
  show lookup k (t.entries.filter fun e => p e.1) = _
  unfold get?
  induction t.entries with
  | nil => simp [lookup]
  | cons e rest ih =>
    obtain ⟨c, w⟩ := e
    by_cases hc : c = k
    · subst hc
      by_cases hp : p c <;> simp_all [lookup]
    · by_cases hp : p c <;> simp_all [lookup]

@[simp] theorem get?_modify_self (t : Table κ α) (k : κ) (f : α → α) :
    (t.modify k f).get? k = (t.get? k).map f := by
  unfold modify
  cases h : t.get? k with
  | none => simp [h]
  | some v => simp

theorem get?_modify_of_ne (t : Table κ α) {k k' : κ} (h : k' ≠ k) (f : α → α) :
    (t.modify k f).get? k' = t.get? k' := by
  unfold modify
  cases t.get? k with
  | none => rfl
  | some v => exact get?_insert_of_ne t h (f v)

theorem put_put_self (k : κ) (v w : α) (l : List (κ × α)) : put k v (put k w l) = put k v l := by
  induction l with
  | nil => simp [put]
  | cons e rest ih =>
    obtain ⟨c, u⟩ := e
    by_cases h : c = k
    · simp [put, h]
    · simp only [put, if_neg h, ih]

@[simp] theorem insert_insert_self (t : Table κ α) (k : κ) (v w : α) :
    (t.insert k w).insert k v = t.insert k v :=
  ext (put_put_self k v w t.entries)

@[simp] theorem erase_erase_self (t : Table κ α) (k : κ) : (t.erase k).erase k = t.erase k :=
  ext (by simp [erase, drop])

theorem put_eq_map {k : κ} {v : α} {l : List (κ × α)} (hd : (l.map Prod.fst).Nodup)
    (hk : k ∈ l.map Prod.fst) : put k v l = l.map fun e => if e.1 = k then (k, v) else e := by
  induction l with
  | nil => cases hk
  | cons e rest ih =>
    obtain ⟨c, w⟩ := e
    simp only [List.map_cons, List.nodup_cons] at hd
    by_cases h : c = k
    · subst h
      have hr : rest.map (fun e => if e.1 = c then (c, v) else e) = rest := by
        conv => rhs; rw [← List.map_id rest]
        refine List.map_congr_left fun e he => ?_
        have hc : e.1 ≠ c := fun hc => hd.1 (hc ▸ List.mem_map.2 ⟨e, he, rfl⟩)
        rw [if_neg hc, id]
      simp [put, hr]
    · have hr : k ∈ rest.map Prod.fst := by
        rcases List.mem_cons.1 hk with hc | hr
        · exact absurd hc.symm h
        · exact hr
      simp [put, h, ih hd.2 hr]

/-- Writing to a key that is present moves nothing. -/
theorem entries_insert_of_mem {t : Table κ α} {k : κ} (h : k ∈ t.keys) (v : α) :
    (t.insert k v).entries = t.entries.map fun e => if e.1 = k then (k, v) else e :=
  put_eq_map t.keys_nodup h

/-- Writing the value that is there changes nothing. -/
theorem insert_of_get? {t : Table κ α} {k : κ} {v : α} (h : t.get? k = some v) :
    t.insert k v = t := by
  have hk : k ∈ t.keys := contains_iff_mem_keys.1 (by rw [contains, h]; rfl)
  ext1
  rw [entries_insert_of_mem hk]
  conv => rhs; rw [← List.map_id t.entries]
  refine List.map_congr_left fun e he => ?_
  by_cases hc : e.1 = k
  · have hv : t.get? k = some e.2 := hc ▸ get?_eq_some_iff.2 he
    rw [if_pos hc, ← hc, ← Option.some.inj (hv.symm.trans h), id]
  · rw [if_neg hc, id]

theorem entries_modify (t : Table κ α) (k : κ) (f : α → α) :
    (t.modify k f).entries = t.entries.map fun e => if e.1 = k then (e.1, f e.2) else e := by
  unfold modify
  cases hg : t.get? k with
  | none =>
    have hk : k ∉ t.keys := get?_eq_none_iff.1 hg
    have hm : t.entries.map (fun e => if e.1 = k then (e.1, f e.2) else e) = t.entries.map id := by
      refine List.map_congr_left fun e he => ?_
      have hc : e.1 ≠ k := fun hc => hk (hc ▸ List.mem_map.2 ⟨e, he, rfl⟩)
      rw [if_neg hc, id]
    rw [hm, List.map_id]
  | some v =>
    have hk : k ∈ t.keys := contains_iff_mem_keys.1 (by rw [contains, hg]; rfl)
    show (t.insert k (f v)).entries = _
    rw [entries_insert_of_mem hk]
    refine List.map_congr_left fun e he => ?_
    by_cases hc : e.1 = k
    · have hv : t.get? k = some e.2 := hc ▸ get?_eq_some_iff.2 he
      rw [if_pos hc, if_pos hc, hc, ← Option.some.inj (hg.symm.trans hv)]
    · rw [if_neg hc, if_neg hc]

/-- Making the same change once more changes nothing. -/
theorem modify_modify_self {f : α → α} (hf : ∀ v, f (f v) = f v) (t : Table κ α) (k : κ) :
    (t.modify k f).modify k f = t.modify k f := by
  ext1
  rw [entries_modify, entries_modify, List.map_map]
  refine List.map_congr_left fun e _ => ?_
  by_cases hc : e.1 = k <;> simp [hc, hf]

/-- Changes of two keys can be made in either order. -/
theorem modify_modify_of_ne {k k' : κ} (h : k ≠ k') (f g : α → α) (t : Table κ α) :
    (t.modify k f).modify k' g = (t.modify k' g).modify k f := by
  ext1
  rw [entries_modify, entries_modify, entries_modify, entries_modify, List.map_map, List.map_map]
  refine List.map_congr_left fun e _ => ?_
  by_cases hk : e.1 = k
  · simp [hk, h]
  · by_cases hk' : e.1 = k' <;> simp [hk, hk', h.symm]

theorem filter_put {p : κ → Bool} {k : κ} (h : p k = false) (v : α) (l : List (κ × α)) :
    (put k v l).filter (fun e => p e.1) = l.filter fun e => p e.1 := by
  induction l with
  | nil => simp [put, h]
  | cons e rest ih =>
    obtain ⟨c, w⟩ := e
    by_cases hc : c = k
    · subst hc
      simp [put, h]
    · simp [put, hc, List.filter_cons, ih]

/-- A key that a filter refuses may as well not be written. -/
theorem filter_insert {p : κ → Bool} {k : κ} (h : p k = false) (t : Table κ α) (v : α) :
    ((t.insert k v).filter fun e => p e.1) = t.filter fun e => p e.1 :=
  ext (filter_put h v t.entries)

theorem size_erase_lt {t : Table κ α} {k : κ} {v : α} (h : t.get? k = some v) :
    (t.erase k).size < t.size := by
  apply List.length_filter_lt_length_iff_exists.mpr
  exact ⟨(k, v), get?_eq_some_iff.mp h, by simp⟩

/-- A key that was absent goes to the end. -/
theorem entries_insert_of_not_mem {t : Table κ α} {k : κ} (h : k ∉ t.keys) (v : α) :
    (t.insert k v).entries = t.entries ++ [(k, v)] :=
  put_of_not_mem h

end Table

end FlowFabric
