import FlowFabric.Proofs.Queue.Flushes

namespace FlowFabric

namespace Exact

/-- A minimum is no more than any number among its values. -/
theorem AtMost.foldl_min_of_mem {l : List Exact} {v : ℚ} (hv : fin v ∈ l) (x : Exact) :
    (l.foldl Quantity.min x).AtMost v := by
  induction l generalizing x with
  | nil => cases hv
  | cons y rest ih =>
    rcases List.mem_cons.mp hv with rfl | hrest
    · have hfirst : (Quantity.min x (fin v)).AtMost v := by
        cases x with
        | fin p =>
          rw [min_fin]
          exact Or.inr ⟨p ⊓ v, rfl, inf_le_right⟩
        | posInf => exact Or.inr ⟨v, min_posInf_left, le_rfl⟩
        | negInf => exact Or.inl rfl
        | undef => exact Or.inr ⟨v, if_pos (fin_le_fin.mpr le_rfl), le_rfl⟩
      exact hfirst.foldl_min id rest
    · exact ih hrest _

end Exact

namespace Queue

section Reports

variable {R : Type} [Quantity R] {q q' q'' : Queue R} {limit : Option Nat} {now time : R}
  {done lost : Transmission R → Prop}

/-- What failures and a round keep is kept by any rounds. -/
theorem rounds_induction {P : Queue R → Prop} (hexpire : ∀ q now, P q → P (q.expire now))
    (hround : ∀ q now, P q → P (q.round limit now time).1) (fuel : Nat) (h : P q) (now : R) :
    P (rounds limit time fuel q now) := by
  induction fuel generalizing q now with
  | zero => exact hexpire q time h
  | succ fuel ih =>
    unfold rounds
    dsimp only
    split
    · exact hexpire q now h
    · exact ih (hround _ now (hexpire q now h)) _

theorem mem_transmit {n : Nat} {amount : R} {l : List (Transmission R)} {t : Transmission R}
    (ht : t ∈ transmit n amount l) : ∃ u ∈ l, ∃ r, t = { u with remaining := r } := by
  rcases List.mem_append.mp ht with ht | ht
  · obtain ⟨u, hu, rfl⟩ := List.mem_map.mp ht
    exact ⟨u, List.mem_of_mem_take hu, _, rfl⟩
  · exact ⟨t, List.mem_of_mem_drop ht, t.remaining, rfl⟩

/-- What is in flight after a round was in flight before, and at most less of it remains. -/
theorem mem_inFlight_round {t : Transmission R} (ht : t ∈ (q.round limit now time).1.inFlight) :
    ∃ u ∈ q.inFlight, ∃ r, t = { u with remaining := r } :=
  mem_transmit (mem_of_mem_retire ht)

/-- What has ended in between is only added to the lists of the queue,
and it has the properties of what is done or lost. -/
structure Ends (done lost : Transmission R → Prop) (q q' : Queue R) : Prop where
  completed : ∃ l, q'.completed = q.completed ++ l ∧ ∀ t ∈ l, done t
  failed : ∃ l, q'.failed = q.failed ++ l ∧ ∀ t ∈ l, lost t

omit [Quantity R] in
/-- Nothing has ended if nothing has been added. -/
theorem Ends.of_eq (hcompleted : q'.completed = q.completed) (hfailed : q'.failed = q.failed) :
    Ends done lost q q' where
  completed := ⟨[], by rw [hcompleted, List.append_nil], fun t ht => by cases ht⟩
  failed := ⟨[], by rw [hfailed, List.append_nil], fun t ht => by cases ht⟩

omit [Quantity R] in
theorem Ends.trans (h : Ends done lost q q') (h' : Ends done lost q' q'') :
    Ends done lost q q'' := by
  obtain ⟨⟨l, hl, hdone⟩, m, hm, hlost⟩ := h
  obtain ⟨⟨l', hl', hdone'⟩, m', hm', hlost'⟩ := h'
  refine ⟨⟨l ++ l', ?_, fun t ht => ?_⟩, m ++ m', ?_, fun t ht => ?_⟩
  · rw [hl', hl, List.append_assoc]
  · exact (List.mem_append.mp ht).elim (hdone t) (hdone' t)
  · rw [hm', hm, List.append_assoc]
  · exact (List.mem_append.mp ht).elim (hlost t) (hlost' t)

theorem ends_expire (h : ∀ t ∈ q.inFlight, isDue now t = true →
    lost { t with finish := some now }) : Ends done lost q (q.expire now) where
  completed := ⟨[], (List.append_nil _).symm, fun t ht => by cases ht⟩
  failed := by
    refine ⟨_, rfl, fun t ht => ?_⟩
    obtain ⟨u, hu, rfl⟩ := List.mem_map.mp ht
    obtain ⟨hmem, hdue⟩ := List.mem_filter.mp hu
    exact h u hmem hdue

theorem ends_round (h : ∀ t ∈ q.inFlight,
      done { t with remaining := 0, finish := some (q.round limit now time).2 }) :
    Ends done lost q (q.round limit now time).1 where
  completed := by
    refine ⟨_, rfl, fun t ht => ?_⟩
    obtain ⟨u, hu, rfl⟩ := mem_retire_done ht
    obtain ⟨v, hv, r, rfl⟩ := mem_transmit hu
    exact h v hv
  failed := ⟨[], (List.append_nil _).symm, fun t ht => by cases ht⟩

/-- What completes in a round and what stays in flight are together as many as before. -/
theorem length_round (q : Queue R) (limit : Option Nat) (now time : R) :
    (q.round limit now time).1.inFlight.length + (q.round limit now time).1.completed.length =
      q.inFlight.length + q.completed.length := by
  have hcount := congrArg Multiset.card (contents_round q limit now time)
  have hfailed : (q.round limit now time).1.failed = q.failed := rfl
  unfold contents at hcount
  rw [hfailed] at hcount
  simp only [Multiset.card_add, card_origins] at hcount
  omega

theorem length_expire_le (q : Queue R) (now : R) :
    (q.expire now).inFlight.length ≤ q.inFlight.length :=
  List.length_filter_le _ _

/-- What is due leaves. -/
theorem length_expire_lt (h : ∃ t ∈ q.inFlight, isDue now t = true) :
    (q.expire now).inFlight.length < q.inFlight.length := by
  obtain ⟨t, ht, hdue⟩ := h
  refine List.length_filter_lt_length_iff_exists.mpr ⟨t, ht, ?_⟩
  rw [hdue]
  exact Bool.false_ne_true

end Reports

open Exact (fin posInf)

open Quantity (isFinite)

variable {q : Queue Exact} {limit : Option Nat} {a b c d r w : ℚ}

/-- No round goes beyond a deadline that is ahead, the tolerance apart. -/
theorem round_le_deadline {t : Transmission Exact} (ht : t ∈ q.inFlight) (hd : t.deadline = fin d)
    (had : a ≤ d) (hc : (q.round limit (fin a) (fin b)).2 = fin c) : c ≤ d + 1 / 10 ^ 9 := by
  have hevent : fin (d - a) ∈ q.events limit (fin a) := by
    refine List.mem_append_right _ (List.mem_map.mpr ⟨t, ht, ?_⟩)
    rw [hd, Exact.fin_sub_fin]
  obtain ⟨s, hs, _, hle⟩ := (Exact.AtMost.foldl_min_of_mem hevent (fin b - fin a)).max_zero
    (sub_nonneg.mpr had)
  rw [← step_eq] at hs
  have hend : stepEnd (fin a) (fin b) (q.step limit (fin a) (fin b)) = fin c := hc
  unfold stepEnd at hend
  rw [hs, Exact.fin_add_fin, Exact.fin_sub_fin, Exact.tolerance_eq] at hend
  split at hend
  · rename_i hnear
    rw [Exact.fin_le_fin] at hnear
    have hb := Exact.fin.inj hend
    linarith
  · have hs' := Exact.fin.inj hend
    have hpos : (0 : ℚ) ≤ 1 / 10 ^ 9 := by norm_num
    linarith

/-- A round that does not reach the end of the interval completes something,
or something is due where it ends. -/
theorem round_ends (hrate : q.rate limit = fin r) (hab : a ≤ b) :
    ∃ c : ℚ, (q.round limit (fin a) (fin b)).2 = fin c ∧ a ≤ c ∧ c ≤ b ∧
      (c = b ∨ q.completed.length < (q.round limit (fin a) (fin b)).1.completed.length ∨
        ∃ t ∈ (q.round limit (fin a) (fin b)).1.inFlight, isDue (fin c) t = true) := by
  obtain ⟨s, hs, hs0, hsb⟩ := step_bounds q limit hab
  obtain ⟨c, hend, hlow, hhigh⟩ := stepEnd_eq hsb
  have hreached : (q.round limit (fin a) (fin b)).2 = fin c := by
    show stepEnd (fin a) (fin b) (q.step limit (fin a) (fin b)) = fin c
    rw [hs, hend]
  refine ⟨c, hreached, by linarith, hhigh, ?_⟩
  have hreports := (reports_round q limit (fin a) (fin b)).completed
  by_cases hnone : (q.round limit (fin a) (fin b)).1.completed.length ≤ q.completed.length
  · by_cases hdue : ∀ t ∈ (q.round limit (fin a) (fin b)).1.inFlight, isDue (fin c) t = false
    · -- Without either the step goes all the way.
      left
      have hsilent : q.Silent (q.round limit (fin a) (fin b)).1 :=
        ⟨(hreports.eq_of_length_le hnone).symm, rfl⟩
      obtain ⟨-, hongoing⟩ := round_of_silent hsilent (hreached ▸ hdue)
      have hstep := step_of_ongoing hrate hab hongoing
      rw [hs] at hstep
      have hwhole := Exact.fin.inj hstep
      linarith
    · right
      right
      push Not at hdue
      obtain ⟨t, ht, hdue⟩ := hdue
      exact ⟨t, ht, Bool.eq_true_of_not_eq_false hdue⟩
  · exact Or.inr (Or.inl (not_le.mp hnone))

/-- So it leaves less in flight, once what is due has failed. -/
theorem round_progress (hrate : q.rate limit = fin r) (hab : a ≤ b) :
    ∃ c : ℚ, (q.round limit (fin a) (fin b)).2 = fin c ∧ a ≤ c ∧ c ≤ b ∧
      (c = b ∨ ((q.round limit (fin a) (fin b)).1.expire (fin c)).inFlight.length <
        q.inFlight.length) := by
  obtain ⟨c, hreached, hac, hcb, hends⟩ := round_ends hrate hab
  refine ⟨c, hreached, hac, hcb, hends.imp_right fun hends => ?_⟩
  have hcount := length_round q limit (fin a) (fin b)
  rcases hends with hcompleted | hdue
  · have hkept := length_expire_le (q.round limit (fin a) (fin b)).1 (fin c)
    omega
  · have hfewer := length_expire_lt hdue
    have hgrown := (reports_round q limit (fin a) (fin b)).completed.length_le
    omega

/-- Something that holds at the beginning and is kept by each round holds when the last one has
begun, if there is one round more than transmissions in flight. The last one finds the end of the
interval reached or nothing in flight. -/
theorem rounds_reach {P : Queue Exact → ℚ → Prop} (hserved : ∀ n, n ≠ 0 → served limit n ≠ 0)
    (hround : ∀ q a c, P q a → a < b → a ≤ c → c ≤ b → (q.expire (fin a)).inFlight ≠ [] →
      ((q.expire (fin a)).round limit (fin a) (fin b)).2 = fin c →
      P ((q.expire (fin a)).round limit (fin a) (fin b)).1 c)
    {fuel : Nat} (hw : q.bandwidth = fin w) (h : P q a) (hab : a ≤ b)
    (hfuel : a = b ∨ (q.expire (fin a)).inFlight.length < fuel) :
    ∃ q' c, P q' c ∧ (c = b ∨ (q'.expire (fin c)).inFlight = []) ∧
      rounds limit (fin b) fuel q (fin a) = q'.expire (fin c) := by
  -- The induction is on the rounds that are left. There are more of them than transmissions that
  -- are not due, unless the end has been reached.
  induction fuel generalizing q a with
  | zero =>
    obtain rfl := hfuel.resolve_right (Nat.not_lt_zero _)
    exact ⟨q, a, h, Or.inl rfl, rfl⟩
  | succ fuel ih =>
    unfold rounds
    dsimp only
    split
    · rename_i hend
      rw [Bool.or_eq_true, List.isEmpty_iff, decide_eq_true_eq, Exact.fin_le_fin] at hend
      exact ⟨q, a, h, hend.symm.imp_left hab.antisymm, rfl⟩
    · rename_i hgo
      rw [Bool.or_eq_true, not_or, List.isEmpty_iff, decide_eq_true_eq, Exact.fin_le_fin,
        not_le] at hgo
      obtain ⟨hne, hlt⟩ := hgo
      have hrate : (q.expire (fin a)).rate limit =
          fin (w / served limit (q.expire (fin a)).inFlight.length) := by
        have hw' : (q.expire (fin a)).bandwidth = fin w := hw
        unfold rate
        rw [hw', Exact.ofNat_div_fin (hserved _ (mt List.length_eq_zero_iff.mp hne))]
      obtain ⟨c, hc, hac, hcb, hless⟩ := round_progress hrate hab
      rw [hc]
      refine ih (q := ((q.expire (fin a)).round limit (fin a) (fin b)).1) hw
        (hround q a c h hlt hac hcb hne hc) hcb (hless.imp_right fun hless => ?_)
      have hfuel := hfuel.resolve_left hlt.ne
      omega

/-- The rounds granted to an advance are enough. -/
theorem advance_reaches {P : Queue Exact → ℚ → Prop} (hw : isFinite q.bandwidth = true)
    (hlast : q.lastUpdate = fin a) (hab : a ≤ b) (h : P q a)
    (hround : ∀ q' a c, P q' a → a < b → a ≤ c → c ≤ b → (q'.expire (fin a)).inFlight ≠ [] →
      ((q'.expire (fin a)).round q.discipline.limit (fin a) (fin b)).2 = fin c →
      P ((q'.expire (fin a)).round q.discipline.limit (fin a) (fin b)).1 c) :
    ∃ q' c, P q' c ∧ (c = b ∨ (q'.expire (fin c)).inFlight = []) ∧
      q.advance (fin b) = (q'.expire (fin c)).withClock (fin b) := by
  obtain ⟨w, hw⟩ := Exact.eq_fin_of_isFinite hw
  have hfuel : (q.expire (fin a)).inFlight.length < q.roundLimit := by
    have hkept := length_expire_le q (fin a)
    show _ < 4 * q.inFlight.length + 8
    omega
  obtain ⟨q', c, hq', hend, hrounds⟩ :=
    rounds_reach (served_ne_zero q.discipline) hround hw h hab (Or.inr hfuel)
  refine ⟨q', c, hq', hend, ?_⟩
  rw [advance_eq_rounds hlast hab, hrounds]

end Queue

end FlowFabric
