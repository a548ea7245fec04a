import FlowFabric.Proofs.Queue.Rounds

/-! Time is no measure of the passes, for it may stand still between two of them; but a pass that
does not reach the end completes something, or the next one begins with a failure. -/

namespace FlowFabric

namespace Queue

section Loop

variable {R : Type} [Quantity R] {limit : Option Nat} {time : R} {s : Queue R × R}
  {trace trace' : List (Queue R × R)} {q q' : Queue R}

/-- The loop stops in a pass that begins with this queue at this time. -/
def Stops (time : R) (s : Queue R × R) : Prop :=
  (s.1.expire s.2).inFlight = [] ∨ time ≤ s.2

instance : Decidable (Stops time s) := inferInstanceAs (Decidable (_ ∨ _))

/-- The queue and the time with which the next pass begins. -/
def pass (limit : Option Nat) (time : R) (s : Queue R × R) : Queue R × R :=
  (s.1.expire s.2).round limit s.2 time

/-- The loop of an advance, however many passes it takes: the queues and times with which they
begin, and the queue that the last one leaves. -/
inductive Loop (limit : Option Nat) (time : R) :
    Queue R × R → List (Queue R × R) → Queue R → Prop where
  | stop {s : Queue R × R} (hstops : Stops time s) : Loop limit time s [s] (s.1.expire s.2)
  | pass {s : Queue R × R} {trace : List (Queue R × R)} {q : Queue R} (hgoes : ¬ Stops time s)
      (rest : Loop limit time (pass limit time s) trace q) : Loop limit time s (s :: trace) q

theorem Loop.head? (h : Loop limit time s trace q) : trace.head? = some s := by
  cases h <;> rfl

/-- The loop runs in one way only. -/
theorem Loop.unique (h : Loop limit time s trace q) (h' : Loop limit time s trace' q') :
    trace' = trace ∧ q' = q := by
  induction h generalizing trace' with
  | stop hstops =>
    cases h' with
    | stop => exact ⟨rfl, rfl⟩
    | pass hgoes => exact absurd hstops hgoes
  | pass hgoes _ ih =>
    cases h' with
    | stop hstops => exact absurd hstops hgoes
    | pass _ rest =>
      obtain ⟨rfl, rfl⟩ := ih rest
      exact ⟨rfl, rfl⟩

/-- As many rounds as passes come to the end of the loop. -/
theorem Loop.rounds_eq (h : Loop limit time s trace q) {fuel : Nat} (hfuel : trace.length ≤ fuel) :
    rounds limit time fuel s.1 s.2 = q := by
  have hstop {s : Queue R × R} : Stops time s ↔
      ((s.1.expire s.2).inFlight.isEmpty || decide (time ≤ s.2)) = true := by
    rw [Bool.or_eq_true, List.isEmpty_iff, decide_eq_true_eq]
    rfl
  induction h generalizing fuel with
  | stop hstops =>
    obtain ⟨fuel, rfl⟩ := Nat.exists_eq_add_of_le' hfuel
    exact if_pos (hstop.mp hstops)
  | pass hgoes _ ih =>
    obtain ⟨fuel, rfl⟩ := Nat.exists_eq_add_of_le' hfuel
    exact (if_neg (mt hstop.mpr hgoes)).trans (ih (Nat.le_add_left _ _))

/-- From the beginning of one pass to that of the next: the end of the interval is reached, or
something leaves because it has completed, or something leaves because it is due now. -/
def Moves (time : R) (s s' : Queue R × R) : Prop :=
  time ≤ s'.2 ∨
    (s.1.completed.length < s'.1.completed.length ∧ s'.1.inFlight.length < s.1.inFlight.length) ∨
    (s'.1.expire s'.2).inFlight.length < s'.1.inFlight.length

end Loop

open Exact (fin)

open Quantity (isFinite)

variable {q : Queue Exact} {limit : Option Nat} {a b w : ℚ}

theorem served_ne_zero_of_limit (hlimit : limit ≠ some 0) (n : Nat) (hn : n ≠ 0) :
    served limit n ≠ 0 := by
  cases limit with
  | none => exact hn
  | some c =>
    have hc : c ≠ 0 := fun hc => hlimit (congrArg some hc)
    have hpos : 1 ≤ Nat.min n c :=
      Nat.le_min.mpr ⟨Nat.one_le_iff_ne_zero.mpr hn, Nat.one_le_iff_ne_zero.mpr hc⟩
    exact Nat.one_le_iff_ne_zero.mp hpos

/-- A pass that is not the last one moves on, and unless it comes to the end of the interval it
leaves less to the passes after it. -/
theorem pass_moves (hlimit : limit ≠ some 0) (hw : q.bandwidth = fin w)
    (hgoes : ¬ Stops (fin b) (q, fin a)) :
    ∃ c : ℚ, (pass limit (fin b) (q, fin a)).2 = fin c ∧
      Moves (fin b) (q, fin a) (pass limit (fin b) (q, fin a)) ∧
      (b ≤ c ∨ ((pass limit (fin b) (q, fin a)).1.expire (fin c)).inFlight.length <
        (q.expire (fin a)).inFlight.length) := by
  unfold Stops at hgoes
  rw [not_or, Exact.fin_le_fin, not_le] at hgoes
  obtain ⟨hbusy, hearly⟩ := hgoes
  have hlength : (q.expire (fin a)).inFlight.length ≠ 0 := mt List.length_eq_zero_iff.mp hbusy
  have hrate : (q.expire (fin a)).rate limit =
      fin (w / served limit (q.expire (fin a)).inFlight.length) := by
    have hw' : (q.expire (fin a)).bandwidth = fin w := hw
    unfold rate
    rw [hw', Exact.ofNat_div_fin (served_ne_zero_of_limit hlimit _ hlength)]
  obtain ⟨c, hreached, -, hcb, hends⟩ := round_ends hrate hearly.le
  -- What has failed at the beginning does not count as completed.
  have hfailed := length_expire_le q (fin a)
  have hcount : (pass limit (fin b) (q, fin a)).1.inFlight.length +
      (pass limit (fin b) (q, fin a)).1.completed.length =
        (q.expire (fin a)).inFlight.length + q.completed.length :=
    length_round (q.expire (fin a)) limit (fin a) (fin b)
  have hreached' : (pass limit (fin b) (q, fin a)).2 = fin c := hreached
  have hkept := length_expire_le (pass limit (fin b) (q, fin a)).1 (fin c)
  refine ⟨c, hreached, ?_⟩
  unfold Moves
  rw [hreached']
  rcases hends with rfl | hcompleted | hdue
  · exact ⟨Or.inl (Exact.fin_le_fin.mpr le_rfl), Or.inl le_rfl⟩
  · have hmore : q.completed.length < (pass limit (fin b) (q, fin a)).1.completed.length :=
      hcompleted
    exact ⟨Or.inr (Or.inl ⟨hmore, by dsimp only; omega⟩), Or.inr (by omega)⟩
  · have hfewer : ((pass limit (fin b) (q, fin a)).1.expire (fin c)).inFlight.length <
        (pass limit (fin b) (q, fin a)).1.inFlight.length := length_expire_lt hdue
    have hgrown : q.completed.length ≤ (pass limit (fin b) (q, fin a)).1.completed.length :=
      (reports_round (q.expire (fin a)) limit (fin a) (fin b)).completed.length_le
    exact ⟨Or.inr (Or.inr hfewer), Or.inr (by omega)⟩

/-- The loop takes at most one pass more than there are transmissions that are not due at its
beginning, and moves from each pass to the next. -/
theorem exists_loop (hlimit : limit ≠ some 0) {n : Nat} (hw : q.bandwidth = fin w)
    (hn : b ≤ a ∨ (q.expire (fin a)).inFlight.length ≤ n) :
    ∃ trace q', Loop limit (fin b) (q, fin a) trace q' ∧ trace.length ≤ n + 1 ∧
      trace.IsChain (Moves (fin b)) := by
  -- The induction is on what is not due. Each pass leaves less of it, up to the one that comes to
  -- the end of the interval, and then only the last pass is to come.
  induction n generalizing q a with
  | zero =>
    have hstops : Stops (fin b) (q, fin a) :=
      (hn.imp Exact.fin_le_fin.mpr fun hn => List.length_eq_zero_iff.mp (Nat.le_zero.mp hn)).symm
    exact ⟨_, _, .stop hstops, le_rfl, List.isChain_singleton _⟩
  | succ n ih =>
    by_cases hstops : Stops (fin b) (q, fin a)
    · exact ⟨_, _, .stop hstops, Nat.le_add_left 1 _, List.isChain_singleton _⟩
    · have hearly : ¬ b ≤ a := fun hle => hstops (Or.inr (Exact.fin_le_fin.mpr hle))
      have hn := hn.resolve_left hearly
      obtain ⟨c, hreached, hmoves, hless⟩ := pass_moves hlimit hw hstops
      obtain ⟨trace, q', hrest, hlength, hchain⟩ :=
        ih (q := (pass limit (fin b) (q, fin a)).1) hw (hless.imp_right fun hless => by omega)
      rw [← hreached] at hrest
      refine ⟨_, q', .pass hstops hrest, Nat.succ_le_succ hlength, ?_⟩
      refine List.isChain_cons.mpr ⟨fun s' hs' => ?_, hchain⟩
      obtain rfl : pass limit (fin b) (q, fin a) = s' :=
        Option.some.inj (hrest.head?.symm.trans hs')
      exact hmoves

/-- The loop of an advance ends after at most one pass more than there are transmissions in flight,
whatever remains of them, whenever they are due and whether bandwidth is given, missing or taken
away. From each pass to the next the end of the interval is reached, or something has completed, or
something fails at once. -/
theorem passes_bounded (q : Queue Exact) (hlimit : limit ≠ some 0)
    (hw : isFinite q.bandwidth = true) (hlast : isFinite q.lastUpdate = true) {time : Exact}
    (htime : isFinite time = true) :
    ∃ trace q', Loop limit time (q, q.lastUpdate) trace q' ∧
      (∀ trace' q'', Loop limit time (q, q.lastUpdate) trace' q'' → trace' = trace ∧ q'' = q') ∧
      trace.length ≤ q.inFlight.length + 1 ∧ trace.IsChain (Moves time) ∧
      q.advanceServing limit time = { q' with lastUpdate := Quantity.max q'.lastUpdate time } := by
  obtain ⟨w, hw⟩ := Exact.eq_fin_of_isFinite hw
  obtain ⟨a, ha⟩ := Exact.eq_fin_of_isFinite hlast
  obtain ⟨b, rfl⟩ := Exact.eq_fin_of_isFinite htime
  rw [ha]
  obtain ⟨trace, q', hloop, hlength, hmoves⟩ :=
    exists_loop (b := b) hlimit hw (Or.inr (length_expire_le q (fin a)))
  refine ⟨trace, q', hloop, fun trace' q'' h => hloop.unique h, hlength, hmoves, ?_⟩
  have hfuel : trace.length ≤ q.roundLimit := by
    show _ ≤ 4 * q.inFlight.length + 8
    omega
  unfold advanceServing
  rw [ha, hloop.rounds_eq hfuel]

/-- An empty packet is sent in no time, so that the second pass begins when the first one did; the
third one finds nothing in flight. -/
theorem pair_passes_bounded :
    let t (size : Exact) : Transmission Exact := .ofPacket ⟨⟨0, 1, 2, 7⟩, [], size, none, 1⟩ 0
    let q : Queue Exact :=
      { Queue.empty .timeShared none with
        bandwidth := 10
        inFlight := [t 0, t 30]
        lastUpdate := 5 }
    some 1 ≠ some 0 ∧ isFinite q.bandwidth = true ∧ isFinite q.lastUpdate = true ∧
      isFinite (20 : Exact) = true ∧
      ∃ trace q', Loop (some 1) 20 (q, q.lastUpdate) trace q' ∧ trace.map Prod.snd = [5, 5, 8] ∧
        trace.length = q.inFlight.length + 1 ∧ trace.IsChain (Moves 20) ∧
        q.advanceServing (some 1) 20 = { q' with lastUpdate := Quantity.max q'.lastUpdate 20 } := by
  intro t q
  have hlimit : some 1 ≠ some 0 := by decide
  obtain ⟨trace, q', hloop, hunique, _, hmoves, hadvance⟩ :=
    passes_bounded q hlimit rfl rfl (show isFinite (20 : Exact) = true from rfl)
  let second := pass (some 1) 20 (q, q.lastUpdate)
  let third := pass (some 1) 20 second
  have hthree : Loop (some 1) 20 (q, q.lastUpdate) [(q, q.lastUpdate), second, third]
      (third.1.expire third.2) :=
    .pass (by decide +kernel) (.pass (by decide +kernel) (.stop (by decide +kernel)))
  have htimes : [(q, q.lastUpdate), second, third].map Prod.snd = [5, 5, 8] := by decide +kernel
  clear_value second third
  obtain ⟨rfl, rfl⟩ := hunique _ _ hthree
  exact ⟨hlimit, rfl, rfl, rfl, _, _, hloop, htimes, rfl, hmoves, hadvance⟩

end Queue

end FlowFabric
