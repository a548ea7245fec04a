import FlowFabric.Proofs.DataPlane.Settling
import FlowFabric.Proofs.Queue.Conservation
import Mathlib.Algebra.BigOperators.Group.List.Basic

namespace FlowFabric

variable {R : Type} [Quantity R]

namespace DataPlane

/-- The transmissions in flight, channel by channel. -/
def traffic (dp : DataPlane R) : List (FlowKey × List (Transmission R)) :=
  dp.channels.entries.map fun e => (e.1, e.2.queue.inFlight)

/-- All transmissions in flight. -/
def carried (dp : DataPlane R) : Multiset (Packet R × R) :=
  (dp.channels.values.map fun c => origins c.queue.inFlight).sum

def carriedBy (l : List (FlowKey × List (Transmission R))) : Multiset (Packet R × R) :=
  (l.map fun e => origins e.2).sum

def departed (ds : List (Departure R)) : Multiset (Packet R × R) :=
  origins (ds.map Departure.transmission)

omit [Quantity R] in
theorem carried_eq (dp : DataPlane R) : dp.carried = carriedBy dp.traffic := by
  unfold carried carriedBy traffic Table.values
  rw [List.map_map, List.map_map]
  rfl

omit [Quantity R] in
theorem card_carried (dp : DataPlane R) :
    dp.carried.card = (dp.channels.values.map fun c => c.queue.inFlight.length).sum := by
  unfold carried
  induction dp.channels.values with
  | nil => rfl
  | cons c rest ih =>
    rw [List.map_cons, List.sum_cons, Multiset.card_add, ih, card_origins, List.map_cons,
      List.sum_cons]

omit [Quantity R] in
theorem mem_traffic {dp : DataPlane R} {k : FlowKey} {l : List (Transmission R)} :
    (k, l) ∈ dp.traffic ↔ ∃ c, dp.channel? k = some c ∧ c.queue.inFlight = l := by
  unfold traffic channel?
  rw [List.mem_map]
  constructor
  · rintro ⟨e, he, heq⟩
    cases heq
    exact ⟨e.2, Table.get?_eq_some_iff.mpr he, rfl⟩
  · rintro ⟨c, hc, rfl⟩
    exact ⟨(k, c), Table.get?_eq_some_iff.mp hc, rfl⟩

def Full (dp : DataPlane R) : Prop := ∀ k c, dp.channel? k = some c → c.queue.inFlight ≠ []

omit [Quantity R] in
theorem full_iff {dp : DataPlane R} : dp.Full ↔ ∀ e ∈ dp.traffic, e.2 ≠ [] := by
  constructor
  · rintro h ⟨k, l⟩ he
    obtain ⟨c, hc, rfl⟩ := mem_traffic.mp he
    exact h k c hc
  · intro h k c hc
    exact h (k, c.queue.inFlight) (mem_traffic.mpr ⟨c, hc, rfl⟩)

omit [Quantity R] in
theorem full_congr {dp dp' : DataPlane R} (h : dp'.traffic = dp.traffic) (hf : dp.Full) :
    dp'.Full := by
  rw [full_iff] at hf ⊢
  rwa [h]

omit [Quantity R] in
theorem carried_congr {dp dp' : DataPlane R} (h : dp'.traffic = dp.traffic) :
    dp'.carried = dp.carried := by
  rw [carried_eq, carried_eq, h]

omit [Quantity R] in
/-- A channel put in the place of another one changes the traffic at its flow. -/
theorem traffic_replace {dp : DataPlane R} {c d : Channel R} (hd : dp.channel? c.key = some d)
    (net : Network R) :
    (dp.replace c net).traffic =
      dp.traffic.map fun e => if e.1 = c.key then (c.key, c.queue.inFlight) else e := by
  have hmem : c.key ∈ dp.channels.keys := by
    rw [← Table.contains_iff_mem_keys, Table.contains]
    have hd' : dp.channels.get? c.key = some d := hd
    rw [hd']
    rfl
  show (dp.channels.insert c.key c).entries.map _ = (dp.channels.entries.map _).map _
  rw [Table.entries_insert_of_mem hmem, List.map_map, List.map_map]
  refine List.map_congr_left fun e _ => ?_
  show ((if e.1 = c.key then (c.key, c) else e).1,
    (if e.1 = c.key then (c.key, c) else e).2.queue.inFlight)
    = if e.1 = c.key then (c.key, c.queue.inFlight) else (e.1, e.2.queue.inFlight)
  split <;> rfl

omit [Quantity R] in
/-- A channel with the same transmissions in flight can take the place of another one. -/
theorem traffic_replace_of_eq {dp : DataPlane R} {c d : Channel R} (hd : dp.channel? c.key = some d)
    (h : c.queue.inFlight = d.queue.inFlight) (net : Network R) :
    (dp.replace c net).traffic = dp.traffic := by
  rw [traffic_replace hd]
  conv => rhs; rw [← List.map_id dp.traffic]
  refine List.map_congr_left ?_
  rintro ⟨k, l⟩ he
  obtain ⟨c', hc', rfl⟩ := mem_traffic.mp he
  show (if k = c.key then _ else _) = _
  split
  · rename_i hk
    rw [hk] at hc'
    obtain rfl : c' = d := Option.some.inj (hc'.symm.trans hd)
    rw [h, hk]
    rfl
  · rfl

omit [Quantity R] in
theorem traffic_keys_nodup (dp : DataPlane R) : (dp.traffic.map Prod.fst).Nodup := by
  unfold traffic
  rw [List.map_map]
  exact dp.channels.keys_nodup

omit [Quantity R] in
/-- One more transmission in one channel is one more transmission in all. -/
theorem carriedBy_map_append {l : List (FlowKey × List (Transmission R))} {key : FlowKey}
    {ts : List (Transmission R)} {t t' : Transmission R} (hmem : (key, ts) ∈ l)
    (hd : (l.map Prod.fst).Nodup) (ht : t'.origin = t.origin) :
    carriedBy (l.map fun e => if e.1 = key then (key, ts ++ [t']) else e) =
    t.origin ::ₘ carriedBy l := by
  induction l with
  | nil => cases hmem
  | cons e rest ih =>
    obtain ⟨hnot, hrest⟩ := List.nodup_cons.mp hd
    unfold carriedBy at ih ⊢
    rw [List.map_cons, List.map_cons, List.sum_cons, List.map_cons, List.sum_cons]
    rcases List.mem_cons.mp hmem with he | hmem
    · subst he
      -- The flow occurs once, so that the other channels are left as they are.
      have hkeep : (rest.map fun e => if e.1 = key then (key, ts ++ [t']) else e) = rest := by
        conv => rhs; rw [← List.map_id rest]
        refine List.map_congr_left fun e he => ?_
        have hne : e.1 ≠ key := fun hk => hnot (List.mem_map.mpr ⟨e, he, hk⟩)
        exact if_neg hne
      have hone : origins [t'] = {t.origin} := by
        rw [origins_cons, ht]
        rfl
      rw [hkeep, if_pos rfl, origins_append, hone, ← Multiset.singleton_add]
      abel
    · have hne : e.1 ≠ key := by
        rintro rfl
        exact hnot (List.mem_map.mpr ⟨_, hmem, rfl⟩)
      rw [if_neg hne, ih hmem hrest, Multiset.add_cons]

theorem send_of_some {dp : DataPlane R} {key : FlowKey} {c : Channel R}
    (hc : dp.channel? key = some c) (t : Transmission R) (time : R) :
    (dp.send key t time).2 = dp.replace (c.send t time) dp.network := by
  unfold DataPlane.send
  rw [hc]

/-- The channels are in their places,
and all queues have been advanced to the time and collected. -/
def Quiet (dp : DataPlane R) (time : R) : Prop :=
  ∀ k c, dp.channel? k = some c → c.key = k ∧ c.queue.Quiet time

/-- What holds of a plane at a time, with all channels loaded and nothing left to be reported. -/
structure Loaded (dp : DataPlane R) (now : R) : Prop where
  key : ∀ k c, dp.channel? k = some c → c.key = k
  full : dp.Full
  completed : ∀ k c, dp.channel? k = some c → c.queue.completed = []
  failed : ∀ k c, dp.channel? k = some c → c.queue.failed = []
  past : ∀ k c, dp.channel? k = some c → c.queue.lastUpdate ≤ now

namespace Quiet

variable {dp : DataPlane R} {time : R}

theorem replace (h : dp.Quiet time) {c : Channel R} (hc : c.queue.Quiet time) (net : Network R) :
    (dp.replace c net).Quiet time := by
  intro k d hd
  rcases live_of_replace hd with ⟨hk, rfl⟩ | ⟨_, hd'⟩
  · exact ⟨hk.symm, hc⟩
  · exact h k d hd'

variable [OrderLaws R] (ht : time ≤ time)

include ht in
theorem adjust (h : dp.Quiet time) (key : FlowKey) :
    (dp.adjust key time).2.Quiet time ∧ (dp.adjust key time).2.traffic = dp.traffic := by
  cases hc : dp.channel? key with
  | none =>
    rw [adjust_of_none hc]
    exact ⟨h, rfl⟩
  | some c =>
    obtain ⟨hkey, hq⟩ := h key c hc
    -- A queue that is already at the time is not moved by being advanced to it.
    have hsame :
        (c.setAllocated dp.network (c.target dp.network) time).2.1.queue.inFlight =
          c.queue.inFlight ∧
        (c.setAllocated dp.network (c.target dp.network) time).2.1.queue.Quiet time := by
      unfold Channel.setAllocated
      split
      · exact ⟨rfl, hq⟩
      · obtain ⟨hin, hq'⟩ := hq.advance ht
        exact ⟨hin, hq'.completed, hq'.failed, hq'.current⟩
    have hkeys := (Channel.setAllocated_same c dp.network (c.target dp.network) time).1
    rw [adjust_of_some hc]
    refine ⟨h.replace hsame.2 _, traffic_replace_of_eq (d := c) ?_ hsame.1 _⟩
    rw [hkeys, hkey, hc]

include ht in
theorem adjustEach (keys : List FlowKey) (h : dp.Quiet time) :
    (DataPlane.adjustEach time keys dp).2.Quiet time ∧
    (DataPlane.adjustEach time keys dp).2.traffic = dp.traffic := by
  induction keys generalizing dp with
  | nil => exact ⟨h, rfl⟩
  | cons key rest ih =>
    obtain ⟨hq, hsame⟩ := h.adjust ht key
    obtain ⟨hq', hsame'⟩ := ih hq
    exact ⟨hq', hsame'.trans hsame⟩

include ht in
/-- Settling at the time to which all queues have been advanced moves no transmission. -/
theorem settle (h : dp.Quiet time) :
    (dp.settle time).2.Quiet time ∧ (dp.settle time).2.traffic = dp.traffic :=
  h.adjustEach ht dp.settlingOrder

include ht in
theorem setRequested (h : dp.Quiet time) (key : FlowKey) (requested : R) :
    (dp.setRequested key requested time).2.Quiet time ∧
      (dp.setRequested key requested time).2.traffic = dp.traffic := by
  unfold DataPlane.setRequested
  cases hc : dp.channel? key with
  | none => exact ⟨h, rfl⟩
  | some c =>
    obtain ⟨hkey, hq⟩ := h key c hc
    have hnew : (dp.replace (c.setRequested dp.network requested).1
        (c.setRequested dp.network requested).2).Quiet time :=
      h.replace (c := (c.setRequested dp.network requested).1) hq _
    obtain ⟨hsettled, hsame⟩ := hnew.settle ht
    have hlive : dp.channel? (c.setRequested dp.network requested).1.key = some c := by
      rw [← hc]
      exact congrArg _ hkey
    exact ⟨hsettled, hsame.trans (traffic_replace_of_eq (d := c) hlive rfl _)⟩

include ht in
theorem reroute (h : dp.Quiet time) (key : FlowKey) (path : Path) :
    (dp.reroute key path time).2.Quiet time ∧
    (dp.reroute key path time).2.traffic = dp.traffic := by
  unfold DataPlane.reroute
  cases hc : dp.channel? key with
  | none => exact ⟨h, rfl⟩
  | some c =>
    obtain ⟨hkey, hq⟩ := h key c hc
    obtain ⟨hin, hq'⟩ := hq.advance ht
    have hnew : (dp.replace (c.reroute dp.network path time).1
        (c.reroute dp.network path time).2).Quiet time :=
      h.replace hq' _
    obtain ⟨hsettled, hsame⟩ := hnew.settle ht
    have hlive : dp.channel? (c.reroute dp.network path time).1.key = some c := by
      rw [← hc]
      exact congrArg _ hkey
    exact ⟨hsettled, hsame.trans (traffic_replace_of_eq (d := c) hlive hin _)⟩

include ht in
theorem add (h : dp.Quiet time) {c : Channel R} (hnone : dp.channel? c.key = none)
    (hq : c.queue.Quiet time) :
    (dp.add c time).Quiet time ∧
      (dp.add c time).traffic = dp.traffic ++ [(c.key, c.queue.inFlight)] := by
  rw [add_eq]
  have hnew : (dp.replace (c.register (dp.unregister c.key).network).1
      (c.register (dp.unregister c.key).network).2).Quiet time :=
    h.replace (c := (c.register (dp.unregister c.key).network).1) hq _
  obtain ⟨hsettled, hsame⟩ := hnew.settle ht
  refine ⟨hsettled, hsame.trans ?_⟩
  have habsent : c.key ∉ dp.channels.keys := Table.get?_eq_none_iff.mp hnone
  show (dp.channels.insert c.key (c.register (dp.unregister c.key).network).1).entries.map _ = _
  rw [Table.entries_insert_of_not_mem habsent, List.map_append]
  rfl

include ht in
/-- Once the channel of a flow has taken up a transmission,
the plane is loaded if the other channels are. -/
theorem loaded_send (h : dp.Quiet time) {key : FlowKey} {c : Channel R}
    (hc : dp.channel? key = some c)
    (hfull : ∀ k d, k ≠ key → dp.channel? k = some d → d.queue.inFlight ≠ []) (t : Transmission R) :
    (dp.send key t time).2.Loaded time := by
  obtain ⟨hkey, hq⟩ := h key c hc
  obtain ⟨_, hq'⟩ := hq.advance ht
  have hclock : (c.send t time).queue.lastUpdate = time := hq'.lastUpdate_add t
  have hcases {k : FlowKey} {d : Channel R} (hd : (dp.send key t time).2.channel? k = some d) :
      (k = key ∧ d = c.send t time) ∨ (k ≠ key ∧ dp.channel? k = some d) := by
    rw [send_of_some hc] at hd
    have hk : (c.send t time).key = key := hkey
    rw [← hk]
    exact live_of_replace hd
  refine ⟨?_, ?_, ?_, ?_, ?_⟩
  · intro k d hd
    rcases hcases hd with ⟨rfl, rfl⟩ | ⟨_, hd'⟩
    · exact hkey
    · exact (h k d hd').1
  · intro k d hd
    rcases hcases hd with ⟨rfl, rfl⟩ | ⟨hk, hd'⟩
    · exact List.append_ne_nil_of_right_ne_nil _ (List.cons_ne_nil _ _)
    · exact hfull k d hk hd'
  · intro k d hd
    rcases hcases hd with ⟨rfl, rfl⟩ | ⟨_, hd'⟩
    · exact hq'.completed
    · exact (h k d hd').2.completed
  · intro k d hd
    rcases hcases hd with ⟨rfl, rfl⟩ | ⟨_, hd'⟩
    · exact hq'.failed
    · exact (h k d hd').2.failed
  · intro k d hd
    rcases hcases hd with ⟨rfl, rfl⟩ | ⟨hk, hd'⟩
    · rw [hclock]
      exact ht
    · rw [(h k d hd').2.lastUpdate_eq (hfull k d hk hd')]
      exact ht

include ht in
theorem carried_send (h : dp.Quiet time) {key : FlowKey} {c : Channel R}
    (hc : dp.channel? key = some c) (t : Transmission R) :
    (dp.send key t time).2.carried = t.origin ::ₘ dp.carried := by
  obtain ⟨hkey, hq⟩ := h key c hc
  obtain ⟨hin, _⟩ := hq.advance ht
  have hk : (c.send t time).key = key := hkey
  have hlive : dp.channel? (c.send t time).key = some c := hk ▸ hc
  let t' : Transmission R :=
    { t with timeout := t.timeout <|> (c.queue.advance time).defaultTimeout }
  have hflight : (c.send t time).queue.inFlight = c.queue.inFlight ++ [t'] := by
    show (c.queue.advance time).inFlight ++ [t'] = _
    rw [hin]
  have hmem : (key, c.queue.inFlight) ∈ dp.traffic := mem_traffic.mpr ⟨c, hc, rfl⟩
  rw [send_of_some hc, carried_eq, carried_eq, traffic_replace hlive, hk, hflight]
  exact carriedBy_map_append hmem (traffic_keys_nodup dp) rfl

omit [OrderLaws R] in
include ht in
theorem loaded (h : dp.Quiet time) (hfull : dp.Full) : dp.Loaded time where
  key k c hc := (h k c hc).1
  full := hfull
  completed k c hc := (h k c hc).2.completed
  failed k c hc := (h k c hc).2.failed
  past k c hc := by
    rw [(h k c hc).2.lastUpdate_eq (hfull k c hc)]
    exact ht

end Quiet

omit [Quantity R] in
theorem traffic_discard (dp : DataPlane R) (key : FlowKey) :
    (dp.discard key).traffic = dp.traffic.filter fun e => decide (e.1 ≠ key) := by
  unfold traffic discard
  dsimp only
  rw [channels_unregister, List.filter_map]
  rfl

omit [Quantity R] in
theorem traffic_discardAll (keys : List FlowKey) (dp : DataPlane R) :
    (keys.foldl discard dp).traffic = dp.traffic.filter fun e => decide (e.1 ∉ keys) := by
  induction keys generalizing dp with
  | nil => simp
  | cons key rest ih =>
    rw [List.foldl_cons, ih, traffic_discard, List.filter_filter]
    refine List.filter_congr fun e _ => ?_
    rw [Bool.eq_iff_iff]
    simp [and_comm]

omit [Quantity R] in
theorem carriedBy_filter {l : List (FlowKey × List (Transmission R))}
    {p : FlowKey × List (Transmission R) → Bool} (h : ∀ e ∈ l, p e = false → e.2 = []) :
    carriedBy (l.filter p) = carriedBy l := by
  induction l with
  | nil => rfl
  | cons e rest ih =>
    have hrest := ih fun e' he' => h e' (List.mem_cons_of_mem _ he')
    unfold carriedBy at hrest ⊢
    cases hp : p e with
    | true =>
      rw [List.filter_cons_of_pos hp, List.map_cons, List.map_cons, List.sum_cons,
        List.sum_cons, hrest]
    | false =>
      rw [List.filter_cons_of_neg (by simp [hp]), hrest, List.map_cons, List.sum_cons,
        h e List.mem_cons_self hp, origins_nil, zero_add]

omit [Quantity R] in
/-- The transmissions that several channels have let go of are those of each of them. -/
theorem departed_flatMap (f : Channel R → List (Transmission R)) (l : List (Channel R)) :
    departed (l.flatMap fun c => (f c).map fun t => ⟨c.key, t, c.latency⟩) =
    (l.map fun c => origins (f c)).sum := by
  induction l with
  | nil => rfl
  | cons c rest ih =>
    unfold departed at ih ⊢
    have hone : ((f c).map fun t => (⟨c.key, t, c.latency⟩ : Departure R)).map
        Departure.transmission = f c := by
      rw [List.map_map]
      exact List.map_id (f c)
    rw [List.flatMap_cons, List.map_append, origins_append, ih, hone, List.map_cons, List.sum_cons]

theorem advance_report (dp : DataPlane R) (time : R) :
    (dp.advance time).1 = harvest (dp.channels.map fun _ c => c.advance time).values := by
  unfold DataPlane.advance
  dsimp only
  split <;> rfl

namespace Loaded

variable {dp : DataPlane R} {time : R}

theorem live_of_mem_idle (h : dp.Loaded time) {k : FlowKey} (hk : k ∈ dp.idle time) :
    ∃ c, dp.channel? k = some c ∧ (c.queue.advance time).inFlight = [] := by
  unfold idle harvest at hk
  dsimp only at hk
  obtain ⟨d, hd, rfl⟩ := List.mem_map.mp hk
  obtain ⟨hmem, hempty⟩ := List.mem_filter.mp hd
  obtain ⟨e, he, rfl⟩ := List.mem_map.mp hmem
  obtain ⟨e', he', rfl⟩ := List.mem_map.mp he
  have hlive : dp.channel? e'.1 = some e'.2 := Table.get?_eq_some_iff.mpr he'
  have hkey : e'.2.key = e'.1 := h.key _ _ hlive
  exact ⟨e'.2, hkey ▸ hlive, List.isEmpty_iff.mp hempty⟩

/-- The channels that are left empty are those whose flows are idle. -/
theorem mem_idle (h : dp.Loaded time) {k : FlowKey} {c : Channel R} (hc : dp.channel? k = some c) :
    k ∈ dp.idle time ↔ (c.queue.advance time).inFlight = [] := by
  constructor
  · intro hk
    obtain ⟨d, hd, hempty⟩ := h.live_of_mem_idle hk
    obtain rfl : c = d := Option.some.inj (hc.symm.trans hd)
    exact hempty
  · intro hempty
    unfold idle harvest
    dsimp only
    rw [List.mem_map]
    refine ⟨c.advance time, List.mem_filter.mpr ⟨?_, List.isEmpty_iff.mpr hempty⟩, h.key k c hc⟩
    exact List.mem_map.mpr ⟨(k, c.advance time),
      List.mem_map.mpr ⟨(k, c), Table.get?_eq_some_iff.mp hc, rfl⟩, rfl⟩

/-- What was in flight is still in flight or has left. -/
theorem carried_flush (h : dp.Loaded time) :
    dp.carried = (dp.flush time).carried + departed (dp.advance time).1.completed
      + departed (dp.advance time).1.failed := by
  rw [advance_report]
  unfold harvest
  dsimp only
  rw [departed_flatMap (fun c => c.queue.completed), departed_flatMap (fun c => c.queue.failed)]
  unfold carried flush mapQueues Table.values Table.map
  dsimp only
  simp only [List.map_map]
  rw [← List.sum_map_add, ← List.sum_map_add]
  refine congrArg List.sum (List.map_congr_left fun e he => ?_)
  have hlive : dp.channel? e.1 = some e.2 := Table.get?_eq_some_iff.mpr he
  have hcontents := Queue.contents_advance e.2.queue time
  unfold Queue.contents at hcontents
  rw [h.completed _ _ hlive, h.failed _ _ hlive, origins_nil, add_zero, add_zero] at hcontents
  exact hcontents.symm

variable [OrderLaws R]

theorem quiet_flush (h : dp.Loaded time) : (dp.flush time).Quiet time := by
  intro k c hc
  obtain ⟨d, hd, rfl⟩ := live_of_mapQueues hc
  exact ⟨h.key k d hd, Queue.quiet_collect_advance fun _ => h.past k d hd⟩

omit [OrderLaws R] in
/-- The channels that are discarded carry nothing, and those that are kept carry something. -/
theorem traffic_idle (h : dp.Loaded time) :
    ∀ e ∈ (dp.flush time).traffic, e.1 ∈ dp.idle time ↔ e.2 = [] := by
  rintro ⟨k, l⟩ he
  obtain ⟨c, hc, rfl⟩ := mem_traffic.mp he
  obtain ⟨d, hd, rfl⟩ := live_of_mapQueues hc
  exact h.mem_idle hd

omit [OrderLaws R] in
theorem quiet_discardAll (keys : List FlowKey) (h : dp.Quiet time) :
    (keys.foldl discard dp).Quiet time := by
  induction keys generalizing dp with
  | nil => exact h
  | cons key rest ih => exact ih fun k c hc => h k c (live_of_discard hc)

/-- Advancing a loaded plane leaves it quiet and all its channels with something
in flight, and reports all that has left. -/
theorem advance (h : dp.Loaded time) (ht : time ≤ time) :
    (dp.advance time).2.Quiet time ∧ (dp.advance time).2.Full ∧
      dp.carried = (dp.advance time).2.carried + departed (dp.advance time).1.completed
        + departed (dp.advance time).1.failed := by
  have hidle := h.traffic_idle
  -- Whether channels are discarded or not, the traffic is what was flushed without that of idle
  -- flows.
  suffices hplane : (dp.advance time).2.Quiet time ∧
      (dp.advance time).2.traffic =
        (dp.flush time).traffic.filter fun e => decide (e.1 ∉ dp.idle time) by
    obtain ⟨hquiet, htraffic⟩ := hplane
    refine ⟨hquiet, ?_, ?_⟩
    · rw [full_iff, htraffic]
      intro e he hempty
      obtain ⟨hmem, hkept⟩ := List.mem_filter.mp he
      exact of_decide_eq_true hkept ((hidle e hmem).mpr hempty)
    · rw [carried_eq (dp.advance time).2, htraffic, carriedBy_filter, ← carried_eq]
      · exact h.carried_flush
      · intro e he hgone
        exact (hidle e he).mp (by simpa using hgone)
  rw [advance_eq]
  split
  · rename_i hnone
    refine ⟨h.quiet_flush, ?_⟩
    rw [List.isEmpty_iff.mp hnone]
    simp
  · obtain ⟨hquiet, hsame⟩ := (quiet_discardAll (dp.idle time) h.quiet_flush).settle ht
    exact ⟨hquiet, hsame.trans (traffic_discardAll _ _)⟩

end Loaded

end DataPlane

end FlowFabric
