import Uthreads.QueueLaps
import Uthreads.ThreadInvariant

/-! # Timer switches alone

While the threads only compute and no sleeper is due, the timer goes round the queue. The
rotation is in its final order after one lap; what a thread gets in a lap depends on the
entries that blocks and resumes have left behind. -/
namespace RoundRobin

open ThreadLibrary SwitchSemantics CallEffects EventRuns ThreadInvariant LazyQueue

def ReadyAtPick (s : State) (c r : ThreadRef) : Prop := statusAtPick s c r = .ready

instance (s : State) (c : ThreadRef) : DecidablePred (ReadyAtPick s c) :=
  fun _ => inferInstanceAs (Decidable (_ = _))

/-- `c` runs and is awake, and no sleeper wakes up in the next `n` switches. -/
structure Turning (s : State) (c : ThreadRef) (n : ℕ) : Prop where
  current : s.curRunning = some c
  preempts : Preempts s c
  unmasked : s.masked = false
  sleepers : ∀ r, s.Live r → (s.heap r).isSleep = true →
    (n : ℤ) < (s.heap r).waitingTime ∧ r ∉ s.readyQueue

/-- The queue with the running thread put back. -/
def wheel (s : State) (c : ThreadRef) : List ThreadRef := s.readyQueue ++ [c]

variable {remains : ThreadRef → Thread → Thread} {s t : State} {c b : ThreadRef} {n : ℕ}
  {rest : List ThreadRef} {tr : List (Event × Outcome)}

theorem Turning.queue (h : Turning s c n) : queueAtPick s c = wheel s c := by
  rw [queueAtPick, if_pos h.preempts, wheel]

theorem Turning.wheel_live (hi : Invariant s) (hq : QueueLive s) (h : Turning s c n)
    {r : ThreadRef} (hr : r ∈ wheel s c) : s.Live r ∧ (s.heap r).isSleep = false := by
  rcases List.mem_append.mp hr with hr | hr
  · refine ⟨hq r hr, ?_⟩
    cases hs : (s.heap r).isSleep with
    | false => rfl
    | true => exact ((h.sleepers r (hq r hr) hs).2 hr).elim
  · obtain rfl := List.mem_singleton.mp hr
    obtain ⟨d, hd, hlive⟩ := hi.current_live
    obtain rfl : r = d := Option.some.inj (h.current.symm.trans hd)
    exact ⟨hlive, h.preempts.2⟩

/-- Counters are exact, so the test of the loop is the one of the laps. -/
theorem Turning.sweep_eq (hi : Invariant s) (hq : QueueLive s) (h : Turning s c n) :
    sweep (takes (statusAtPick s c) (surplusOf s.heap s.readyQueue)) (wheel s c) =
      sweep (Spares (ReadyAtPick s c)) (wheel s c) := by
  apply sweep_congr
  intro r hr k
  rw [takes, hi.exact_count r (h.wheel_live hi hq hr).1, Int.add_zero, Spares, ReadyAtPick]
  norm_cast

theorem Turning.no_wakeup (hi : Invariant s) (h : Turning s c (n + 1)) {r : ThreadRef}
    (hr : s.Live r) : ¬ Due (s.heap r) := by
  intro hdue
  cases hs : (s.heap r).isSleep with
  | false =>
    simp only [Due, hs, hi.awake_clock r hr hs] at hdue
    omega
  | true =>
    have hlate := (h.sleepers r hr hs).1
    simp only [Due, hs, if_true] at hdue
    push_cast at hlate
    omega

/-- Nobody wakes up, so the switch leaves what the pick leaves. -/
theorem turning_queue (hi : Invariant s) (hq : QueueLive s) (h : Turning s c (n + 1))
    (hs : sweep (Spares (ReadyAtPick s c)) (wheel s c) = some (b, rest))
    (hsw : Switch s c .signalHandler b t) : t.readyQueue = rest := by
  have hsweep := (h.sweep_eq hi hq).trans hs
  obtain ⟨rest', woke, hp, htq, _, hwoke⟩ := hsw.queue
  have hnil : woke = [] := by
    apply List.eq_nil_iff_forall_not_mem.mpr
    intro r hr
    obtain ⟨hr, hdue, _⟩ := (hwoke r).mp hr
    exact h.no_wakeup hi hr hdue
  rw [htq, hnil, List.append_nil]
  cases hp with
  | entry hs' =>
    rw [h.queue, hsweep] at hs'
    cases hs'
    rfl
  | main hempty =>
    have hmem := sweep_mem hs
    rw [h.queue] at hempty
    rw [hempty] at hmem
    cases hmem
  | current _ hnone =>
    rw [h.queue, hsweep] at hnone
    cases hnone

/-- What a timer switch to `b` leaves. -/
theorem turning_switch (hi : Invariant s) (hq : QueueLive s) (h : Turning s c (n + 1))
    (hs : sweep (Spares (ReadyAtPick s c)) (wheel s c) = some (b, rest))
    (hsw : Switch s c .signalHandler b t) :
    t.readyQueue = rest ∧ Turning t b n ∧ statusAtPick t b = statusAtPick s c := by
  obtain ⟨hblive, hbawake⟩ := h.wheel_live hi hq (sweep_mem hs)
  have hlive : ∀ r, t.Live r ↔ s.Live r := by intro r; simp only [State.Live, hsw.allThreads]
  have hrest := turning_queue hi hq h hs hsw
  have hpre : Preempts t b := by
    refine ⟨by rw [hsw.status, if_pos rfl], ?_⟩
    rw [(hsw.clock b hblive).1, tick_awake hbawake (hi.awake_clock b hblive hbawake)]
    exact hbawake
  refine ⟨hrest, ⟨hsw.curRunning, hpre, hsw.unmasked, fun r hr hsleep => ?_⟩, ?_⟩
  · have hr := (hlive r).mp hr
    obtain ⟨hf, hw⟩ := hsw.clock r hr
    have hasleep : (s.heap r).isSleep = true := by
      cases hrs : (s.heap r).isSleep with
      | true => rfl
      | false =>
        rw [hf, tick_awake hrs (hi.awake_clock r hr hrs), hrs] at hsleep
        cases hsleep
    obtain ⟨hlate, hqueue⟩ := h.sleepers r hr hasleep
    push_cast at hlate
    constructor
    · rw [hw, (tick_sleeping hasleep).2, if_neg (by omega)]
      omega
    · intro hr'
      rw [hrest] at hr'
      have hwheel : r ∈ wheel s c := by
        obtain ⟨_, dropped, hsplit⟩ := sweep_split hs
        rw [hsplit]
        simp [hr']
      rw [(h.wheel_live hi hq hwheel).2] at hasleep
      cases hasleep
  · funext r
    by_cases hrb : r = b
    · subst hrb
      have hready : statusAtPick s c r = .ready := (sweep_split hs).1.1
      rw [hready]
      exact if_pos ⟨rfl, hpre⟩
    · rw [statusAtPick_of_ne hrb, hsw.status, if_neg hrb]

variable (remains) in
theorem turning_step (hi : Invariant s) (hq : QueueLive s) (h : Turning s c (n + 1))
    (hs : sweep (Spares (ReadyAtPick s c)) (wheel s c) = some (b, rest)) :
    ∃ v t, step (uthreads remains) s .timer = .ok (.dispatched b v, t) ∧
      Switch s c .signalHandler b t := by
  have hpick : Picks s c b rest := .entry (by rw [h.queue]; exact (h.sweep_eq hi hq).trans hs)
  have hlive := (h.wheel_live hi hq (sweep_mem hs)).1
  have hhandler : ∀ tid, Context.signalHandler ≠ .selfTerminate tid := by simp
  have henv := hi.no_return_with (c := c) hhandler
  have hd := hi.live_not_deleted b hlive
  obtain ⟨v, t, hok⟩ : ∃ v t, switchThread (uthreads remains) .signalHandler s =
      .ok (.dispatched b v, t) :=
    switchThread_dispatches h.current hi.distinct hpick hd fun tid => henv b tid hd
  obtain ⟨next, v', ho, _, _, hsw⟩ := switchThread_switch h.current hi.distinct henv hok
  cases ho
  exact ⟨v, t, by simp only [step, h.unmasked, Bool.false_eq_true, if_false, hok], hsw⟩

/-- `ds` is what the timer dispatches, one event for each. -/
def TimerRun (remains : ThreadRef → Thread → Thread) (s : State) (ds : List ThreadRef)
    (t : State) : Prop :=
  ∃ tr, Exec (step (uthreads remains)) s tr t ∧
    tr.map Prod.fst = List.replicate ds.length .timer ∧ dispatched tr = ds

variable (remains) in
/-- The run that follows a number of spins of the wheel. -/
theorem turning_run {status : ThreadRef → Status} {q q' ds : List ThreadRef}
    (hspin : Spins (Spares fun r => status r = .ready) q ds q') (hi : Invariant s)
    (hq : QueueLive s) (h : Turning s c (n + ds.length)) (hwheel : wheel s c = q)
    (hstatus : statusAtPick s c = status) :
    ∃ t d, TimerRun remains s ds t ∧ Turning t d n ∧ wheel t d = q' ∧
      ∀ r, (t.heap r).quantum = (s.heap r).quantum + ds.count r := by
  induction hspin generalizing s c with
  | nil q =>
    refine ⟨s, c, ⟨[], .nil s, rfl, rfl⟩, h, hwheel, fun r => ?_⟩
    simp
  | @cons q rest q' ds b hs _ ih =>
    have hs' : sweep (Spares (ReadyAtPick s c)) (wheel s c) = some (b, rest) := by
      rw [hwheel, ← hs]
      apply sweep_congr
      intro r _ k
      rw [Spares, Spares, ReadyAtPick, hstatus]
    obtain ⟨v, t, hstep, hsw⟩ := turning_step remains hi hq h hs'
    obtain ⟨hrest, hturn, hpick⟩ := turning_switch hi hq h hs' hsw
    have hti := step_preserves_invariant hi hstep
    have htq : QueueLive t := by
      refine switch_queue_live (fun r hr => ?_) hsw
      rw [h.queue] at hr
      exact (h.wheel_live hi hq hr).1
    obtain ⟨u, d, ⟨tr, hrun, htr, hds⟩, hturn', hwheel', hquantum⟩ :=
      ih hti htq hturn (by rw [wheel, hrest]) (hpick.trans hstatus)
    refine ⟨u, d, ⟨(.timer, .dispatched b v) :: tr, .cons hstep hrun, ?_, ?_⟩, hturn', hwheel',
      fun r => ?_⟩
    · rw [List.map_cons, htr, List.length_cons, List.replicate_succ]
    · rw [← hds]
      rfl
    · rw [hquantum, hsw.quantum, List.count_cons]
      by_cases hrb : r = b
      · subst hrb
        simp
        omega
      · simp [hrb, Ne.symm hrb]

theorem length_laps {α : Type*} (l : List α) (m : ℕ) :
    (List.replicate m l).flatten.length = m * l.length := by
  simp

theorem count_laps (l : List ThreadRef) (m : ℕ) (r : ThreadRef) :
    (List.replicate m l).flatten.count r = m * l.count r := by
  induction m with
  | zero => simp
  | succ m ih =>
    rw [List.replicate_succ, List.flatten_cons, List.count_append, ih, Nat.succ_mul,
      Nat.add_comm]

/-- What `m` laps do. -/
theorem laps_run (hi : Invariant s) (hq : QueueLive s) (hs : Turning s c n) (m : ℕ)
    (hm : m * (lap (Spares (ReadyAtPick s c)) (wheel s c)).length ≤ n) :
    ∃ t d, TimerRun remains s
        (List.replicate m (lap (Spares (ReadyAtPick s c)) (wheel s c))).flatten t ∧
      t.curRunning = some d ∧
      (0 < m → wheel t d = lap (Spares (ReadyAtPick s c)) (wheel s c)) ∧
      ∀ r, (t.heap r).quantum =
        (s.heap r).quantum + m * share (ReadyAtPick s c) (wheel s c) r := by
  have hlast : (wheel s c).getLast? = some c := by simp [wheel]
  have hready : ReadyAtPick s c c := if_pos ⟨rfl, hs.preempts⟩
  obtain ⟨q', hspin, hq'⟩ := spins_laps hlast hready m
  obtain ⟨k, hk⟩ := Nat.exists_eq_add_of_le hm
  have hturn : Turning s c (k +
      (List.replicate m (lap (Spares (ReadyAtPick s c)) (wheel s c))).flatten.length) := by
    rw [length_laps, Nat.add_comm, ← hk]
    exact hs
  obtain ⟨t, d, hrun, ht, hwheel, hquantum⟩ :=
    turning_run remains hspin hi hq hturn rfl rfl
  refine ⟨t, d, hrun, ht.current, fun h0 => hwheel.trans (hq' h0), fun r => ?_⟩
  rw [hquantum, count_laps, lap_count]
  push_cast
  rfl

/-- Weighted round robin: `m` laps repeat one fixed order `m` times, the queue ends in that
order, and in each lap a thread gets its share: nothing when it is not READY, one quantum
for one entry or two, and one for every entry when there are more. -/
theorem weighted_round_robin (hn : NeverRunning remains) (h : Runs remains tr s)
    (hs : Turning s c n) (m : ℕ)
    (hm : m * (lap (Spares (ReadyAtPick s c)) (wheel s c)).length ≤ n) :
    ∃ t d, TimerRun remains s
        (List.replicate m (lap (Spares (ReadyAtPick s c)) (wheel s c))).flatten t ∧
      t.curRunning = some d ∧
      (0 < m → wheel t d = lap (Spares (ReadyAtPick s c)) (wheel s c)) ∧
      ∀ r, (t.heap r).quantum =
        (s.heap r).quantum + m * share (ReadyAtPick s c) (wheel s c) r := by
  obtain ⟨hi, hq⟩ := reachable_queue_live hn h
  exact laps_run hi hq hs m hm

/-- Thread 1 sleeps, and thread 2 has blocked and resumed thread 3 twice. -/
theorem weighted_round_robin_three_entries :
    let es : List Event := [.call (.spawn (some 7)), .call (.spawn (some 8)),
      .call (.spawn (some 9)), .timer, .call (.sleep 50), .call (.block 3), .call (.resume 3),
      .call (.block 3), .call (.resume 3)]
    ∃ t d, TimerRun freedRecord (after freedRecord initial es) [3, 0, 3, 3, 2, 3, 0, 3, 3, 2] t ∧
      t.curRunning = some d ∧ wheel t d = [3, 0, 3, 3, 2] := by
  intro es
  have hasleep : ∀ i, ∀ r ∈ (after freedRecord initial es).allThreads i,
      ((after freedRecord initial es).heap r).isSleep = true →
        ((10 : ℕ) : ℤ) < ((after freedRecord initial es).heap r).waitingTime ∧
          r ∉ (after freedRecord initial es).readyQueue := by decide +kernel
  have hs : Turning (after freedRecord initial es) 2 10 := by
    refine ⟨by decide +kernel, by decide +kernel, by decide +kernel, ?_⟩
    rintro r ⟨i, hi⟩ hsleep
    exact hasleep i r hi hsleep
  have hlap : lap (Spares (ReadyAtPick (after freedRecord initial es) 2))
      (wheel (after freedRecord initial es) 2) = [3, 0, 3, 3, 2] := by decide +kernel
  obtain ⟨t, d, hrun, hcur, hwheel, _⟩ := weighted_round_robin (fun r t => by simp [freedRecord])
    (runs_history freedRecord es (by decide +kernel)) hs 2 (by rw [hlap]; decide)
  rw [hlap] at hrun hwheel
  exact ⟨t, d, hrun, hcur, hwheel (by decide)⟩

end RoundRobin
