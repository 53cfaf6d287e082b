import Uthreads.ThreadInvariant

/-! # Starvation freedom

The position of the last queue entry of a waiting thread is a measure: calls do not
raise it and every switch that does not dispatch the thread lowers it. -/
namespace StarvationFreedom

open ThreadLibrary SwitchSemantics CallEffects EventRuns ThreadInvariant LazyQueue

structure Waiting (s : State) (r : ThreadRef) : Prop where
  live : s.Live r
  ready : (s.heap r).status = .ready
  awake : (s.heap r).isSleep = false
  queued : r ∈ s.readyQueue
  idle : s.curRunning ≠ some r

/-- The event blocks or terminates `r`. -/
def Withdraws (s : State) (r : ThreadRef) : Event → Prop
  | .call (.block tid) => s.At tid r ∧ tid ≠ mainThreadTid
  | .call (.terminate tid) => s.At tid r
  | _ => False

/-- The event calls `switchThread`: the timer signal, unless it is held, and the block, the
sleep and the terminate with which the running thread gives the processor up. -/
def CallsSwitch (s : State) : Event → Prop
  | .timer => s.masked = false
  | .call (.block tid) => tid ≠ mainThreadTid ∧ ∃ c, s.curRunning = some c ∧ s.At tid c
  | .call (.terminate tid) => tid ≠ mainThreadTid ∧ ∃ c, s.curRunning = some c ∧ s.At tid c
  | .call (.sleep n) => 0 < n ∧ ∃ c, s.curRunning = some c ∧ (s.heap c).id ≠ mainThreadTid
  | _ => False

variable {remains : ThreadRef → Thread → Thread} {s t : State} {r : ThreadRef} {e : Event}
  {o : Outcome}

/-- A step that leaves the record of `r` alone and keeps it queued. -/
theorem Waiting.frame (h : Waiting s r) (hheap : t.heap r = s.heap r) (hlive : t.Live r)
    (hcur : t.curRunning = s.curRunning) (hqueue : r ∈ t.readyQueue) : Waiting t r :=
  ⟨hlive, by rw [hheap]; exact h.ready, by rw [hheap]; exact h.awake, hqueue,
    by rw [hcur]; exact h.idle⟩

theorem Waiting.withMask (h : Waiting s r) (b : Bool) : Waiting { s with masked := b } r :=
  ⟨h.live, h.ready, h.awake, h.queued, h.idle⟩

theorem waiting_resumed (h : Waiting s r) {q : ThreadRef} :
    Waiting (resumed q s) r ∧
      lastIndex r (resumed q s).readyQueue = lastIndex r s.readyQueue := by
  by_cases hrq : r = q
  · -- `r` is READY, so resuming it is no news
    subst hrq
    have hreq : ¬ Requeues s r := by rintro ⟨_, hb⟩; rw [h.ready] at hb; cases hb
    have hqueue : (resumed r s).readyQueue = s.readyQueue := by
      rw [resumed_readyQueue, if_neg hreq, List.append_nil]
    refine ⟨⟨h.live, ?_, ?_, ?_, h.idle⟩, by rw [hqueue]⟩
    · rw [resumed_self]
    · rw [resumed_self]; exact h.awake
    · rw [hqueue]; exact h.queued
  · have hnew : r ∉ if Requeues s q then [q] else [] := by
      split <;> simp [hrq]
    rw [resumed_readyQueue]
    refine ⟨h.frame (resumed_of_ne hrq) h.live rfl ?_, lastIndex_append h.queued hnew⟩
    exact List.mem_append_left _ h.queued

theorem waiting_terminated (remains : ThreadRef → Thread → Thread) (ht : Table s)
    (h : Waiting s r) {i : Fin maxThreadNum} {q : ThreadRef} (hi : s.allThreads i = some q)
    (hrq : r ≠ q) :
    Waiting (terminated remains i q s) r ∧
      lastIndex r (terminated remains i q s).readyQueue ≤ lastIndex r s.readyQueue := by
  have hqueue : (terminated remains i q s).readyQueue = s.readyQueue.filter (· ≠ q) := rfl
  refine ⟨h.frame (terminated_of_ne hrq) ?_ rfl ?_, ?_⟩
  · exact (terminated_live ht remains hi r).mpr ⟨h.live, hrq⟩
  · rw [hqueue, List.mem_filter]
    exact ⟨h.queued, by simpa using hrq⟩
  · rw [hqueue]
    exact lastIndex_filter_le _ _ (by simpa using hrq)

/-- A call without a switch keeps `r` waiting and its last entry no further back. -/
theorem quiet_keeps_waiting {call : Call} (hi : Invariant s) (h : Waiting s r)
    (hw : ¬ Withdraws s r (.call call)) (hq : Quiet remains s call o t) :
    Waiting t r ∧ lastIndex r t.readyQueue ≤ lastIndex r s.readyQueue := by
  cases hq with
  | idle b => exact ⟨h.withMask b, le_rfl⟩
  | @spawn pc i hfree =>
    have hne := hi.ne_fresh h.live
    refine ⟨Waiting.withMask (s := spawned i pc s) (h.frame (spawned_of_ne hne)
      ((spawned_live pc hfree r).mpr (Or.inr h.live)) rfl ?_) false, ?_⟩
    · exact List.mem_append_left _ h.queued
    · exact le_of_eq (lastIndex_append h.queued (by simpa using hne))
  | @block tid q c hq h0 =>
    have hrq : r ≠ q := by rintro rfl; exact hw ⟨hq, h0⟩
    exact ⟨Waiting.withMask (s := blocked q s) (h.frame (blocked_of_ne hrq) h.live rfl
      h.queued) false, le_rfl⟩
  | @resume tid q =>
    obtain ⟨hwait, hindex⟩ := waiting_resumed h (q := q)
    exact ⟨hwait.withMask false, le_of_eq hindex⟩
  | @terminate i q c hq =>
    have hrq : r ≠ q := by rintro rfl; exact hw ⟨i, rfl, hq⟩
    obtain ⟨hwait, hindex⟩ := waiting_terminated remains hi.toTable h hq hrq
    exact ⟨hwait.withMask false, hindex⟩

/-- On the way into a switch the thread is still waiting, no further back. -/
theorem enters_keeps_waiting {c : ThreadRef} {ctx : Context} {s' : State} (hi : Invariant s)
    (h : Waiting s r) (he : Enters remains s e c ctx s') :
    r ≠ c ∧ Waiting s' r ∧ lastIndex r s'.readyQueue ≤ lastIndex r s.readyQueue := by
  obtain ⟨_, _, hc, _⟩ := enters_consistent hi he
  have hrc : r ≠ c := by rintro rfl; exact h.idle hc
  refine ⟨hrc, ?_⟩
  cases he with
  | timer => exact ⟨h, le_rfl⟩
  | blockSelf => exact ⟨h.frame (blocked_of_ne hrc) h.live rfl h.queued, le_rfl⟩
  | sleep => exact ⟨h.frame (asleep_of_ne hrc) h.live rfl h.queued, le_rfl⟩
  | exit hcell => exact waiting_terminated remains hi.toTable h hcell hrc

theorem waiting_queueAtPick {c : ThreadRef} (h : Waiting s r) (hrc : r ≠ c) :
    r ∈ queueAtPick s c ∧ lastIndex r (queueAtPick s c) = lastIndex r s.readyQueue := by
  refine ⟨List.mem_append_left _ h.queued, lastIndex_append h.queued ?_⟩
  split <;> simp [hrc]

theorem waiting_statusAtPick {c : ThreadRef} (h : Waiting s r) (hrc : r ≠ c) :
    statusAtPick s c r = .ready := (statusAtPick_of_ne hrc).trans h.ready

/-- The pick loop stops at `r` or before it. -/
theorem waiting_picks {c : ThreadRef} (hs : Consistent s) (h : Waiting s r) (hrc : r ≠ c) :
    ∃ next rest, Picks s c next rest ∧ next ∈ queueAtPick s c ∧ (next = r ∨ r ∈ rest) := by
  obtain ⟨hmem, _⟩ := waiting_queueAtPick h hrc
  obtain ⟨next, rest, hsweep, hr⟩ :=
    live_entry_reached hs h.live (waiting_statusAtPick h hrc) hmem
  exact ⟨next, rest, .entry hsweep, sweep_mem hsweep, hr⟩

theorem switch_keeps_waiting {c next : ThreadRef} {ctx : Context} (hs : Consistent s)
    (h : Waiting s r) (hrc : r ≠ c) (hsw : Switch s c ctx next t) (hne : next ≠ r) :
    Waiting t r ∧ lastIndex r t.readyQueue < lastIndex r s.readyQueue := by
  obtain ⟨hmem, hindex⟩ := waiting_queueAtPick h hrc
  obtain ⟨rest, woke, hp, hqueue, _, hwoke⟩ := hsw.queue
  obtain ⟨hsweep, hb⟩ := picks_reach hs h.live (waiting_statusAtPick h hrc) hmem hp
  have hr := hb.resolve_left hne
  have hlt : lastIndex r rest < lastIndex r s.readyQueue := hindex ▸ sweep_advances hsweep hr
  have hclock := hsw.clock r h.live
  rw [tick_awake h.awake (hs.awake_clock r h.live h.awake)] at hclock
  have hawake : r ∉ woke := by
    intro hr
    have hdue := ((hwoke r).mp hr).2.1
    simp [Due, h.awake, hs.awake_clock r h.live h.awake] at hdue
  constructor
  · refine ⟨?_, ?_, hclock.1.trans h.awake, ?_, ?_⟩
    · simpa only [State.Live, hsw.allThreads] using h.live
    · rw [hsw.status, if_neg (Ne.symm hne)]
      exact waiting_statusAtPick h hrc
    · rw [hqueue]; exact List.mem_append_left _ hr
    · rw [hsw.curRunning]; simpa using hne
  · rw [hqueue, lastIndex_append hr hawake]
    exact hlt

/-- A switch, from whatever cause, dispatches `r` or brings it forward. -/
theorem dispatch_step_waiting (hi : Invariant s) (h : Waiting s r) {next : ThreadRef}
    {v : Option ℤ} (hs : step (uthreads remains) s e = .ok (.dispatched next v, t)) :
    next = r ∨ (Waiting t r ∧ lastIndex r t.readyQueue < lastIndex r s.readyQueue) := by
  cases step_effect hi hs with
  | quiet hquiet => exact (hquiet.returns _ _ rfl).elim
  | switch he hd =>
    obtain ⟨hcons, _⟩ := enters_consistent hi he
    obtain ⟨hrc, hwait, hle⟩ := enters_keeps_waiting hi h he
    by_cases hne : next = r
    · exact Or.inl hne
    · obtain ⟨hwait', hlt⟩ := switch_keeps_waiting hcons hwait hrc hd.toSwitch hne
      exact Or.inr ⟨hwait', lt_of_lt_of_le hlt hle⟩

theorem call_step_waiting (hi : Invariant s) (h : Waiting s r)
    (hs : step (uthreads remains) s e = .ok (o, t)) (ho : ∀ next v, o ≠ .dispatched next v)
    (hw : ¬ Withdraws s r e) :
    Waiting t r ∧ lastIndex r t.readyQueue ≤ lastIndex r s.readyQueue := by
  cases step_effect hi hs with
  | quiet hquiet => exact quiet_keeps_waiting hi h hw hquiet
  | switch => exact (ho _ _ rfl).elim

/-- As long as `r` is neither dispatched nor withdrawn, each switch uses up a position. -/
theorem waiting_switches {tr : List (Event × Outcome)} (hi : Invariant s) (h : Waiting s r)
    (hx : Exec (step (uthreads remains)) s tr t)
    (hw : EachStep (step (uthreads remains)) (fun s e => ¬ Withdraws s r e) s tr)
    (hr : r ∉ dispatched tr) : (dispatched tr).length ≤ lastIndex r s.readyQueue := by
  induction hx with
  | nil => exact Nat.zero_le _
  | @cons s e o t tr u hs _ ih =>
    have hi' := step_preserves_invariant hi hs
    cases o with
    | dispatched next v =>
      rcases dispatch_step_waiting hi h hs with rfl | ⟨hwait, hlt⟩
      · exact (hr List.mem_cons_self).elim
      · have := ih hi' hwait (hw.tail hs) fun hm => hr (List.mem_cons_of_mem next hm)
        have hlen : (dispatched ((e, Outcome.dispatched next v) :: tr)).length =
            (dispatched tr).length + 1 := rfl
        omega
    | _ =>
      obtain ⟨hwait, hle⟩ := call_step_waiting hi h hs (by simp) hw.head
      exact le_trans (ih hi' hwait (hw.tail hs) hr) hle

/-- While somebody waits, a switch that is entered dispatches. -/
theorem waiting_switch (hn : NeverRunning remains) (hi : Invariant s) (hq : QueueLive s)
    (h : Waiting s r) {c : ThreadRef} {ctx : Context} {s' : State}
    (he : Enters remains s e c ctx s') :
    ∃ next v t, switchThread (uthreads remains) ctx s' = .ok (.dispatched next v, t) := by
  obtain ⟨hcons, _, _, _, henv⟩ := enters_consistent hi he
  obtain ⟨hrc, hwait, _⟩ := enters_keeps_waiting hi h he
  obtain ⟨next, rest, hp, hnext, _⟩ := waiting_picks hcons hwait hrc
  have hnd := hcons.live_not_deleted next (enters_queue_live (Or.inl hn) hi hq he next hnext)
  exact ⟨next, switchThread_dispatches (enters_curRunning he) hcons.distinct hp hnd
    fun tid => henv next tid hnd⟩

/-- While somebody waits, only the exit of the process and a held signal are refused. -/
theorem waiting_accepts (hn : NeverRunning remains) (hi : Invariant s) (hq : QueueLive s)
    (h : Waiting s r) (he : e ≠ .call (.terminate mainThreadTid))
    (hm : e = .timer → s.masked = false) :
    ∃ o t, step (uthreads remains) s e = .ok (o, t) := by
  obtain ⟨c, hc, hlive⟩ := hi.current_live
  rcases step_cases remains hi.toTable hc hlive e with
    ⟨call, o, t, _, hs, _⟩ | ⟨ctx, s', hs, hent⟩ | ⟨f, _, hf⟩
  · exact ⟨o, t, hs⟩
  · obtain ⟨next, v, t, hsw⟩ := waiting_switch hn hi hq h hent
    exact ⟨_, t, hs.trans hsw⟩
  · cases hf with
    | exits => exact (he rfl).elim
    | held hmasked => rw [hm rfl] at hmasked; cases hmasked

/-- What comes back has not called `switchThread`. -/
theorem quiet_not_switch {call : Call} (h : Quiet remains s call o t) :
    ¬ CallsSwitch s (.call call) := by
  intro hc
  cases h with
  | @idle call _ b hidle =>
    cases call with
    | block tid =>
      obtain ⟨h0, c, _, hat⟩ := hc
      exact hidle.elim h0 fun hnone => hnone c hat
    | terminate tid =>
      obtain ⟨_, c, _, hat⟩ := hc
      exact hidle c hat
    | sleep n =>
      obtain ⟨hpos, c, hcur, hid⟩ := hc
      rcases hidle with hneg | ⟨d, hd, hmain⟩
      · omega
      · obtain rfl := Option.some.inj (hcur.symm.trans hd)
        exact hid hmain
    | _ => exact hc
  | spawn => exact hc
  | block hr _ hcur hne =>
    obtain ⟨_, c, hc, hat⟩ := hc
    obtain rfl := Option.some.inj (hcur.symm.trans hc)
    exact hne (At.unique hr hat)
  | resume => exact hc
  | terminate hcell _ hcur hne =>
    obtain ⟨_, c, hc, hat⟩ := hc
    obtain rfl := Option.some.inj (hcur.symm.trans hc)
    exact hne (At.unique ⟨_, rfl, hcell⟩ hat)

theorem refused_not_switch {f : Fault} (h : Refused s e f) : ¬ CallsSwitch s e := by
  intro hc
  cases h with
  | exits => exact hc.1 rfl
  | held hmasked =>
    have hopen : s.masked = false := hc
    rw [hopen] at hmasked
    cases hmasked

/-- While somebody waits, an event that calls `switchThread` dispatches. -/
theorem waiting_dispatches (hn : NeverRunning remains) (hi : Invariant s) (hq : QueueLive s)
    (h : Waiting s r) (he : CallsSwitch s e) :
    ∃ next v t, step (uthreads remains) s e = .ok (.dispatched next v, t) := by
  obtain ⟨c, hc, hlive⟩ := hi.current_live
  rcases step_cases remains hi.toTable hc hlive e with
    ⟨call, o, t, rfl, _, hquiet⟩ | ⟨ctx, s', hs, hent⟩ | ⟨f, _, hf⟩
  · exact (quiet_not_switch hquiet he).elim
  · obtain ⟨next, v, t, hsw⟩ := waiting_switch hn hi hq h hent
    exact ⟨next, v, t, hs.trans hsw⟩
  · exact (refused_not_switch hf he).elim

theorem no_starvation {tr : List (Event × Outcome)} (hn : NeverRunning remains)
    (h : Runs remains tr s) (hw : Waiting s r) :
    (∀ call o t, step (uthreads remains) s (.call call) = .ok (o, t) →
      (∀ next v, o ≠ .dispatched next v) → ¬ Withdraws s r (.call call) →
      Waiting t r ∧ lastIndex r t.readyQueue ≤ lastIndex r s.readyQueue) ∧
    (∀ e next v t, step (uthreads remains) s e = .ok (.dispatched next v, t) →
      next = r ∨ (Waiting t r ∧ lastIndex r t.readyQueue < lastIndex r s.readyQueue)) ∧
    (∀ e, e ≠ .call (.terminate mainThreadTid) → (e = .timer → s.masked = false) →
      ∃ o t, step (uthreads remains) s e = .ok (o, t)) ∧
    (∀ e, CallsSwitch s e →
      ∃ next v t, step (uthreads remains) s e = .ok (.dispatched next v, t)) ∧
    (∀ tr' t, Exec (step (uthreads remains)) s tr' t →
      EachStep (step (uthreads remains)) (fun s e => ¬ Withdraws s r e) s tr' →
      r ∉ dispatched tr' → (dispatched tr').length ≤ lastIndex r s.readyQueue) := by
  obtain ⟨hi, hq⟩ := reachable_queue_live hn h
  exact ⟨fun call o t hs => call_step_waiting hi hw hs,
    fun e next v t hs => dispatch_step_waiting hi hw hs,
    fun e he hm => waiting_accepts hn hi hq hw he hm,
    fun e he => waiting_dispatches hn hi hq hw he,
    fun tr' t hx hwd hr => waiting_switches hi hw hx hwd hr⟩

/-- Thread 1 with a stale and a live entry around thread 2, for which main makes way. -/
theorem no_starvation_stale_entry :
    let es : List Event := [.call (.spawn (some 7)), .call (.spawn (some 8)),
      .call (.block 1), .call (.resume 1)]
    let s := after freedRecord initial es
    s.readyQueue = [1, 2, 1] ∧
      (∃ v t, step (uthreads freedRecord) s .timer = .ok (.dispatched 2 v, t)) ∧
      ∀ tr t, Exec (step (uthreads freedRecord)) s tr t →
        EachStep (step (uthreads freedRecord)) (fun s e => ¬ Withdraws s 2 e) s tr →
        2 ∉ dispatched tr → (dispatched tr).length ≤ 1 := by
  intro es s
  have hw : Waiting s 2 := ⟨⟨2, by decide +kernel⟩, by decide +kernel, by decide +kernel,
    by decide +kernel, by decide +kernel⟩
  obtain ⟨_, _, _, hswitch, hbound⟩ := no_starvation (fun r t => by simp [freedRecord])
    (runs_history freedRecord es (by decide +kernel)) hw
  have hlast : lastIndex 2 s.readyQueue = 1 := by decide +kernel
  refine ⟨by decide +kernel, ?_, ?_⟩
  · obtain ⟨next, v, t, hs⟩ := hswitch .timer (show s.masked = false by decide +kernel)
    have htwo : step (uthreads freedRecord) s .timer =
        .ok (.dispatched 2 none, after freedRecord s [.timer]) :=
      step_after freedRecord (by decide +kernel)
    rw [hs] at htwo
    cases htwo
    exact ⟨none, _, hs⟩
  · intro tr t hx hwd hr
    rw [← hlast]
    exact hbound tr t hx hwd hr

end StarvationFreedom
