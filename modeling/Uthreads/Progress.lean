import Uthreads.ThreadTable
import Uthreads.ThreadConservation
import Uthreads.SchedulingSafety

/-! # Progress

Which events a reachable state cannot take. In a run that keeps one thread running, main is
always within reach of the pick loop, so the loop never has to fall back on another thread
and no event is lost to a deleted record. -/
namespace Progress

open ThreadLibrary SwitchSemantics CallEffects EventRuns ThreadInvariant ThreadTable
  ThreadConservation SchedulingSafety LazyQueue

/-- The process exit, and a thread that terminates itself while the queue holds other
threads but no READY one. -/
inductive Stuck (s : State) : Event → Fault → Prop where
  | exits : Stuck s (.call (.terminate mainThreadTid)) (.outOfRange maxThreadNum)
  | lost {i : Fin maxThreadNum} {c x : ThreadRef} : i ≠ 0 → s.allThreads i = some c →
      s.curRunning = some c → x ∈ s.readyQueue → x ≠ c →
      (∀ x ∈ s.readyQueue, x ≠ c → (s.heap x).status ≠ .ready) →
      Stuck s (.call (.terminate (i : ℕ))) .deletedContext

/-- The kernel holds the signal back. This is no fault, the signal arrives later. -/
def Held (s : State) (e : Event) (f : Fault) : Prop :=
  e = .timer ∧ s.masked = true ∧ f = .signalMasked

/-- The event calls `switchThread`, which saves the context and reads the status of
`curRunning`, with a deleted record there. -/
def UsesDeleted (remains : ThreadRef → Thread → Thread) (s : State) (e : Event) : Prop :=
  ∃ s' c, SwitchEntry (uthreads remains) s e s' ∧ s'.curRunning = some c ∧ s'.deleted c = true

variable {remains : ThreadRef → Thread → Thread} {s t : State} {c : ThreadRef} {e : Event}
  {o : Outcome} {f : Fault} {tr : List (Event × Outcome)}

theorem usesDeleted_iff (hi : Invariant s) : UsesDeleted remains s e ↔ SelfTerminate s e := by
  constructor
  · rintro ⟨s', c, hentry, hcur, hdel⟩
    obtain ⟨d, hd, hlive⟩ := hi.current_live
    by_contra hne
    have hold : s'.curRunning = some d ∧ s'.deleted d = false := by
      rcases hentry with ⟨_, rfl⟩ | hcall
      · exact ⟨hd, hi.live_not_deleted d hlive⟩
      · have hm : e = .timer → s.masked = false := by
          obtain ⟨_, _, rfl, _⟩ := hcall
          simp
        obtain ⟨ctx, s'', he, hmask⟩ := switch_entry hi.toTable hd hlive hm (Or.inr hcall)
        obtain ⟨hcons, _⟩ := enters_consistent hi he
        have halive := hcons.live_not_deleted d ((enters_not_exit he hne).mpr hlive)
        have hcur' : s''.curRunning = some d := enters_curRunning he
        rcases hmask with rfl | rfl
        · exact ⟨hcur', halive⟩
        · exact ⟨hcur', halive⟩
    obtain rfl := Option.some.inj (hold.1.symm.trans hcur)
    rw [hold.2] at hdel
    cases hdel
  · rintro ⟨i, c, rfl, h0, hcell, hc⟩
    exact ⟨_, c, Or.inr ⟨_, _, rfl, uthreadTerminate_self hcell h0 hc (hi.cell_id i c hcell)⟩, hc,
      terminated_deleted remains i c s⟩

theorem exit_stays (hn : NeverRunning remains) (i : Fin maxThreadNum) (c : ThreadRef)
    (s : State) : ¬ Preempts (terminated remains i c s) c := by
  intro hp
  apply hn c (s.heap c)
  simpa [terminated] using hp.1

theorem exit_queue (hn : NeverRunning remains) (i : Fin maxThreadNum) (c : ThreadRef)
    (s : State) :
    queueAtPick (terminated remains i c s) c = s.readyQueue.filter (· ≠ c) :=
  queueAtPick_of_stays (exit_stays hn i c s)

theorem exit_status (hn : NeverRunning remains) (i : Fin maxThreadNum) (s : State)
    {c x : ThreadRef} (hx : x ≠ c) :
    statusAtPick (terminated remains i c s) c x = (s.heap x).status := by
  rw [statusAtPick_of_stays (exit_stays hn i c s), terminated_of_ne hx]

/-- Only the third exit of the pick loop reaches a deleted record, and only for a thread
that has just terminated itself. -/
theorem stuck_of_deleted (hn : NeverRunning remains) (hi : Invariant s) (hq : QueueLive s)
    {ctx : Context} {s' : State} {next : ThreadRef} {rest : List ThreadRef}
    (he : Enters remains s e c ctx s') (hp : Picks s' c next rest)
    (hd : s'.deleted next = true) : Stuck s e .deletedContext := by
  obtain ⟨hcons, _, _, hlive, _⟩ := enters_consistent hi he
  have hqueue := enters_queue_live (Or.inl hn) hi hq he
  have hdead : ¬ s'.Live next := by
    intro hl
    rw [hcons.live_not_deleted next hl] at hd
    cases hd
  cases hp with
  | entry hsweep => exact (hdead (hqueue next (sweep_mem hsweep))).elim
  | main _ hm => exact (hdead ⟨0, hm⟩).elim
  | current hne hnone =>
    cases he with
    | timer => exact (hdead hlive).elim
    | blockSelf => exact (hdead hlive).elim
    | sleep => exact (hdead hlive).elim
    | @exit i _ hcell h0 hc =>
      have hmem : ∀ {x}, x ∈ s.readyQueue → x ≠ c →
          x ∈ queueAtPick (terminated remains i c s) c := by
        intro x hx hxc
        rw [exit_queue hn]
        exact List.mem_filter.mpr ⟨hx, by simpa using hxc⟩
      obtain ⟨x, hx⟩ := List.exists_mem_of_ne_nil _ hne
      rw [exit_queue hn, List.mem_filter] at hx
      refine .lost h0 hcell hc hx.1 (by simpa using hx.2) fun y hy hyc hready => ?_
      refine not_ready_of_used_up hcons (hqueue y (hmem hy hyc)) (hmem hy hyc) hnone ?_
      rw [exit_status hn i s hyc]
      exact hready

theorem lost_faults (hn : NeverRunning remains) (hi : Invariant s) {i : Fin maxThreadNum}
    {x : ThreadRef} (h0 : i ≠ 0) (hcell : s.allThreads i = some c) (hc : s.curRunning = some c)
    (hx : x ∈ s.readyQueue) (hxc : x ≠ c)
    (hnone : ∀ x ∈ s.readyQueue, x ≠ c → (s.heap x).status ≠ .ready) :
    step (uthreads remains) s (.call (.terminate (i : ℕ))) = .error .deletedContext := by
  have hs : step (uthreads remains) s (.call (.terminate (i : ℕ))) =
      switchThread (uthreads remains) (.selfTerminate (i : ℕ))
        (maskSignals (terminated remains i c s)) := by
    simp only [step, request, uthreadTerminate_self hcell h0 hc (hi.cell_id i c hcell), ok_bind]
    rfl
  have hqueue : queueAtPick (maskSignals (terminated remains i c s)) c =
      s.readyQueue.filter (· ≠ c) := exit_queue hn i c s
  have hmem : x ∈ s.readyQueue.filter (· ≠ c) := List.mem_filter.mpr ⟨hx, by simpa using hxc⟩
  have hpick : Picks (maskSignals (terminated remains i c s)) c c [] := by
    refine .current ?_ (sweep_none_of_all ?_)
    · rw [hqueue]
      exact List.ne_nil_of_mem hmem
    · intro y hy k htake
      rw [hqueue, List.mem_filter] at hy
      have hyc : y ≠ c := by simpa using hy.2
      exact hnone y hy.1 hyc ((exit_status hn i s hyc).symm.trans htake.1)
  rw [hs]
  exact switchThread_deleted _ hc hpick (terminated_deleted remains i c s)

theorem refused_iff_stuck (hn : NeverRunning remains) (hi : Invariant s) (hq : QueueLive s)
    (e : Event) (f : Fault) :
    step (uthreads remains) s e = .error f ↔ Stuck s e f ∨ Held s e f := by
  obtain ⟨c, hc, hlive⟩ := hi.current_live
  constructor
  · intro hf
    rcases step_cases remains hi.toTable hc hlive e with
      ⟨_, _, _, _, hs, _⟩ | ⟨ctx, s', hs, he⟩ | ⟨f', hs, hr⟩
    · rw [hs] at hf
      cases hf
    · obtain ⟨hcons, _, _, _, henv⟩ := enters_consistent hi he
      obtain ⟨next, rest, hp⟩ := exists_picks hcons.toTable c
      cases hd : s'.deleted next with
      | true =>
        rw [hs, switchThread_deleted ctx (enters_curRunning he) hp hd] at hf
        cases hf
        exact Or.inl (stuck_of_deleted hn hi hq he hp hd)
      | false =>
        obtain ⟨v, t, hok⟩ : ∃ v t, switchThread (uthreads remains) ctx s' =
            .ok (.dispatched next v, t) :=
          switchThread_dispatches (enters_curRunning he) hcons.distinct hp hd
            fun tid => henv next tid hd
        rw [hs, hok] at hf
        cases hf
    · rw [hs] at hf
      cases hf
      cases hr with
      | exits => exact Or.inl .exits
      | held hm => exact Or.inr ⟨rfl, hm, rfl⟩
  · rintro (hf | ⟨rfl, hm, rfl⟩)
    · cases hf with
      | exits =>
        obtain ⟨m, hm⟩ := hi.main_cell
        exact step_terminate_main hm
      | lost h0 hcell hc hx hxc hnone => exact lost_faults hn hi h0 hcell hc hx hxc hnone
    · simp only [step, hm, if_true]

/-- Which events do not go through, and which run a switch on a deleted record: that of a
thread which terminates itself. -/
theorem faults_iff_stuck (hn : NeverRunning remains) (h : Runs remains tr s) (e : Event) :
    (∀ f, step (uthreads remains) s e = .error f ↔ Stuck s e f ∨ Held s e f) ∧
      (UsesDeleted remains s e ↔ SelfTerminate s e) := by
  obtain ⟨hi, hq⟩ := reachable_queue_live hn h
  exact ⟨refused_iff_stuck hn hi hq e, usesDeleted_iff hi⟩

/-- Main has resumed itself, so no queue holds it when thread 1 exits. -/
theorem faults_iff_stuck_lost_main :
    let s := after freedRecord initial [.call (.spawn (some 7)), .call (.spawn (some 8)),
      .call (.resume 0), .timer, .call (.block 2)]
    let e : Event := .call (.terminate 1)
    step (uthreads freedRecord) s e = .error .deletedContext ∧ UsesDeleted freedRecord s e := by
  intro s e
  have h := faults_iff_stuck (fun r t => by simp [freedRecord]) (runs_history freedRecord
    [.call (.spawn (some 7)), .call (.spawn (some 8)), .call (.resume 0), .timer,
      .call (.block 2)] (by decide +kernel)) e
  refine ⟨(h.1 _).mpr (Or.inl ?_), h.2.mpr ⟨1, 1, rfl, by decide, by decide +kernel,
    by decide +kernel⟩⟩
  exact .lost (i := 1) (c := 1) (x := 2) (by decide) (by decide +kernel) (by decide +kernel)
    (by decide +kernel) (by decide) (by decide +kernel)

theorem reachable_one_runs (hn : NeverRunning remains) (h : Runs remains tr s)
    (hk : EachStep (step (uthreads remains)) KeepsOneRunning initial tr) :
    (Invariant s ∧ QueueLive s) ∧ OneRuns s := by
  refine h.invariant_of_eachStep (I := fun s => (Invariant s ∧ QueueLive s) ∧ OneRuns s) hk
    ⟨⟨initial_invariant, fun r hr => by cases hr⟩, initial_one_runs⟩ ?_
  intro s e o t ⟨⟨hi, hq⟩, hone⟩ hke hs
  refine ⟨⟨step_preserves_invariant hi hs, step_queue_live hn hi hq hs⟩, ?_⟩
  cases step_effect hi hs with
  | quiet hquiet => exact (quiet_one_runs_iff hi hone hquiet).mpr hke
  | switch he hd => exact (switch_one_runs_iff hn hi hq hone he hd).mpr hke

/-- Main can neither block nor sleep. So if it does not run it is READY and queued, and if it
runs the switch puts it there. -/
theorem main_atPick (hi : Invariant s) (hone : OneRuns s) {ctx : Context} {s' : State}
    (he : Enters remains s e c ctx s') :
    ∃ m, s'.Live m ∧ statusAtPick s' c m = .ready ∧ m ∈ queueAtPick s' c := by
  obtain ⟨hcons, _, hc, _⟩ := enters_consistent hi he
  obtain ⟨m, hm⟩ := hcons.main_cell
  have hmlive : s'.Live m := ⟨0, hm⟩
  refine ⟨m, hmlive, ?_⟩
  by_cases hmc : m = c
  · subst hmc
    have hrun : (s.heap m).status = .running := by
      obtain ⟨d, hd, _, hrun⟩ := hone.current
      obtain rfl : m = d := Option.some.inj (hc.symm.trans hd)
      exact hrun
    have hmain : ∀ {tid}, s.At tid m → s.allThreads 0 = some m → tid = mainThreadTid := by
      rintro tid ⟨i, rfl, him⟩ hm
      rw [hi.distinct i 0 m him hm]
      rfl
    cases he with
    | timer =>
      have hp : Preempts s m := ⟨hrun, hi.main_awake m hm⟩
      refine ⟨if_pos ⟨rfl, hp⟩, ?_⟩
      rw [queueAtPick, if_pos hp]
      exact List.mem_append_right _ (List.mem_singleton_self m)
    | blockSelf hr h0 => exact (h0 (hmain hr hm)).elim
    | sleep _ _ h0 => exact (h0 (hi.cell_id 0 m hm)).elim
    | @exit i _ hcell h0 =>
      rw [terminated_cell_of_ne remains m s (Ne.symm h0)] at hm
      exact (h0 (hi.distinct i 0 m hcell hm)).elim
  · obtain ⟨hstop, hacc⟩ := enters_others hi hone he hmlive hmc
    rcases hacc with hb | hsleep | hready
    · exact (hcons.main_unblocked m hm ((statusAtPick_blocked s' c m).mp hb)).elim
    · rw [hcons.main_awake m hm] at hsleep
      cases hsleep
    · exact hready

/-- `nextAvailableReady`, called in the switch of `c`, returns a READY thread that it has
popped. -/
def PopsReady (ctx : Context) (c : ThreadRef) (s' : State) : Prop :=
  ∃ next, (nextAvailableReady (yielded ctx c s')).1 = some next ∧
    next ∈ (yielded ctx c s').readyQueue ∧ ((yielded ctx c s').heap next).status = .ready

theorem popsReady_of_sweep (ctx : Context) {s' : State} {next : ThreadRef}
    {rest : List ThreadRef} (hc : s'.curRunning = some c)
    (h : sweep (takes (statusAtPick s' c) (surplusOf s'.heap s'.readyQueue)) (queueAtPick s' c) =
      some (next, rest)) : PopsReady ctx c s' := by
  refine ⟨next, picks_nextAvailableReady ctx hc (.entry h), sweep_mem h, ?_⟩
  rw [← (sweep_split h).1.1]
  exact congrFun (yielded_status ctx c s') next

/-- The loop finds main at the latest. -/
theorem enters_sweep (hi : Invariant s) (hone : OneRuns s) {ctx : Context} {s' : State}
    (he : Enters remains s e c ctx s') :
    ∃ next rest, sweep (takes (statusAtPick s' c) (surplusOf s'.heap s'.readyQueue))
      (queueAtPick s' c) = some (next, rest) := by
  obtain ⟨hcons, _⟩ := enters_consistent hi he
  obtain ⟨m, hlive, hst, hq⟩ := main_atPick hi hone he
  obtain ⟨next, rest, hsweep, _⟩ := live_entry_reached hcons hlive hst hq
  exact ⟨next, rest, hsweep⟩

theorem entry_popsReady (hi : Invariant s) (hone : OneRuns s)
    (hm : e = .timer → s.masked = false) {s' : State}
    (h : SwitchEntry (uthreads remains) s e s') (hc : s'.curRunning = some c) (ctx : Context) :
    PopsReady ctx c s' := by
  obtain ⟨d, hd, hlive⟩ := hi.current_live
  obtain ⟨ctx', s'', he, hmask⟩ := switch_entry hi.toTable hd hlive hm h
  obtain ⟨next, rest, hsweep⟩ := enters_sweep hi hone he
  have hcur := enters_curRunning he
  rcases hmask with rfl | rfl
  · obtain rfl : d = c := Option.some.inj (hcur.symm.trans hc)
    exact popsReady_of_sweep ctx hc hsweep
  · obtain rfl : d = c := Option.some.inj (hcur.symm.trans hc)
    have hmasked : (maskSignals s'').curRunning = some d := hc
    exact popsReady_of_sweep ctx hmasked hsweep

theorem accepts (hn : NeverRunning remains) (hi : Invariant s) (hq : QueueLive s)
    (hone : OneRuns s) (hexit : e ≠ .call (.terminate mainThreadTid))
    (hheld : e = .timer → s.masked = false) : ∃ o t, step (uthreads remains) s e = .ok (o, t) := by
  obtain ⟨c, hc, hlive⟩ := hi.current_live
  rcases step_cases remains hi.toTable hc hlive e with
    ⟨_, o, t, _, hs, _⟩ | ⟨ctx, s', hs, he⟩ | ⟨f, _, hr⟩
  · exact ⟨o, t, hs⟩
  · obtain ⟨hcons, _, _, _, henv⟩ := enters_consistent hi he
    have hqueue := enters_queue_live (Or.inl hn) hi hq he
    obtain ⟨next, rest, hsweep⟩ := enters_sweep hi hone he
    have hd := hcons.live_not_deleted next (hqueue next (sweep_mem hsweep))
    obtain ⟨v, t, hok⟩ : ∃ v t, switchThread (uthreads remains) ctx s' =
        .ok (.dispatched next v, t) :=
      switchThread_dispatches (enters_curRunning he) hcons.distinct (.entry hsweep) hd
        fun tid => henv next tid hd
    exact ⟨_, t, hs.trans hok⟩
  · cases hr with
    | exits => exact (hexit rfl).elim
    | held hm =>
      rw [hheld rfl] at hm
      cases hm

/-- Neither `return allThreads[0]` nor `return curRunning` is ever reached, all but the exit
of the process and a timer signal that is held back goes through, and only a thread that
terminates itself does so by way of a deleted record. -/
theorem never_falls_back (hn : NeverRunning remains) (h : Runs remains tr s)
    (hk : EachStep (step (uthreads remains)) KeepsOneRunning initial tr) :
    (∀ e s' c ctx, (e = .timer → s.masked = false) → SwitchEntry (uthreads remains) s e s' →
        s'.curRunning = some c → PopsReady ctx c s') ∧
      (∀ e, e ≠ .call (.terminate mainThreadTid) → (e = .timer → s.masked = false) →
        ∃ o t, step (uthreads remains) s e = .ok (o, t)) ∧
      ∀ e, UsesDeleted remains s e ↔ SelfTerminate s e := by
  obtain ⟨⟨hi, hq⟩, hone⟩ := reachable_one_runs hn h hk
  exact ⟨fun e s' c ctx hm he hc => entry_popsReady hi hone hm he hc ctx,
    fun e hexit hheld => accepts hn hi hq hone hexit hheld, fun e => usesDeleted_iff hi⟩

/-- Main is the running thread, with thread 1 blocked by it. -/
theorem never_falls_back_blocked :
    let s := after freedRecord initial [.call (.spawn (some 7)), .call (.block 1)]
    (∀ e s' c ctx, (e = .timer → s.masked = false) → SwitchEntry (uthreads freedRecord) s e s' →
        s'.curRunning = some c → PopsReady ctx c s') ∧
      (∀ e, e ≠ .call (.terminate mainThreadTid) → (e = .timer → s.masked = false) →
        ∃ o t, step (uthreads freedRecord) s e = .ok (o, t)) ∧
      ∀ e, UsesDeleted freedRecord s e ↔ SelfTerminate s e := by
  intro s
  have h₁ := step_after freedRecord (s := initial) (e := .call (.spawn (some 7)))
    (o := .returned 1) (by decide +kernel)
  have h₂ := step_after freedRecord
    (s := after freedRecord initial [.call (.spawn (some 7))]) (e := .call (.block 1))
    (o := .returned 0) (by decide +kernel)
  have hr := runs_history freedRecord [.call (.spawn (some 7)), .call (.block 1)]
    (by decide +kernel)
  have htr : history freedRecord initial [.call (.spawn (some 7)), .call (.block 1)] =
      [(.call (.spawn (some 7)), .returned 1), (.call (.block 1), .returned 0)] := by
    decide +kernel
  rw [htr] at hr
  exact never_falls_back (fun r t => by simp [freedRecord]) hr
    (.cons trivial h₁ (.cons trivial h₂ (.nil _)))

end Progress
