import Uthreads.StarvationFreedom
import Uthreads.Commutation

/-! # Lost threads

A thread that is neither running nor blocked nor asleep and has no entry in the queue: nobody
schedules it again. Waking it up is no use, it has to be blocked first. -/
namespace LostThreads

open ThreadLibrary SwitchSemantics CallEffects EventRuns ThreadInvariant LazyQueue
  StarvationFreedom Commutation

structure Lost (s : State) (r : ThreadRef) : Prop where
  live : s.Live r
  unblocked : (s.heap r).status ≠ .blocked
  awake : (s.heap r).isSleep = false
  unqueued : r ∉ s.readyQueue
  idle : s.curRunning ≠ some r

/-- The ways out: `r` is blocked or terminated, or it is main and a switch finds the queue
empty. -/
def Releases (remains : ThreadRef → Thread → Thread) (s : State) (r : ThreadRef) (e : Event) :
    Prop :=
  Withdraws s r e ∨ (s.allThreads 0 = some r ∧
    ∃ c ctx s', Enters remains s e c ctx s' ∧ queueAtPick s' c = [])

variable {remains : ThreadRef → Thread → Thread} {s t : State} {c r : ThreadRef} {e : Event}
  {o : Outcome} {tr : List (Event × Outcome)}

theorem Lost.frame (h : Lost s r) (hheap : t.heap r = s.heap r) (hlive : t.Live r)
    (hcur : t.curRunning = s.curRunning) (hqueue : r ∉ t.readyQueue) : Lost t r :=
  ⟨hlive, by rw [hheap]; exact h.unblocked, by rw [hheap]; exact h.awake, hqueue,
    by rw [hcur]; exact h.idle⟩

theorem Lost.withMask (h : Lost s r) (b : Bool) : Lost { s with masked := b } r :=
  ⟨h.live, h.unblocked, h.awake, h.unqueued, h.idle⟩

/-- Resuming a thread that is not blocked does not queue it. -/
theorem Lost.resumed (h : Lost s r) (q : ThreadRef) : Lost (CallEffects.resumed q s) r := by
  by_cases hrq : r = q
  · subst hrq
    have hreq : ¬ Requeues s r := fun hr => h.unblocked hr.2
    refine ⟨h.live, ?_, ?_, ?_, h.idle⟩
    · rw [resumed_self]
      simp
    · rw [resumed_self]
      exact h.awake
    · rw [resumed_readyQueue, if_neg hreq, List.append_nil]
      exact h.unqueued
  · refine h.frame (resumed_of_ne hrq) h.live rfl ?_
    rw [resumed_readyQueue]
    intro hr
    rcases List.mem_append.mp hr with hr | hr
    · exact h.unqueued hr
    · split at hr <;> simp [hrq] at hr

theorem Lost.terminated (remains : ThreadRef → Thread → Thread) (ht : Table s) (h : Lost s r)
    {i : Fin maxThreadNum} {q : ThreadRef} (hi : s.allThreads i = some q) (hrq : r ≠ q) :
    Lost (CallEffects.terminated remains i q s) r :=
  h.frame (terminated_of_ne hrq) ((terminated_live ht remains hi r).mpr ⟨h.live, hrq⟩) rfl
    fun hr => h.unqueued (List.mem_of_mem_filter hr)

theorem quiet_keeps_lost {call : Call} (hi : Invariant s) (h : Lost s r)
    (hw : ¬ Withdraws s r (.call call)) (hq : Quiet remains s call o t) : Lost t r := by
  cases hq with
  | idle b => exact h.withMask b
  | @spawn pc i hfree =>
    have hne := hi.ne_fresh h.live
    refine Lost.withMask (s := spawned i pc s) (h.frame (spawned_of_ne hne)
      ((spawned_live pc hfree r).mpr (Or.inr h.live)) rfl fun hr => ?_) false
    rcases List.mem_append.mp hr with hr | hr
    · exact h.unqueued hr
    · exact hne (List.mem_singleton.mp hr)
  | @block tid q c hq h0 =>
    have hrq : r ≠ q := by
      rintro rfl
      exact hw ⟨hq, h0⟩
    exact Lost.withMask (s := blocked q s)
      (h.frame (blocked_of_ne hrq) h.live rfl h.unqueued) false
  | @resume tid q => exact (h.resumed q).withMask false
  | @terminate i q c hq =>
    have hrq : r ≠ q := by
      rintro rfl
      exact hw ⟨i, rfl, hq⟩
    exact (h.terminated remains hi.toTable hq hrq).withMask false

theorem enters_keeps_lost {ctx : Context} {s' : State} (hi : Invariant s) (h : Lost s r)
    (he : Enters remains s e c ctx s') : r ≠ c ∧ Lost s' r := by
  obtain ⟨_, _, hc, _⟩ := enters_consistent hi he
  have hrc : r ≠ c := by
    rintro rfl
    exact h.idle hc
  refine ⟨hrc, ?_⟩
  cases he with
  | timer => exact h
  | blockSelf => exact h.frame (blocked_of_ne hrc) h.live rfl h.unqueued
  | sleep => exact h.frame (asleep_of_ne hrc) h.live rfl h.unqueued
  | exit hcell => exact h.terminated remains hi.toTable hcell hrc

theorem unqueued_atPick (h : Lost s r) (hrc : r ≠ c) : r ∉ queueAtPick s c := by
  intro hr
  rcases List.mem_append.mp hr with hr | hr
  · exact h.unqueued hr
  · split at hr <;> simp [hrc] at hr

theorem unqueued_after_pick {next : ThreadRef} {rest : List ThreadRef} (hp : Picks s c next rest)
    (hr : r ∉ queueAtPick s c) : r ∉ rest := by
  cases hp with
  | entry hsweep =>
    obtain ⟨_, dropped, hsplit⟩ := sweep_split hsweep
    rw [hsplit] at hr
    simp only [List.mem_append, List.mem_cons, not_or] at hr
    exact hr.2.2
  | main => exact List.not_mem_nil
  | current => exact List.not_mem_nil

/-- The wake-up pass does not see a thread that is awake. -/
theorem switch_loses {next : ThreadRef} {ctx : Context} (hs : Consistent s) (hlive : s.Live r)
    (hstatus : statusAtPick s c r ≠ .blocked) (hawake : (s.heap r).isSleep = false)
    (hq : r ∉ queueAtPick s c) (hne : next ≠ r) (hsw : Switch s c ctx next t) : Lost t r := by
  obtain ⟨rest, woke, hp, hqueue, _, hwoke⟩ := hsw.queue
  have hidle := hs.awake_clock r hlive hawake
  have hclock := hsw.clock r hlive
  rw [tick_awake hawake hidle] at hclock
  refine ⟨?_, ?_, hclock.1.trans hawake, ?_, ?_⟩
  · simpa only [State.Live, hsw.allThreads] using hlive
  · rw [hsw.status, if_neg hne.symm]
    exact hstatus
  · rw [hqueue]
    intro hr
    rcases List.mem_append.mp hr with hr | hr
    · exact unqueued_after_pick hp hq hr
    · have hdue := ((hwoke r).mp hr).2.1
      simp [Due, hawake, hidle] at hdue
  · rw [hsw.curRunning]
    simpa using hne

/-- No exit of the pick loop leads to a lost thread. -/
theorem switch_keeps_lost {next : ThreadRef} {ctx : Context} (hs : Consistent s) (h : Lost s r)
    (hrc : r ≠ c) (hmain : s.allThreads 0 = some r → queueAtPick s c ≠ [])
    (hsw : Switch s c ctx next t) : next ≠ r ∧ Lost t r := by
  have hunqueued := unqueued_atPick h hrc
  have hne : next ≠ r := by
    obtain ⟨rest, _, hp, _⟩ := hsw.queue
    rintro rfl
    cases hp with
    | entry hsweep => exact hunqueued (sweep_mem hsweep)
    | main hempty hcell => exact hmain hcell hempty
    | current => exact hrc rfl
  refine ⟨hne, switch_loses hs h.live ?_ h.awake hunqueued hne hsw⟩
  rw [statusAtPick_of_ne hrc]
  exact h.unblocked

theorem enters_main_cell {ctx : Context} {s' : State} (he : Enters remains s e c ctx s') :
    s'.allThreads 0 = s.allThreads 0 := by
  cases he with
  | timer => rfl
  | blockSelf => rfl
  | sleep => rfl
  | exit _ h0 => exact Function.update_of_ne h0.symm ..

theorem step_keeps_lost (hi : Invariant s) (h : Lost s r) (hr : ¬ Releases remains s r e)
    (hs : step (uthreads remains) s e = .ok (o, t)) :
    dispatchedThread o ≠ some r ∧ Lost t r := by
  have hw : ¬ Withdraws s r e := fun hw => hr (Or.inl hw)
  cases step_effect hi hs with
  | quiet hq =>
    have ho : dispatchedThread o = none := by
      cases o with
      | dispatched next v => exact (hq.returns next v rfl).elim
      | _ => rfl
    exact ⟨by simp [ho], quiet_keeps_lost hi h hw hq⟩
  | @switch _ c ctx s' next v _ he hd =>
    obtain ⟨hcons, _⟩ := enters_consistent hi he
    obtain ⟨hrc, hlost⟩ := enters_keeps_lost hi h he
    have hmain : s'.allThreads 0 = some r → queueAtPick s' c ≠ [] := by
      intro hcell hempty
      exact hr (Or.inr ⟨(enters_main_cell he).symm.trans hcell, c, ctx, s', he, hempty⟩)
    obtain ⟨hne, hlost'⟩ := switch_keeps_lost hcons hlost hrc hmain hd.toSwitch
    exact ⟨by simpa [dispatchedThread] using hne, hlost'⟩

theorem run_keeps_lost (hi : Invariant s) (h : Lost s r)
    (hx : Exec (step (uthreads remains)) s tr t)
    (hr : EachStep (step (uthreads remains)) (fun s e => ¬ Releases remains s r e) s tr) :
    Lost t r ∧ r ∉ dispatched tr := by
  induction hx with
  | nil => exact ⟨h, List.not_mem_nil⟩
  | @cons s e o t tr u hs _ ih =>
    obtain ⟨ho, hlost⟩ := step_keeps_lost hi h hr.head hs
    obtain ⟨hlost', hnot⟩ := ih (step_preserves_invariant hi hs) hlost (hr.tail hs)
    refine ⟨hlost', fun hmem => ?_⟩
    exact (mem_dispatched_cons.mp hmem).elim ho hnot

/-- A thread that resumes itself is no longer taken for the running one, and the next timer
switch to another thread forgets it. -/
theorem self_resume_loses {tid : ℤ} {next : ThreadRef} {v : Option ℤ} (h : Runs remains tr s)
    (hc : s.curRunning = some c) (hat : s.At tid c) (hawake : (s.heap c).isSleep = false)
    (hq : c ∉ s.readyQueue) (hne : next ≠ c)
    (hx : Exec (step (uthreads remains)) s
      [(.call (.resume tid), o), (.timer, .dispatched next v)] t) : Lost t c := by
  have hi := reachable_invariant h
  obtain ⟨u, hresume, hx⟩ := hx.cons_inv
  obtain ⟨w, htimer, hnil⟩ := hx.cons_inv
  cases hnil
  have hu : u = unmaskSignals (resumed c s) := by
    simp only [step, request, uthreadResume_ok hat, ok_bind, pure_ok] at hresume
    cases hresume
    rfl
  have hcu : u.curRunning = some c := hu ▸ hc
  have hready : (u.heap c).status = .ready := hu ▸ congrArg Thread.status resumed_self
  have hreq : ¬ Requeues s c := fun hr => hi.current_unblocked c hc hr.2
  have hqueue : u.readyQueue = s.readyQueue := by
    rw [hu]
    exact (resumed_readyQueue ..).trans (by rw [if_neg hreq, List.append_nil])
  have hstays : ¬ Preempts u c := fun hp => by cases hready.symm.trans hp.1
  cases step_effect (step_preserves_invariant hi hresume) htimer with
  | switch he hd =>
    cases he with
    | timer _ hd' =>
      obtain rfl := Option.some.inj (hcu.symm.trans hd')
      refine switch_loses (step_preserves_invariant hi hresume).toConsistent ?_ ?_ ?_ ?_ hne
        hd.toSwitch
      · exact hu ▸ At.live hat
      · rw [statusAtPick_of_stays hstays, hready]
        simp
      · exact hu ▸ (congrArg Thread.isSleep resumed_self).trans hawake
      · rw [queueAtPick_of_stays hstays, hqueue]
        exact hq

/-- The status that a block leaves is what makes the resume queue the thread. -/
theorem block_resume_queues (remains : ThreadRef → Thread → Thread) (hi : Invariant s)
    (h : Lost s r) {i : Fin maxThreadNum} (hr : s.allThreads i = some r) (h0 : i ≠ 0) :
    ∃ t, Exec (step (uthreads remains)) s
      [(.call (.block (i : ℕ)), .returned 0), (.call (.resume (i : ℕ)), .returned 0)] t ∧
        Waiting t r := by
  have hblock := operation_step remains .block hi hr h0 h.idle
  have hi' := step_preserves_invariant hi hblock
  have hresume := operation_step remains .resume hi' hr h0 h.idle
  have hreq : Requeues (unmaskSignals (blocked r s)) r := by
    refine ⟨?_, ?_⟩
    · exact (congrArg Thread.isSleep blocked_self).trans h.awake
    · exact congrArg Thread.status blocked_self
  refine ⟨_, .cons hblock (.single hresume), h.live, ?_, ?_, ?_, h.idle⟩
  · exact congrArg Thread.status resumed_self
  · exact (congrArg Thread.isSleep resumed_self).trans hreq.1
  · refine List.mem_append_right _
      (?_ : r ∈ if Requeues (unmaskSignals (blocked r s)) r then [r] else [])
    rw [if_pos hreq]
    exact List.mem_singleton_self r

theorem lost_until_blocked (h : Runs remains tr s) (hl : Lost s r) :
    (∀ tr' t, Exec (step (uthreads remains)) s tr' t →
      EachStep (step (uthreads remains)) (fun s e => ¬ Releases remains s r e) s tr' →
      Lost t r ∧ r ∉ dispatched tr') ∧
    ∀ i : Fin maxThreadNum, s.allThreads i = some r → i ≠ 0 →
      ∃ t, Exec (step (uthreads remains)) s
        [(.call (.block (i : ℕ)), .returned 0), (.call (.resume (i : ℕ)), .returned 0)] t ∧
          Waiting t r :=
  have hi := reachable_invariant h
  ⟨fun _ _ hx hr => run_keeps_lost hi hl hx hr,
    fun _ hr h0 => block_resume_queues remains hi hl hr h0⟩

/-- Thread 1 has resumed itself before it was preempted. -/
theorem lost_until_blocked_self_resume :
    let s := after freedRecord initial
      [.call (.spawn (some 7)), .timer, .call (.resume 1), .timer]
    (∀ tr' t, Exec (step (uthreads freedRecord)) s tr' t →
      EachStep (step (uthreads freedRecord)) (fun s e => ¬ Releases freedRecord s 1 e) s tr' →
      Lost t 1 ∧ 1 ∉ dispatched tr') ∧
    ∀ i : Fin maxThreadNum, s.allThreads i = some 1 → i ≠ 0 →
      ∃ t, Exec (step (uthreads freedRecord)) s
        [(.call (.block (i : ℕ)), .returned 0), (.call (.resume (i : ℕ)), .returned 0)] t ∧
          Waiting t 1 :=
  lost_until_blocked (runs_history freedRecord
    [.call (.spawn (some 7)), .timer, .call (.resume 1), .timer] (by decide +kernel))
    ⟨⟨1, by decide +kernel⟩, by decide +kernel, by decide +kernel, by decide +kernel,
      by decide +kernel⟩

end LostThreads
