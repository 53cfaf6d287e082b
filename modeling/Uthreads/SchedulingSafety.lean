import Uthreads.ThreadInvariant

/-! # Terminated and blocked threads

When deleted records stay out of scheduling, and when blocked threads do. -/
namespace SchedulingSafety

open ThreadLibrary SwitchSemantics CallEffects EventRuns ThreadInvariant LazyQueue

variable {remains : ThreadRef → Thread → Thread} {s t : State} {tid : ℤ} {r c : ThreadRef}
  {e : Event} {o : Outcome} {tr : List (Event × Outcome)}

/-- Every entry to `switchThread` finds a thread of the table as `curRunning`, and after
every operation the queue holds only threads of the table. -/
def DeletedUnused (remains : ThreadRef → Thread → Thread) (tr : List (Event × Outcome)) :
    Prop :=
  ∀ pre e o post p t, tr = pre ++ (e, o) :: post → Runs remains pre p →
    step (uthreads remains) p e = .ok (o, t) →
    (∀ s', SwitchEntry (uthreads remains) p e s' → ∃ c, s'.curRunning = some c ∧ s'.Live c) ∧
      QueueLive t

def SelfTerminate (s : State) (e : Event) : Prop :=
  ∃ (i : Fin maxThreadNum) (c : ThreadRef), e = .call (.terminate (i : ℕ)) ∧ i ≠ 0 ∧
    s.allThreads i = some c ∧ s.curRunning = some c

theorem enters_not_exit {ctx : Context} {s' : State} (h : Enters remains s e c ctx s')
    (hn : ¬ SelfTerminate s e) : s'.Live c ↔ s.Live c := by
  cases h with
  | timer => exact Iff.rfl
  | blockSelf => exact Iff.rfl
  | sleep => exact Iff.rfl
  | exit hi h0 hc => exact (hn ⟨_, c, rfl, h0, hi, hc⟩).elim

theorem enters_context {ctx : Context} {s' : State} (h : Enters remains s e c ctx s')
    (hn : ¬ SelfTerminate s e) (tid : ℤ) : ctx ≠ .selfTerminate tid := by
  cases h with
  | timer => simp
  | blockSelf => simp
  | sleep => simp
  | exit hi h0 hc => exact (hn ⟨_, c, rfl, h0, hi, hc⟩).elim

theorem step_keeps_queue_live (hi : Invariant s) (hq : QueueLive s) (hn : ¬ SelfTerminate s e)
    (hs : step (uthreads remains) s e = .ok (o, t)) : QueueLive t := by
  cases step_effect hi hs with
  | quiet hquiet => exact quiet_queue_live hi hq hquiet
  | switch he hd =>
    exact switch_queue_live (enters_queue_live (Or.inr (enters_context he hn)) hi hq he)
      hd.toSwitch

theorem deleted_unused_iff (h : Runs remains tr s) : DeletedUnused remains tr ↔
    EachStep (step (uthreads remains)) (fun s e => ¬ SelfTerminate s e) initial tr := by
  constructor
  · rintro hd pre e o post p he hp ⟨i, c, rfl, h0, hcell, hc⟩
    subst he
    obtain ⟨p', hp', hrest⟩ := h.split
    obtain rfl := hp.deterministic hp'
    obtain ⟨t, hs, _⟩ := hrest.cons_inv
    have hi := reachable_invariant hp
    have hentry : SwitchEntry (uthreads remains) p (.call (.terminate (i : ℕ)))
        (maskSignals (terminated remains i c p)) :=
      Or.inr ⟨_, _, rfl, uthreadTerminate_self hcell h0 hc (hi.cell_id i c hcell)⟩
    obtain ⟨d, hd, hlive⟩ := (hd pre _ o post p t rfl hp hs).1 _ hentry
    obtain rfl : c = d := Option.some.inj (hc.symm.trans hd)
    exact ((terminated_live hi.toTable remains hcell c).mp hlive).2 rfl
  · intro hc pre e o post p t he hp hs
    subst he
    have hpre : Invariant p ∧ QueueLive p :=
      hp.invariant_of_eachStep (I := fun s => Invariant s ∧ QueueLive s) hc.of_append
        ⟨initial_invariant, fun r hr => by cases hr⟩
        fun s e o t hs hcs hst => ⟨step_preserves_invariant hs.1 hst,
          step_keeps_queue_live hs.1 hs.2 hcs hst⟩
    have hne : ¬ SelfTerminate p e := hc pre e o post p rfl hp
    refine ⟨?_, step_keeps_queue_live hpre.1 hpre.2 hne hs⟩
    intro s' hentry
    obtain ⟨c, hcur, hlive⟩ := hpre.1.current_live
    have hm : e = .timer → p.masked = false := by
      rintro rfl
      cases hm : p.masked with
      | false => rfl
      | true => simp [step, hm] at hs
    obtain ⟨ctx, s'', he, hmask⟩ := switch_entry hpre.1.toTable hcur hlive hm hentry
    have hcur' := enters_curRunning he
    have hlive' := (enters_not_exit he hne).mpr hlive
    rcases hmask with rfl | rfl
    · exact ⟨c, hcur', hlive'⟩
    · exact ⟨c, hcur', hlive'⟩

theorem deleted_unused_iff_other_terminate :
    let tr := history freedRecord initial [.call (.spawn (some 7)), .call (.terminate 1)]
    DeletedUnused freedRecord tr ↔
      EachStep (step (uthreads freedRecord)) (fun s e => ¬ SelfTerminate s e) initial tr :=
  deleted_unused_iff (runs_history freedRecord [.call (.spawn (some 7)), .call (.terminate 1)]
    (by decide +kernel))

/-- A thread that terminates itself enters the switch with its deleted record. -/
theorem self_terminate_uses_deleted :
    let es : List Event := [.call (.spawn (some 7)), .timer, .call (.terminate 1)]
    Runs freedRecord (history freedRecord initial es) (after freedRecord initial es) ∧
      ¬ DeletedUnused freedRecord (history freedRecord initial es) := by
  intro es
  refine ⟨runs_history freedRecord es (by decide +kernel), fun h => ?_⟩
  let p := after freedRecord initial [.call (.spawn (some 7)), .timer]
  have hpre : history freedRecord initial [.call (.spawn (some 7)), .timer] =
      [(.call (.spawn (some 7)), .returned 1), (.timer, .dispatched 1 none)] := by decide +kernel
  have hp := runs_history freedRecord [.call (.spawn (some 7)), .timer] (by decide +kernel)
  have hs : step (uthreads freedRecord) p (.call (.terminate 1)) =
      .ok (.dispatched 0 none, after freedRecord p [.call (.terminate 1)]) :=
    step_after freedRecord (by decide +kernel)
  have hentry : SwitchEntry (uthreads freedRecord) p (.call (.terminate 1))
      (maskSignals (terminated freedRecord 1 1 p)) :=
    Or.inr ⟨_, _, rfl, uthreadTerminate_self (i := 1) (by decide +kernel) (by decide)
      (by decide +kernel) (by decide +kernel)⟩
  obtain ⟨c, hc, hlive⟩ := (h _ _ _ [] _ _ (by rw [hpre]; decide +kernel) hp hs).1 _ hentry
  have hcur : (maskSignals (terminated freedRecord 1 1 p)).curRunning = some 1 := by
    decide +kernel
  obtain rfl := Option.some.inj (hcur.symm.trans hc)
  revert hlive
  decide +kernel

/-- After `uthread_block(tid)` the thread is not dispatched before the next resume or
terminate of `tid`; the switch of a thread that blocks itself counts. -/
def BlockedNeverRuns (remains : ThreadRef → Thread → Thread) (tr : List (Event × Outcome)) :
    Prop :=
  ∀ pre tid o mid post p r, tr = pre ++ (.call (.block tid), o) :: (mid ++ post) →
    Runs remains pre p → p.At tid r → tid ≠ mainThreadTid →
    (∀ x ∈ mid, x.1 ≠ .call (.resume tid) ∧ x.1 ≠ .call (.terminate tid)) →
    r ∉ dispatched ((.call (.block tid), o) :: mid)

/-- A thread blocks itself only while the queue is empty or offers another READY thread. -/
def BlocksSafely (s : State) : Event → Prop
  | .call (.block tid) => ∀ c, s.curRunning = some c → s.At tid c → tid ≠ mainThreadTid →
      s.readyQueue = [] ∨ ∃ x ∈ s.readyQueue, x ≠ c ∧ s.Live x ∧ (s.heap x).status = .ready
  | _ => True

structure Parked (s : State) (tid : ℤ) (r : ThreadRef) : Prop where
  cell : s.At tid r
  blocked : (s.heap r).status = .blocked
  idle : s.curRunning ≠ some r

theorem Parked.frame (h : Parked s tid r) (hcell : t.At tid r) (hheap : t.heap r = s.heap r)
    (hcur : t.curRunning = s.curRunning) : Parked t tid r :=
  ⟨hcell, by rw [hheap]; exact h.blocked, by rw [hcur]; exact h.idle⟩

theorem Parked.withMask (h : Parked s tid r) (b : Bool) :
    Parked { s with masked := b } tid r := ⟨h.cell, h.blocked, h.idle⟩

theorem parked_terminated {i : Fin maxThreadNum} (h : Parked s tid r)
    (hi : s.allThreads i = some c) (hrc : r ≠ c) : Parked (terminated remains i c s) tid r :=
  h.frame (terminated_at remains hi h.cell hrc) (terminated_of_ne hrc) rfl

theorem quiet_parked {call : Call} (hi : Invariant s) (h : Parked s tid r)
    (hresume : call ≠ .resume tid) (hterm : call ≠ .terminate tid)
    (hq : Quiet remains s call o t) : Parked t tid r := by
  cases hq with
  | idle b => exact h.withMask b
  | @spawn pc i hfree =>
    have hne := hi.ne_fresh (At.live h.cell)
    exact Parked.withMask (s := spawned i pc s) (h.frame (spawned_at pc hfree h.cell)
      (spawned_of_ne hne) rfl) false
  | @block i q c hq =>
    refine Parked.withMask (s := blocked q s) ⟨h.cell, ?_, h.idle⟩ false
    by_cases hrq : r = q
    · subst hrq; rw [blocked_self]
    · rw [blocked_of_ne hrq]; exact h.blocked
  | @resume i q hq =>
    have hrq := hi.at_ne h.cell hq fun hc => hresume (by rw [hc])
    exact Parked.withMask (s := resumed q s) (h.frame h.cell (resumed_of_ne hrq) rfl) false
  | @terminate i q c hq =>
    have hrq := hi.at_ne h.cell ⟨i, rfl, hq⟩ fun hc => hterm (by rw [hc])
    exact Parked.withMask (s := terminated remains i q s) (parked_terminated h hq hrq) false

theorem step_parked (hi : Invariant s) (h : Parked s tid r)
    (hresume : e ≠ .call (.resume tid)) (hterm : e ≠ .call (.terminate tid))
    (hs : step (uthreads remains) s e = .ok (o, t)) :
    dispatchedThread o ≠ some r ∧ Parked t tid r := by
  cases step_effect hi hs with
  | @quiet call _ _ hq =>
    refine ⟨?_, quiet_parked hi h (fun hc => hresume (by rw [hc])) (fun hc => hterm (by rw [hc]))
      hq⟩
    cases o with
    | dispatched next v => exact (hq.returns next v rfl).elim
    | _ => simp [dispatchedThread]
  | @switch _ c ctx s' next v _ he hd =>
    obtain ⟨hcons, _, hc, _⟩ := enters_consistent hi he
    have hrc : r ≠ c := by rintro rfl; exact h.idle hc
    have hpark : Parked s' tid r := by
      cases he with
      | timer => exact h
      | blockSelf => exact h.frame h.cell (blocked_of_ne hrc) rfl
      | sleep => exact h.frame h.cell (asleep_of_ne hrc) rfl
      | exit hcell => exact parked_terminated h hcell hrc
    have hst : statusAtPick s' c r = .blocked := (statusAtPick_of_ne hrc).trans hpark.blocked
    obtain ⟨rest, woke, hp, _⟩ := hd.queue
    have hne : next ≠ r := by
      rintro rfl
      exact picks_unblocked hcons hp (fun heq => (hrc heq).elim) hpark.blocked
    refine ⟨fun hd => hne (Option.some.inj hd), ?_, ?_, ?_⟩
    · obtain ⟨i, hi, hr⟩ := hpark.cell
      exact ⟨i, hi, by rw [hd.allThreads]; exact hr⟩
    · rw [hd.status, if_neg (Ne.symm hne), hst]
    · rw [hd.curRunning]; simpa using hne

theorem run_parked {mid : List (Event × Outcome)} (hi : Invariant s)
    (h : Parked s tid r) (hx : Exec (step (uthreads remains)) s mid t)
    (hmid : ∀ x ∈ mid, x.1 ≠ .call (.resume tid) ∧ x.1 ≠ .call (.terminate tid)) :
    r ∉ dispatched mid := by
  induction hx with
  | nil => simp [dispatched]
  | @cons s e o t mid u hs _ ih =>
    obtain ⟨hres, hterm⟩ := hmid (e, o) List.mem_cons_self
    obtain ⟨hd, hpark⟩ := step_parked hi h hres hterm hs
    have hrest := ih (step_preserves_invariant hi hs) hpark
      fun x hx => hmid x (List.mem_cons_of_mem _ hx)
    rw [mem_dispatched_cons]
    rintro (hr | hr)
    · exact hd hr
    · exact hrest hr

/-- The switch of a self-block comes back to the caller exactly when the pick loop uses
the queue up. -/
theorem blockSelf_returns_iff {next : ThreadRef} {v : Option ℤ} (hi : Invariant s)
    (hr : s.At tid c) (h0 : tid ≠ mainThreadTid)
    (hd : Dispatch (blocked c s) c .selfBlock next v t) :
    next ≠ c ↔ s.readyQueue = [] ∨
      ∃ x ∈ s.readyQueue, x ≠ c ∧ s.Live x ∧ (s.heap x).status = .ready := by
  have hcons := consistent_blocked hi.toConsistent hr h0
  have hqueue : queueAtPick (blocked c s) c = s.readyQueue := queueAtPick_of_stays blocked_stays
  have hst : statusAtPick (blocked c s) c c = .blocked := by
    rw [statusAtPick_blocked, blocked_self]
  have hother : ∀ x, x ≠ c → statusAtPick (blocked c s) c x = (s.heap x).status := by
    intro x hx
    rw [statusAtPick_of_ne hx, blocked_of_ne hx]
  obtain ⟨rest, woke, hp, _⟩ := hd.queue
  constructor
  · intro hne
    cases hp with
    | entry hsweep =>
      have hlive : (blocked c s).Live next :=
        switch_next_live hcons (Or.inl (At.live hr)) hd.toSwitch hd.alive
      refine Or.inr ⟨next, hqueue ▸ sweep_mem hsweep, hne, hlive, ?_⟩
      rw [← hother next hne]
      exact (sweep_split hsweep).1.1
    | main hnil => exact Or.inl (hqueue ▸ hnil)
    | current => exact (hne rfl).elim
  · rintro hc rfl
    cases hp with
    | entry hsweep =>
      have hready := (sweep_split hsweep).1.1
      rw [hst] at hready
      cases hready
    | main _ hm => exact hi.main_ne hm hr h0 rfl
    | current hne hnone =>
      rcases hc with hnil | ⟨x, hx, hxc, hlive, hready⟩
      · exact hne (hqueue.trans hnil)
      · exact not_ready_of_used_up hcons hlive (hqueue ▸ hx) hnone
          ((hother x hxc).trans hready)

/-- A self-block on its own: what the condition decides. -/
theorem block_step (hi : Invariant s) (hr : s.At tid r) (h0 : tid ≠ mainThreadTid)
    (hs : step (uthreads remains) s (.call (.block tid)) = .ok (o, t)) :
    (dispatchedThread o ≠ some r ↔ (s.curRunning = some r → s.readyQueue = [] ∨
      ∃ x ∈ s.readyQueue, x ≠ r ∧ s.Live x ∧ (s.heap x).status = .ready)) ∧
    (dispatchedThread o ≠ some r → Parked t tid r) := by
  cases step_effect hi hs with
  | quiet hq =>
    cases hq with
    | idle _ hidle => exact (hidle.elim h0 fun hn => hn r hr).elim
    | @block _ q c hq _ hc hne =>
      obtain rfl := At.unique hr hq
      have hcur : s.curRunning ≠ some r := by
        rw [hc]
        exact fun h => hne (Option.some.inj h).symm
      refine ⟨⟨fun _ h => (hcur h).elim, fun _ => by simp [dispatchedThread]⟩, fun _ => ?_⟩
      exact ⟨hr, by change ((blocked r s).heap r).status = _; rw [blocked_self], hcur⟩
  | @switch _ c ctx s' next v _ he hd =>
    cases he with
    | blockSelf hc _ hcur =>
      obtain rfl := At.unique hr hc
      have hiff := blockSelf_returns_iff hi hr h0 hd
      have hnext : dispatchedThread (.dispatched next v) ≠ some r ↔ next ≠ r := by
        simp [dispatchedThread]
      rw [hnext]
      refine ⟨hiff.trans ⟨fun h _ => h, fun h => h hcur⟩, fun hne => ⟨?_, ?_, ?_⟩⟩
      · obtain ⟨i, hi, hri⟩ := hr
        exact ⟨i, hi, by rw [hd.allThreads]; exact hri⟩
      · rw [hd.status, if_neg (Ne.symm hne), statusAtPick_blocked, blocked_self]
      · rw [hd.curRunning]; simpa using hne

theorem blocked_never_runs_iff (h : Runs remains tr s) : BlockedNeverRuns remains tr ↔
    EachStep (step (uthreads remains)) BlocksSafely initial tr := by
  constructor
  · intro hb pre e o post p he hp
    subst he
    obtain ⟨p', hp', hrest⟩ := h.split
    obtain rfl := hp.deterministic hp'
    obtain ⟨t, hs, _⟩ := hrest.cons_inv
    cases e with
    | timer => trivial
    | call call =>
      cases call with
      | block tid =>
        intro c hc hr h0
        have hnot := hb pre tid o [] post p c rfl hp hr h0 (by simp)
        have hne : dispatchedThread o ≠ some c := fun ho => hnot (by simp [dispatched, ho])
        exact (block_step (reachable_invariant hp) hr h0 hs).1.mp hne hc
      | _ => trivial
  · intro hc pre tid o mid post p r he hp hr h0 hmid
    subst he
    obtain ⟨p', hp', hrest⟩ := h.split
    obtain rfl := hp.deterministic hp'
    obtain ⟨t, hs, hrest⟩ := hrest.cons_inv
    obtain ⟨u, hmidx, _⟩ := hrest.split
    have hi := reachable_invariant hp
    have hsafe : BlocksSafely p (.call (.block tid)) := hc pre _ o (mid ++ post) p rfl hp
    obtain ⟨hiff, hpark⟩ := block_step hi hr h0 hs
    have hne := hiff.mpr fun hcur => hsafe r hcur hr h0
    have hmid' := run_parked (step_preserves_invariant hi hs) (hpark hne) hmidx hmid
    rw [mem_dispatched_cons]
    rintro (hd | hd)
    · exact hne hd
    · exact hmid' hd

theorem blocked_never_runs_iff_one_block :
    let tr := history freedRecord initial [.call (.spawn (some 7)), .call (.block 1), .timer]
    BlockedNeverRuns freedRecord tr ↔
      EachStep (step (uthreads freedRecord)) BlocksSafely initial tr :=
  blocked_never_runs_iff (runs_history freedRecord
    [.call (.spawn (some 7)), .call (.block 1), .timer] (by decide +kernel))

/-- Main is not in the queue any more when thread 1 blocks thread 2 and then itself. -/
theorem self_block_returns :
    let es : List Event := [.call (.spawn (some 7)), .call (.spawn (some 8)), .call (.resume 0),
      .timer, .call (.block 2), .call (.block 1)]
    Runs freedRecord (history freedRecord initial es) (after freedRecord initial es) ∧
      ¬ BlockedNeverRuns freedRecord (history freedRecord initial es) := by
  intro es
  refine ⟨runs_history freedRecord es (by decide +kernel), fun h => ?_⟩
  have hp := runs_history freedRecord [.call (.spawn (some 7)), .call (.spawn (some 8)),
    .call (.resume 0), .timer, .call (.block 2)] (by decide +kernel)
  exact h _ 1 (.dispatched 1 (some 0)) [] [] _ 1 (by decide +kernel) hp
    ⟨1, rfl, by decide +kernel⟩ (by decide) (by simp) (by decide +kernel)

end SchedulingSafety
