import Uthreads.Relocation
import Uthreads.ThreadInvariant

/-! # Starting the library again

`uthread_init` may be called with a bad quantum, or once more later on. The records of the
threads before it stay where they are, unreachable. -/
namespace Restart

open ThreadLibrary SwitchSemantics CallEffects EventRuns ThreadInvariant FallibleCode Relocation

/-- The addresses up to `n` are allocated; nothing points beyond, and nothing is written there. -/
structure Within (n : ℕ) (s : State) : Prop where
  allocated : s.nextRef = n
  table : ∀ i r, s.allThreads i = some r → r < n
  queue : ∀ r ∈ s.readyQueue, r < n
  current : ∀ r, s.curRunning = some r → r < n
  untouched : ∀ r, n ≤ r → s.heap r = mainThread ∧ s.deleted r = false

section Within

variable {remains : ThreadRef → Thread → Thread} {s : State} {n r : ℕ} {tid : ℤ}

theorem within_programStart : Within 0 programStart where
  allocated := rfl
  table _ _ h := by cases h
  queue _ h := by cases h
  current _ h := by cases h
  untouched _ _ := ⟨rfl, rfl⟩

theorem Within.mask (h : Within n s) (b : Bool) : Within n { s with masked := b } :=
  ⟨h.allocated, h.table, h.queue, h.current, h.untouched⟩

theorem Within.modifyThread (h : Within n s) (hr : r < n) (f : Thread → Thread) :
    Within n (s.modifyThread r f) where
  allocated := h.allocated
  table := h.table
  queue := h.queue
  current := h.current
  untouched q hq := by
    have hne : q ≠ r := (lt_of_lt_of_le hr hq).ne'
    exact ⟨(modifyThread_of_ne s f hne).trans (h.untouched q hq).1, (h.untouched q hq).2⟩

theorem Within.pushBack (h : Within n s) (hr : r < n) : Within n (s.pushBack r) where
  allocated := h.allocated
  table := h.table
  queue q hq := by
    rcases List.mem_append.mp hq with hq | hq
    · exact h.queue q hq
    · rwa [List.mem_singleton.mp hq]
  current := h.current
  untouched := h.untouched

theorem Within.result {α : Type} (h : Within n s) (a : α) :
    Ensures (φ := Fault) (.ok (a, s)) fun x => Within n x.2 := .ok h

theorem Within.cell (h : Within n s) (i : ℤ) :
    Ensures (s.cell i) fun c => ∀ r, c = some r → r < n := by
  unfold State.cell
  split
  · exact .ok fun r hr => h.table _ r hr
  · exact .error _

theorem ensures_deref {c : Option ThreadRef} (h : ∀ r, c = some r → r < n) :
    Ensures (deref c) (· < n) := by
  cases c with
  | none => exact .error _
  | some r => exact .ok (h r rfl)

theorem Within.threadAt (h : Within n s) : Ensures (s.threadAt tid) (· < n) :=
  (h.cell tid).bind fun _ hc => ensures_deref hc

theorem Within.setCell (h : Within n s) (i : ℤ) {c : Option ThreadRef}
    (hc : ∀ r, c = some r → r < n) : Ensures (s.setCell i c) (Within n) := by
  unfold State.setCell
  split
  · refine .ok ⟨h.allocated, fun j r hr => ?_, h.queue, h.current, h.untouched⟩
    simp only [Function.update_apply] at hr
    split at hr
    · exact hc r hr
    · exact h.table j r hr
  · exact .error _

theorem pickLoop_within {cur : Option ThreadRef} (heap : ThreadRef → Thread)
    {queue : List ThreadRef} (hcur : ∀ r, cur = some r → r < n) (hq : ∀ r ∈ queue, r < n) :
    (∀ r, (pickLoop cur heap queue).1 = some r → r < n) ∧
      (∀ r ∈ (pickLoop cur heap queue).2.1, r < n) ∧
      ∀ r, n ≤ r → (pickLoop cur heap queue).2.2 r = heap r := by
  induction queue generalizing heap with
  | nil => exact ⟨hcur, hq, fun _ _ => rfl⟩
  | cons candidate queue ih =>
    have hcand : candidate < n := hq _ List.mem_cons_self
    have hrest : ∀ r ∈ queue, r < n := fun r hr => hq r (List.mem_cons_of_mem _ hr)
    have hheap : ∀ (t : Thread) r, n ≤ r → Function.update heap candidate t r = heap r := by
      intro t r hr
      have hne : r ≠ candidate := (lt_of_lt_of_le hcand hr).ne'
      exact Function.update_of_ne hne ..
    simp only [pickLoop]
    split
    · obtain ⟨h₁, h₂, h₃⟩ := ih (Function.update heap candidate _) hrest
      exact ⟨h₁, h₂, fun r hr => (h₃ r hr).trans (hheap _ r hr)⟩
    · refine ⟨fun r hr => ?_, hrest, hheap _⟩
      cases hr
      exact hcand

theorem Within.nextAvailableReady (h : Within n s) :
    (∀ r, (ThreadLibrary.nextAvailableReady s).1 = some r → r < n) ∧
      Within n (ThreadLibrary.nextAvailableReady s).2 := by
  unfold ThreadLibrary.nextAvailableReady
  split
  · exact ⟨h.table 0, h⟩
  · rename_i candidate queue hq
    obtain ⟨hpick, hrest, hheap⟩ := pickLoop_within s.heap h.current (hq ▸ h.queue)
    refine ⟨hpick, h.allocated, h.table, hrest, h.current, fun r hr => ?_⟩
    exact ⟨(hheap r hr).trans (h.untouched r hr).1, (h.untouched r hr).2⟩

variable (remains) in
theorem Within.deleteThread (h : Within n s) (hr : r < n) :
    Within n (s.deleteThread (uthreads remains) r) where
  allocated := h.allocated
  table := h.table
  queue := h.queue
  current := h.current
  untouched q hq := by
    have hne : q ≠ r := (lt_of_lt_of_le hr hq).ne'
    exact ⟨(Function.update_of_ne hne ..).trans (h.untouched q hq).1,
      (Function.update_of_ne hne ..).trans (h.untouched q hq).2⟩

theorem Within.preemptedThread (h : Within n s) :
    Ensures (ThreadLibrary.preemptedThread s) (Within n) :=
  (ensures_deref h.current).bind fun _ hr =>
    .ok (((h.modifyThread hr _).pushBack hr).modifyThread hr _)

theorem Within.blockThread (h : Within n s) :
    Ensures (ThreadLibrary.blockThread tid s) fun x => Within n x.2 := by
  refine h.threadAt.bind fun thread hr => .ok ?_
  have hm := h.modifyThread hr fun t => { t with status := .blocked }
  exact ⟨hm.allocated, hm.table, hm.queue, hm.current, hm.untouched⟩

theorem Within.resumeThread (h : Within n s) :
    Ensures (ThreadLibrary.resumeThread tid s) fun x => Within n x.2 := by
  refine h.threadAt.bind fun thread hr => ?_
  have he : Within n { s with blockedID := s.blockedID.erase thread } :=
    ⟨h.allocated, h.table, h.queue, h.current, h.untouched⟩
  split
  · have hready := he.modifyThread hr fun t => { t with status := .ready }
    simp only
    split
    · exact ((hready.pushBack hr).modifyThread hr _).result _
    · exact hready.result _
  · exact h.result _

theorem Within.terminateThread (h : Within n s) :
    Ensures (ThreadLibrary.terminateThread (uthreads remains) tid s) fun x => Within n x.2 := by
  refine (h.cell tid).bind fun c hc => ?_
  cases c with
  | none => exact .ok h
  | some thread =>
    have hf : Within n { s with readyQueue := s.readyQueue.filter (· ≠ thread) } :=
      ⟨h.allocated, h.table, fun r hr => h.queue r (List.mem_of_mem_filter hr), h.current,
        h.untouched⟩
    refine (hf.setCell tid fun _ hr => by cases hr).bind fun s' hs' => .ok ?_
    have hd := hs'.deleteThread remains (hc thread rfl)
    exact ⟨hd.allocated, hd.table, hd.queue, hd.current, hd.untouched⟩

theorem Within.wakeCell (h : Within n s) (i : Fin maxThreadNum) :
    Within n (ThreadLibrary.wakeCell s i) := by
  cases hi : s.allThreads i with
  | none => rwa [wakeCell_none hi]
  | some thread =>
    have hr : thread < n := h.table i thread hi
    have hm := h.modifyThread hr tick
    rw [wakeCell_some hi]
    refine ⟨hm.allocated, hm.table, fun r hq => ?_, hm.current, hm.untouched⟩
    rcases List.mem_append.mp hq with hq | hq
    · exact h.queue r hq
    · split at hq
      · rwa [List.mem_singleton.mp hq]
      · cases hq

theorem Within.updateWaitingTime (h : Within n s) :
    Within n (ThreadLibrary.updateWaitingTime s) := by
  have hfold : ∀ (cells : List (Fin maxThreadNum)) s, Within n s →
      Within n (cells.foldl ThreadLibrary.wakeCell s) := by
    intro cells
    induction cells with
    | nil => exact fun _ h => h
    | cons i cells ih => exact fun s h => ih _ (h.wakeCell i)
  exact hfold _ s h

theorem Within.spawned (h : Within n s) (i : Fin maxThreadNum) (pc : ℕ) :
    Within (n + 1) (CallEffects.spawned i pc s) where
  allocated := congrArg (· + 1) h.allocated
  table j r hr := by
    simp only [CallEffects.spawned, Function.update_apply] at hr
    split at hr
    · cases hr
      exact Nat.lt_succ_of_le h.allocated.le
    · exact (h.table j r hr).trans n.lt_succ_self
  queue r hr := by
    rcases List.mem_append.mp hr with hr | hr
    · exact (h.queue r hr).trans n.lt_succ_self
    · rw [List.mem_singleton.mp hr]
      exact Nat.lt_succ_of_le h.allocated.le
  current r hr := (h.current r hr).trans n.lt_succ_self
  untouched r hr := by
    have hn : n < r := hr
    have hne : r ≠ s.nextRef := by
      rw [h.allocated]
      exact hn.ne'
    exact ⟨(Function.update_of_ne hne ..).trans (h.untouched r hn.le).1,
      (h.untouched r hn.le).2⟩

theorem Within.addThread (h : Within n s) (pc : ℕ) :
    Ensures (ThreadLibrary.addThread pc s) fun x => Within (n + 1) x.2 := by
  rcases findId_cases s with ⟨i, _, hi⟩ | ⟨hnone, _⟩
  · rw [addThread_ok pc hi]
    exact (h.spawned i pc).result _
  · have hfault : ThreadLibrary.addThread pc s = .error (.outOfRange (-1)) := by
      simp [ThreadLibrary.addThread, hnone, State.setCell]
    rw [hfault]
    exact .error _

theorem Within.setRunning (h : Within n s) (hr : r < n) :
    Within n (ThreadLibrary.setRunning r s) := by
  have hm := h.modifyThread hr fun t => { t with status := .running }
  refine ⟨hm.allocated, hm.table, hm.queue, fun q hq => ?_, hm.untouched⟩
  cases hq
  exact hr

theorem Within.siglongjmp (h : Within n s) :
    Ensures (ThreadLibrary.siglongjmp (uthreads remains) r s) fun x => Within n x.2 := by
  unfold ThreadLibrary.siglongjmp
  split
  · exact .error _
  · split
    case h_6 tid _ =>
      refine (h.mask false).terminateThread.bind fun x hx => ?_
      simp only
      split
      · exact hx.result _
      · exact (hx.mask false).result _
    all_goals exact (h.mask false).result _

theorem Within.yielded (h : Within n s) (hr : r < n) (ctx : Context) :
    Within n (SwitchSemantics.yielded ctx r s) := by
  have hm := h.modifyThread hr (yieldedThread ctx r s)
  refine ⟨hm.allocated, hm.table, fun q hq => ?_, hm.current, hm.untouched⟩
  rcases List.mem_append.mp hq with hq | hq
  · exact h.queue q hq
  · split at hq
    · rwa [List.mem_singleton.mp hq]
    · cases hq

theorem Within.startQuantum (h : Within n s) (hr : r < n) :
    Within n (SwitchSemantics.startQuantum r s) := by
  have hrun := h.setRunning hr
  have hbefore : Within n (beforePass r s) :=
    ⟨hrun.allocated, hrun.table, hrun.queue, hrun.current, hrun.untouched⟩
  exact hbefore.updateWaitingTime.modifyThread hr _

theorem Within.switchThread (h : Within n s) (ctx : Context) :
    Ensures (ThreadLibrary.switchThread (uthreads remains) ctx s) fun x => Within n x.2 := by
  cases hc : s.curRunning with
  | none =>
    simp only [ThreadLibrary.switchThread, maskSignals, hc, deref, error_bind]
    exact .error _
  | some c =>
    obtain ⟨hpick, hrest⟩ := (h.yielded (h.current c hc) ctx).nextAvailableReady
    rw [switchThread_eq _ ctx hc]
    split
    · exact .error _
    · rename_i next hnext
      exact (hrest.startQuantum (hpick next hnext)).siglongjmp

/-- The state a call leaves, or in which it enters `switchThread`. -/
def controlState : Control → State
  | .returns _ s => s
  | .switches _ s => s

theorem Within.returns (h : Within n s) (o : Outcome) :
    Ensures (φ := Fault) (.ok (.returns o s)) fun x => Within n (controlState x) := .ok h

theorem Within.uthreadTerminate (h : Within n s) :
    Ensures (ThreadLibrary.uthreadTerminate (uthreads remains) tid s)
      fun x => Within n (controlState x) := by
  refine Ensures.bind (P := fun _ => True) (fun _ _ => trivial) fun e _ => ?_
  have hmask := h.mask true
  cases e with
  | some e => exact hmask.returns _
  | none =>
    simp only
    split
    · rw [terminateProcess_faults]
      exact .error _
    · refine (ensures_deref h.current).bind fun cur _ => ?_
      split
      all_goals
        refine hmask.terminateThread.bind fun x hx => ?_
        split
        · exact hx.returns _
      · exact .ok (hx.mask true)
      · exact (hx.mask false).returns _

theorem Within.uthreadBlock (h : Within n s) :
    Ensures (ThreadLibrary.uthreadBlock (uthreads remains) tid s)
      fun x => Within n (controlState x) := by
  refine Ensures.bind (P := fun _ => True) (fun _ _ => trivial) fun e _ => ?_
  have hmask := h.mask true
  cases e with
  | some e => exact hmask.returns _
  | none =>
    simp only
    split
    · exact hmask.returns _
    · refine hmask.blockThread.bind fun x hx => ?_
      refine (ensures_deref hx.current).bind fun cur _ => ?_
      split
      · exact .ok (hx.mask true)
      · exact (hx.mask false).returns _

theorem Within.uthreadResume (h : Within n s) :
    Ensures (ThreadLibrary.uthreadResume tid s) fun x => Within n (controlState x) := by
  refine Ensures.bind (P := fun _ => True) (fun _ _ => trivial) fun e _ => ?_
  have hmask := h.mask true
  cases e with
  | some e => exact hmask.returns _
  | none =>
    refine hmask.threadAt.bind fun thread _ => ?_
    have hrest : ∀ s', Within n s' → Ensures (do
        let thread ← s'.threadAt tid
        pure (Control.returns (.returned 0) (unmaskSignals
          (s'.modifyThread thread fun t => { t with status := .ready }))))
        fun x => Within n (controlState x) := fun s' hs' =>
      hs'.threadAt.bind fun _ hr => ((hs'.modifyThread hr _).mask false).returns _
    split
    · exact Ensures.bind (hmask.resumeThread.bind fun x hx => .ok hx) hrest
    · exact hrest _ hmask

theorem Within.uthreadSleep (h : Within n s) (k : ℤ) :
    Ensures (ThreadLibrary.uthreadSleep k s) fun x => Within n (controlState x) := by
  have hmask := h.mask true
  unfold ThreadLibrary.uthreadSleep
  simp only
  split
  · exact hmask.returns _
  · refine (ensures_deref h.current).bind fun cur hcur => ?_
    split
    · exact hmask.returns _
    · exact .ok ((hmask.modifyThread hcur _).mask true)

/-- A call allocates at most one record. -/
theorem Within.request (h : Within n s) (c : Call) :
    Ensures (ThreadLibrary.request (uthreads remains) s c)
      fun x => ∃ m, Within m (controlState x) := by
  have hkeep : ∀ {x : Except Fault Control}, Ensures x (fun x => Within n (controlState x)) →
      Ensures x fun x => ∃ m, Within m (controlState x) := fun hx a ha => ⟨n, hx a ha⟩
  cases c with
  | spawn entryPoint =>
    unfold ThreadLibrary.request uthreadSpawn
    simp only
    split
    · exact hkeep (h.returns _)
    · exact ((h.mask true).addThread _).bind fun x hx => .ok ⟨n + 1, hx.mask false⟩
  | terminate tid => exact hkeep h.uthreadTerminate
  | block tid => exact hkeep h.uthreadBlock
  | resume tid => exact hkeep h.uthreadResume
  | sleep k => exact hkeep (h.uthreadSleep k)
  | getTid => exact hkeep ((ensures_deref h.current).bind fun _ _ => h.returns _)
  | getTotalQuantums => exact hkeep (h.returns _)
  | getQuantums tid =>
    refine hkeep (Ensures.bind (P := fun _ => True) (fun _ _ => trivial) fun e _ => ?_)
    cases e with
    | some e => exact h.returns _
    | none => exact h.threadAt.bind fun _ _ => h.returns _

theorem Within.step (h : Within n s) (e : Event) :
    Ensures (ThreadLibrary.step (uthreads remains) s e) fun x => ∃ m, Within m x.2 := by
  cases e with
  | timer =>
    unfold ThreadLibrary.step
    simp only
    split
    · exact .error _
    · exact fun x hx => ⟨n, h.switchThread _ x hx⟩
  | call c =>
    refine (h.request c).bind fun control hcontrol => ?_
    obtain ⟨m, hm⟩ := hcontrol
    cases control with
    | returns o t => exact .ok ⟨m, hm⟩
    | switches ctx t => exact fun x hx => ⟨m, hm.switchThread ctx x hx⟩

end Within

/-- What a process may have done with the library: `uthread_init`, well or badly, and after
the first such call any event. -/
inductive History (remains : ThreadRef → Thread → Thread) : State → Prop where
  | first {q o s} : uthreadInit q programStart = .ok (o, s) → History remains s
  | init {q o s t} : History remains s → uthreadInit q s = .ok (o, t) → History remains t
  | event {e o s t} : History remains s → step (uthreads remains) s e = .ok (o, t) →
      History remains t

variable {remains : ThreadRef → Thread → Thread} {s : State} {n : ℕ} {q tid : ℤ}

theorem uthreadInit_failed (s : State) (hq : q ≤ 0) : uthreadInit q s =
    .ok (.failed .quantumNotPositive, dispatcherInit (newScheduler s)) := by
  simp only [uthreadInit, if_pos hq, pure_ok]

/-- A successful start is the start of a library whose records come after the others. -/
theorem uthreadInit_relocates (h : Within n s) (hq : 0 < q) :
    uthreadInit q s = .ok (.returned 0, relocate s initial) := by
  have hfree : ∀ r, s.nextRef ≤ r → s.heap r = mainThread ∧ s.deleted r = false :=
    fun r hr => h.untouched r (h.allocated ▸ hr)
  have hheap : Function.update s.heap s.nextRef mainThread =
      place s.nextRef s.heap initial.heap := by
    rw [show initial.heap = fun _ => mainThread from rfl, place_self _ fun r hr => (hfree r hr).1,
      ← (hfree _ le_rfl).1]
    exact Function.update_eq_self ..
  have hdeleted : s.deleted = place s.nextRef s.deleted initial.deleted :=
    (place_self _ fun r hr => (hfree r hr).2).symm
  have htable : Function.update (fun _ => none) 0 (some s.nextRef) =
      fun i => (initial.allThreads i).map (s.nextRef + ·) := by
    funext i
    by_cases hi : i = 0
    · subst hi
      rfl
    · simp [initial, hi]
  have hcell : ∀ (t : State) (c : Option ThreadRef), t.setCell mainThreadTid c =
      .ok { t with allThreads := Function.update t.allThreads 0 c } :=
    fun t c => setCell_index t 0 c
  simp only [uthreadInit, if_neg (not_le.mpr hq), initMainThread, initTimer, launchTimer,
    maskSignals, dispatcherInit, newScheduler, State.newThread, Function.update_self]
  rw [show mainThread.id = mainThreadTid from rfl, hcell]
  exact congrArg (fun t => Except.ok (Outcome.returned 0, t))
    (State.ext hheap rfl hdeleted rfl rfl htable rfl rfl rfl rfl)

theorem within_relocate (h : Within n s) : Within (n + 1) (relocate s initial) where
  allocated := congrArg (· + 1) h.allocated
  table i r hr := by
    obtain ⟨main, hmain, rfl⟩ := Option.map_eq_some_iff.mp hr
    simp only [initial, Function.update_apply] at hmain
    split at hmain
    · cases hmain
      exact Nat.lt_succ_of_le h.allocated.le
    · cases hmain
  queue _ hr := by cases hr
  current r hr := by
    cases hr
    exact Nat.lt_succ_of_le h.allocated.le
  untouched r hr := by
    have hle : n ≤ r := n.le_succ.trans hr
    have hge : ¬ r < s.nextRef := by
      rw [h.allocated]
      exact hle.not_gt
    exact ⟨if_neg hge, if_neg hge⟩

theorem within_init (h : Within n s) :
    Ensures (uthreadInit q s) fun x => ∃ m, Within m x.2 := by
  by_cases hq : q ≤ 0
  · rw [uthreadInit_failed s hq]
    refine .ok ⟨n, h.allocated, ?_, ?_, ?_, h.untouched⟩
    · exact fun _ _ hr => by cases hr
    · exact fun _ hr => by cases hr
    · exact fun _ hr => by cases hr
  · rw [uthreadInit_relocates h (not_le.mp hq)]
    exact .ok ⟨n + 1, within_relocate h⟩

/-- Every run of the library is such a history. -/
theorem history_of_runs {tr : List (Event × Outcome)} (h : Runs remains tr s) :
    History remains s :=
  h.invariant (.first (uthreadInit_initial Int.one_pos)) fun _ _ _ _ ih hs => .event ih hs

theorem history_within (h : History remains s) : ∃ n, Within n s := by
  induction h with
  | first h => exact within_init within_programStart _ h
  | init _ h ih => exact within_init ih.choose_spec _ h
  | event _ h ih => exact ih.choose_spec.step _ _ h

/-- Whatever went before, a successful `uthread_init` starts a library that behaves as the
first one of a process does, and leaves the earlier records alone. -/
theorem restarts_fresh (h : History remains s) (hq : 0 < q) :
    ∃ t, uthreadInit q s = .ok (.returned 0, t) ∧
      ∀ tr u, Exec (step (uthreads remains)) t tr u ↔
        ∃ tr₀ s₀, Runs (later s.nextRef remains) tr₀ s₀ ∧
          tr = tr₀.map (Prod.map id (relocateOutcome s.nextRef)) ∧ u = relocate s s₀ := by
  obtain ⟨n, hn⟩ := history_within h
  refine ⟨relocate s initial, uthreadInit_relocates hn hq, fun tr u => ?_⟩
  exact exec_image_iff (relocate_step s · remains ·)

/-- The second thread calls `uthread_init` again and becomes the main thread. -/
theorem restarts_fresh_second_thread :
    let s := after freedRecord initial [.call (.spawn (some 7)), .timer]
    ∃ t, uthreadInit 1000 s = .ok (.returned 0, t) ∧
      ∀ tr u, Exec (step (uthreads freedRecord)) t tr u ↔
        ∃ tr₀ s₀, Runs (later s.nextRef freedRecord) tr₀ s₀ ∧
          tr = tr₀.map (Prod.map id (relocateOutcome s.nextRef)) ∧ u = relocate s s₀ :=
  restarts_fresh (history_of_runs (runs_history freedRecord [.call (.spawn (some 7)), .timer]
    (by decide +kernel))) (by decide)

/-- The event reads the running thread. A signal that is held back reads nothing. -/
def NeedsCurrent (s : State) : Event → Prop
  | .timer => s.masked = false
  | .call .getTid => True
  | .call (.sleep k) => 0 < k
  | .call (.block tid) => tid ≠ mainThreadTid ∧ ∃ r, s.At tid r
  | .call (.terminate tid) => tid ≠ mainThreadTid ∧ ∃ r, s.At tid r
  | .call _ => False

theorem deref_halted (hc : s.curRunning = none) : deref s.curRunning = .error .nullThread := by
  rw [hc]
  rfl

theorem uthreadTerminate_halted {V : Variant} {r : ThreadRef} (hc : s.curRunning = none)
    (hr : s.At tid r) (h0 : tid ≠ mainThreadTid) :
    uthreadTerminate V tid s = .error .nullThread := by
  have hm : (maskSignals s).At tid r := hr
  have hcm := deref_halted (s := maskSignals s) hc
  simp only [uthreadTerminate, checkValidTid_ok hm, ok_bind, if_neg h0, hcm, error_bind]

theorem uthreadBlock_halted {r : ThreadRef} (hc : s.curRunning = none) (hr : s.At tid r)
    (h0 : tid ≠ mainThreadTid) :
    uthreadBlock (uthreads remains) tid s = .error .nullThread := by
  have hm : (maskSignals s).At tid r := hr
  have hcm := deref_halted (s := blocked r (maskSignals s)) hc
  have hblock : (uthreads remains).blockThread tid (maskSignals s) =
      .ok (decide (r ∉ s.blockedID), blocked r (maskSignals s)) := blockThread_ok hm
  simp only [uthreadBlock, checkValidTid_ok hm, ok_bind, if_neg h0, hblock, hcm, error_bind]

theorem switchThread_halted (V : Variant) (ctx : Context) (hc : s.curRunning = none) :
    switchThread V ctx s = .error .nullThread := by
  simp only [switchThread, maskSignals, hc, deref, error_bind]

theorem uthreadSleep_halted {k : ℤ} (hc : s.curRunning = none) (hk : 0 < k) :
    uthreadSleep k s = .error .nullThread := by
  simp only [uthreadSleep, if_neg (not_le.mpr hk), maskSignals, hc, deref, error_bind]

theorem uthreadGetTid_halted (hc : s.curRunning = none) :
    uthreadGetTid s = .error .nullThread := by
  simp only [uthreadGetTid, hc, deref, error_bind]

variable (remains) in
theorem needsCurrent_faults {e : Event} (hc : s.curRunning = none) (h : NeedsCurrent s e) :
    step (uthreads remains) s e = .error .nullThread := by
  cases e with
  | timer =>
    have hopen : ¬ s.masked = true := by rw [show s.masked = false from h]; simp
    rw [step, if_neg hopen]
    exact switchThread_halted _ _ hc
  | call c =>
    suffices hf : request (uthreads remains) s c = .error .nullThread by
      simp only [step, hf, error_bind]
    cases c with
    | terminate tid =>
      obtain ⟨h0, r, hr⟩ := h
      exact uthreadTerminate_halted hc hr h0
    | block tid =>
      obtain ⟨h0, r, hr⟩ := h
      exact uthreadBlock_halted hc hr h0
    | sleep k => exact uthreadSleep_halted hc h
    | getTid => exact uthreadGetTid_halted hc
    | _ => exact h.elim

/-- A call that comes back, with no thread running. -/
def Idles (x : Control) : Prop :=
  ∃ o t, x = .returns o t ∧ t.curRunning = none ∧ dispatchedThread o = none

theorem idles {o : Outcome} {t : State} (hc : t.curRunning = none)
    (ho : dispatchedThread o = none) : Ensures (φ := Fault) (.ok (.returns o t)) Idles :=
  .ok ⟨o, t, rfl, hc, ho⟩

theorem request_idles (hc : s.curRunning = none) (c : Call) :
    Ensures (request (uthreads remains) s c) Idles := by
  cases c with
  | spawn entryPoint =>
    unfold request uthreadSpawn
    simp only
    split
    · exact idles hc rfl
    · rename_i pc _
      refine Ensures.bind (P := fun x => x.2.curRunning = none) ?_ fun x hx => idles hx rfl
      rcases findId_cases (maskSignals s) with ⟨i, _, hi⟩ | ⟨hnone, _⟩
      · rw [addThread_ok pc hi]
        exact .ok hc
      · simp only [addThread, hnone, State.setCell]
        exact .error _
  | terminate tid =>
    rcases checkValidTid_cases s tid with ⟨r, hr⟩ | ⟨_, e, he⟩
    · by_cases h0 : tid = mainThreadTid
      · subst h0
        rw [request, uthreadTerminate_main hr]
        exact .error _
      · rw [request, uthreadTerminate_halted hc hr h0]
        exact .error _
    · rw [request, uthreadTerminate_invalid he]
      exact idles hc rfl
  | block tid =>
    rcases checkValidTid_cases s tid with ⟨r, hr⟩ | ⟨_, e, he⟩
    · by_cases h0 : tid = mainThreadTid
      · subst h0
        rw [request, uthreadBlock_main hr]
        exact idles hc rfl
      · rw [request, uthreadBlock_halted hc hr h0]
        exact .error _
    · rw [request, uthreadBlock_invalid he]
      exact idles hc rfl
  | resume tid =>
    rcases checkValidTid_cases s tid with ⟨r, hr⟩ | ⟨_, e, he⟩
    · rw [request, uthreadResume_ok hr]
      exact idles hc rfl
    · rw [request, uthreadResume_invalid he]
      exact idles hc rfl
  | sleep k =>
    by_cases hk : k ≤ 0
    · rw [request, uthreadSleep_nonpositive hk]
      exact idles hc rfl
    · rw [request, uthreadSleep_halted hc (not_le.mp hk)]
      exact .error _
  | getTid =>
    rw [request, uthreadGetTid_halted hc]
    exact .error _
  | getTotalQuantums => exact idles hc rfl
  | getQuantums tid =>
    rcases checkValidTid_cases s tid with ⟨r, hr⟩ | ⟨_, e, he⟩
    · rw [request, uthreadGetQuantums_ok hr]
      exact idles hc rfl
    · rw [request, uthreadGetQuantums_invalid he]
      exact idles hc rfl

theorem step_idles {e : Event} {o : Outcome} {t : State} (hc : s.curRunning = none)
    (h : step (uthreads remains) s e = .ok (o, t)) :
    t.curRunning = none ∧ dispatchedThread o = none := by
  cases e with
  | timer =>
    simp only [step] at h
    split at h
    · cases h
    · rw [switchThread_halted _ _ hc] at h
      cases h
  | call c =>
    have hstep : Ensures (step (uthreads remains) s (.call c))
        fun x => x.2.curRunning = none ∧ dispatchedThread x.1 = none := by
      refine (request_idles hc c).bind fun x hx => ?_
      obtain ⟨o, t, rfl, ht, ho⟩ := hx
      exact .ok ⟨ht, ho⟩
    exact hstep _ h

/-- After a failed start no thread runs again, however the library is used, until the next
start; whatever needs the running thread reads through a null pointer. -/
theorem failed_init_halts (remains : ThreadRef → Thread → Thread) (s : State) (hq : q ≤ 0) :
    ∃ t, uthreadInit q s = .ok (.failed .quantumNotPositive, t) ∧
      ∀ tr u, Exec (step (uthreads remains)) t tr u →
        u.curRunning = none ∧ dispatched tr = [] ∧
          ∀ e, NeedsCurrent u e → step (uthreads remains) u e = .error .nullThread := by
  refine ⟨_, uthreadInit_failed s hq, fun tr u h => ?_⟩
  have hrun : u.curRunning = none ∧ dispatched tr = [] := by
    refine h.history (I := fun tr u => u.curRunning = none ∧ dispatched tr = []) ⟨rfl, rfl⟩ ?_
    intro tr s e o t ⟨hc, hd⟩ hs
    obtain ⟨ht, ho⟩ := step_idles hc hs
    refine ⟨ht, ?_⟩
    rw [dispatched_append, hd]
    simp [dispatched, ho]
  exact ⟨hrun.1, hrun.2, fun e he => needsCurrent_faults remains hrun.1 he⟩

/-- Also the thread that is spawned then can be neither run nor blocked. -/
theorem failed_init_halts_at_once :
    ∃ t, uthreadInit 0 initial = .ok (.failed .quantumNotPositive, t) ∧
      step (uthreads freedRecord) (after freedRecord t [.call (.spawn (some 7))]) .timer =
        .error .nullThread ∧
      step (uthreads freedRecord) (after freedRecord t [.call (.spawn (some 7))])
        (.call (.block 1)) = .error .nullThread := by
  obtain ⟨t, ht, h⟩ := failed_init_halts freedRecord initial le_rfl
  have heq : t = (dispatcherInit (newScheduler initial)) :=
    congrArg Prod.snd (Except.ok.inj (ht.symm.trans (uthreadInit_failed initial le_rfl)))
  obtain ⟨_, _, hneeds⟩ := h _ _ (exec_history freedRecord t [.call (.spawn (some 7))] (by
    rw [heq]; decide +kernel))
  refine ⟨t, ht, hneeds .timer ?_, hneeds (.call (.block 1)) ⟨by decide, ?_⟩⟩
  · rw [heq]
    exact (by decide +kernel : (after freedRecord (dispatcherInit (newScheduler initial))
      [.call (.spawn (some 7))]).masked = false)
  · rw [heq]
    exact ⟨1, 1, rfl, by decide +kernel⟩

end Restart
