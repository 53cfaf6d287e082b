import Uthreads.ThreadInvariant

/-! # No thread is lost

When exactly one thread runs and every other live thread is blocked, asleep or queued. -/
namespace ThreadConservation

open ThreadLibrary SwitchSemantics CallEffects EventRuns ThreadInvariant LazyQueue

/-- A live thread that is not running can be found again. -/
structure Accounted (s : State) (r : ThreadRef) : Prop where
  stopped : (s.heap r).status ≠ .running
  found : (s.heap r).status = .blocked ∨ (s.heap r).isSleep = true ∨
    ((s.heap r).status = .ready ∧ r ∈ s.readyQueue)

structure OneRuns (s : State) : Prop where
  current : ∃ c, s.curRunning = some c ∧ s.Live c ∧ (s.heap c).status = .running
  others : ∀ r, s.Live r → s.curRunning ≠ some r → Accounted s r

/-- The running thread is not resumed, and a timer signal that finds it asleep finds also
a non-empty queue without a READY thread. -/
def KeepsOneRunning (s : State) : Event → Prop
  | .call (.resume tid) => ∀ c, s.curRunning = some c → ¬ s.At tid c
  | .timer => ∀ c, s.curRunning = some c → (s.heap c).isSleep = false ∨
      (s.readyQueue ≠ [] ∧ ∀ x ∈ s.readyQueue, (s.heap x).status ≠ .ready)
  | _ => True

variable {remains : ThreadRef → Thread → Thread} {s t : State} {r c : ThreadRef} {e : Event}
  {o : Outcome} {tr : List (Event × Outcome)}

theorem Accounted.frame (h : Accounted s r) (hheap : t.heap r = s.heap r)
    (hqueue : r ∈ s.readyQueue → r ∈ t.readyQueue) : Accounted t r := by
  refine ⟨by rw [hheap]; exact h.stopped, ?_⟩
  rw [hheap]
  exact h.found.imp_right fun h => h.imp_right fun h => ⟨h.1, hqueue h.2⟩

theorem quiet_current {call : Call} (hi : Invariant s) (h : OneRuns s)
    (hk : KeepsOneRunning s (.call call)) (hq : Quiet remains s call o t) :
    ∃ c, t.curRunning = some c ∧ t.Live c ∧ (t.heap c).status = .running := by
  obtain ⟨c, hc, hlive, hrun⟩ := h.current
  have hcur : ∀ {d}, s.curRunning = some d → d = c := fun hd =>
    Option.some.inj (hd.symm.trans hc)
  cases hq with
  | idle b => exact ⟨c, hc, hlive, hrun⟩
  | @spawn pc i hfree =>
    have hne := hi.ne_fresh hlive
    refine ⟨c, hc, (spawned_live pc hfree c).mpr (Or.inr hlive), ?_⟩
    exact (congrArg Thread.status (spawned_of_ne hne)).trans hrun
  | @block tid q d hq h0 hd hne =>
    have hcq : c ≠ q := fun hcq => hne (hcq.symm.trans (hcur hd).symm)
    exact ⟨c, hc, hlive, (congrArg Thread.status (blocked_of_ne hcq)).trans hrun⟩
  | @resume tid q hq =>
    have hcq : c ≠ q := by rintro rfl; exact hk c hc hq
    exact ⟨c, hc, hlive, (congrArg Thread.status (resumed_of_ne hcq)).trans hrun⟩
  | @terminate i q d hq h0 hd hne =>
    have hcq : c ≠ q := fun hcq => hne (hcq.symm.trans (hcur hd).symm)
    have hheap : (terminated remains i q s).heap c = s.heap c := terminated_of_ne hcq
    exact ⟨c, hc, (terminated_live hi.toTable remains hq c).mpr ⟨hlive, hcq⟩,
      (congrArg Thread.status hheap).trans hrun⟩

theorem accounted_resumed (h : Accounted s r) {q : ThreadRef} : Accounted (resumed q s) r := by
  by_cases hrq : r = q
  · subst hrq
    refine ⟨by rw [resumed_self]; simp, ?_⟩
    rw [resumed_self, resumed_readyQueue]
    by_cases hs : (s.heap r).isSleep = true
    · exact Or.inr (Or.inl hs)
    · have hawake : (s.heap r).isSleep = false := by simpa using hs
      refine Or.inr (Or.inr ⟨rfl, List.mem_append.mpr ?_⟩)
      rcases h.found with hb | hsleep | ⟨_, hq⟩
      · exact Or.inr (by rw [if_pos ⟨hawake, hb⟩]; exact List.mem_singleton_self r)
      · exact (hs hsleep).elim
      · exact Or.inl hq
  · exact h.frame (resumed_of_ne hrq) fun hq => List.mem_append_left _ hq

theorem quiet_others {call : Call} (hi : Invariant s) (h : OneRuns s)
    (hq : Quiet remains s call o t) (hr : t.Live r) (hne : t.curRunning ≠ some r) :
    Accounted t r := by
  cases hq with
  | idle b => exact ⟨(h.others r hr hne).stopped, (h.others r hr hne).found⟩
  | @spawn pc i hfree =>
    rcases (spawned_live pc hfree r).mp hr with rfl | hr
    · have hself : (unmaskSignals (spawned i pc s)).heap s.nextRef = spawnedThread i pc :=
        spawned_self
      refine ⟨by rw [hself]; simp [spawnedThread], Or.inr (Or.inr ⟨by rw [hself]; rfl, ?_⟩)⟩
      exact List.mem_append_right _ (List.mem_singleton_self _)
    · have hrn := hi.ne_fresh hr
      exact (h.others r hr hne).frame (spawned_of_ne hrn) fun hq => List.mem_append_left _ hq
  | @block tid q d =>
    by_cases hrq : r = q
    · subst hrq
      have hself : ((unmaskSignals (blocked r s)).heap r).status = .blocked := by
        change ((blocked r s).heap r).status = _
        rw [blocked_self]
      exact ⟨by rw [hself]; simp, Or.inl hself⟩
    · exact (h.others r hr hne).frame (blocked_of_ne hrq) id
  | @resume tid q =>
    have := accounted_resumed (h.others r hr hne) (q := q)
    exact ⟨this.stopped, this.found⟩
  | @terminate i q d hq =>
    obtain ⟨hr, hrq⟩ := (terminated_live hi.toTable remains hq r).mp hr
    have hheap : (terminated remains i q s).heap r = s.heap r := terminated_of_ne hrq
    refine (h.others r hr hne).frame hheap fun hmem => ?_
    exact List.mem_filter.mpr ⟨hmem, by simpa using hrq⟩

/-- Resuming itself makes the running thread READY. -/
theorem quiet_one_runs_iff {call : Call} (hi : Invariant s) (h : OneRuns s)
    (hq : Quiet remains s call o t) : OneRuns t ↔ KeepsOneRunning s (.call call) := by
  constructor
  · intro ht
    cases hq with
    | @resume tid q hq =>
      intro c hc hr
      obtain rfl := At.unique hr hq
      obtain ⟨d, hd, _, hrun⟩ := ht.current
      obtain rfl : c = d := Option.some.inj (hc.symm.trans hd)
      have hready : ((resumed c s).heap c).status = .ready := by rw [resumed_self]
      exact absurd (hready.symm.trans hrun) (by simp)
    | idle b hidle =>
      cases call with
      | resume tid => exact fun c _ hr => hidle c hr
      | _ => trivial
    | _ => trivial
  · intro hk
    exact ⟨quiet_current hi h hk hq, fun r hr hne => quiet_others hi h hq hr hne⟩

/-- `Accounted` as the pick loop sees it. -/
def AccountedAtPick (s : State) (c r : ThreadRef) : Prop :=
  statusAtPick s c r ≠ .running ∧ (statusAtPick s c r = .blocked ∨ (s.heap r).isSleep = true ∨
    (statusAtPick s c r = .ready ∧ r ∈ queueAtPick s c))

theorem accounted_atPick (h : Accounted s r) (hrc : r ≠ c) : AccountedAtPick s c r := by
  rw [AccountedAtPick, statusAtPick_of_ne hrc]
  exact ⟨h.stopped, h.found.imp_right fun h => h.imp_right fun h =>
    ⟨h.1, List.mem_append_left _ h.2⟩⟩

/-- The pick loop and the wake-up pass lose no thread. -/
theorem switch_accounted {next : ThreadRef} {ctx : Context} (hs : Consistent s)
    (hsw : Switch s c ctx next t) (hr : s.Live r) (hne : r ≠ next)
    (h : AccountedAtPick s c r) : Accounted t r := by
  have hst : (t.heap r).status = statusAtPick s c r := by rw [hsw.status, if_neg hne]
  obtain ⟨rest, woke, hp, hqueue, _, hwoke⟩ := hsw.queue
  refine ⟨by rw [hst]; exact h.1, ?_⟩
  rw [hst]
  rcases h.2 with hb | hsleep | ⟨hready, hq⟩
  · exact Or.inl hb
  · cases hstatus : statusAtPick s c r with
    | blocked => exact Or.inl rfl
    | running => exact (h.1 hstatus).elim
    | ready =>
      by_cases hw : (s.heap r).waitingTime = 1
      · have hdue : Due (s.heap r) := by simp [Due, hsleep, hw]
        refine Or.inr (Or.inr ⟨rfl, ?_⟩)
        rw [hqueue]
        exact List.mem_append_right _ ((hwoke r).mpr ⟨hr, hdue, hst.trans hstatus⟩)
      · refine Or.inr (Or.inl ?_)
        rw [(hsw.clock r hr).1, (tick_sleeping hsleep).1]
        simpa using hw
  · refine Or.inr (Or.inr ⟨hready, ?_⟩)
    have hrest := (picks_reach hs hr hready hq hp).2.resolve_left (Ne.symm hne)
    rw [hqueue]
    exact List.mem_append_left _ hrest

theorem dispatch_one_runs {next : ThreadRef} {ctx : Context} {v : Option ℤ}
    (hs : Consistent s) (hknown : s.Live c ∨ s.deleted c = true)
    (hd : Dispatch s c ctx next v t)
    (hothers : ∀ r, s.Live r → r ≠ next → AccountedAtPick s c r) : OneRuns t := by
  have hlive : ∀ r, t.Live r ↔ s.Live r := by intro r; simp only [State.Live, hd.allThreads]
  refine ⟨⟨next, hd.curRunning, ?_, by rw [hd.status, if_pos rfl]⟩, ?_⟩
  · exact (hlive next).mpr (switch_next_live hs hknown hd.toSwitch hd.alive)
  · intro r hr hne
    have hrn : r ≠ next := by
      rintro rfl
      exact hne hd.curRunning
    have hr := (hlive r).mp hr
    exact switch_accounted hs hd.toSwitch hr hrn (hothers r hr hrn)

/-- On the way into a switch no thread but the caller changes. -/
theorem enters_others {ctx : Context} {s' : State} (hi : Invariant s) (h : OneRuns s)
    (he : Enters remains s e c ctx s') (hr : s'.Live r) (hrc : r ≠ c) :
    AccountedAtPick s' c r := by
  obtain ⟨_, _, hc, _⟩ := enters_consistent hi he
  have hne : s.curRunning ≠ some r := by
    rw [hc]
    exact fun h => hrc (Option.some.inj h).symm
  refine accounted_atPick ?_ hrc
  cases he with
  | timer => exact h.others r hr hne
  | blockSelf => exact (h.others r hr hne).frame (blocked_of_ne hrc) id
  | sleep => exact (h.others r hr hne).frame (asleep_of_ne hrc) id
  | exit hcell =>
    obtain ⟨hr, _⟩ := (terminated_live hi.toTable remains hcell r).mp hr
    apply (h.others r hr hne).frame (terminated_of_ne hrc)
    intro hq
    exact List.mem_filter.mpr ⟨hq, by simpa using hrc⟩

/-- A timer signal in a quantum of a thread that is still asleep: the thread is neither
pushed nor stopped, so it has to be the one that is picked. -/
theorem timer_asleep_iff {next : ThreadRef} {v : Option ℤ} (hn : NeverRunning remains)
    (hi : Invariant s) (hq : QueueLive s) (h : OneRuns s) (hc : s.curRunning = some c)
    (hm : s.masked = false) (hsleep : (s.heap c).isSleep = true)
    (hd : Dispatch s c .signalHandler next v t) :
    OneRuns t ↔ s.readyQueue ≠ [] ∧ ∀ x ∈ s.readyQueue, (s.heap x).status ≠ .ready := by
  obtain ⟨d, hd', hlive, hrun⟩ := h.current
  obtain rfl : c = d := Option.some.inj (hc.symm.trans hd')
  have hnp : ¬ Preempts s c := by
    rintro ⟨_, hawake⟩
    rw [hsleep] at hawake
    cases hawake
  have hqueue := queueAtPick_of_stays hnp
  have hst := statusAtPick_of_stays hnp
  obtain ⟨rest, woke, hp, _⟩ := hd.queue
  constructor
  · intro ht
    have hnext : next = c := by
      by_contra hne
      have hcur : t.curRunning ≠ some c := by rw [hd.curRunning]; simpa using hne
      have hlive' : t.Live c := by simpa only [State.Live, hd.allThreads] using hlive
      refine (ht.others c hlive' hcur).stopped ?_
      rw [hd.status, if_neg (Ne.symm hne), hst]
      exact hrun
    subst hnext
    cases hp with
    | entry hsweep =>
      have hready := (sweep_split hsweep).1.1
      rw [hst] at hready
      exact absurd (hready.symm.trans hrun) (by simp)
    | main _ hmain =>
      rw [hi.main_awake next hmain] at hsleep
      cases hsleep
    | current hne hnone =>
      refine ⟨hqueue ▸ hne, fun x hx hready => ?_⟩
      have hxlive := enters_queue_live (Or.inl hn) hi hq (.timer hm hc) x (hqueue ▸ hx)
      exact not_ready_of_used_up hi.toConsistent hxlive (hqueue ▸ hx) hnone
        ((hst x).trans hready)
  · rintro ⟨hne, hall⟩
    have hnone : sweep (takes (statusAtPick s c) (surplusOf s.heap s.readyQueue))
        (queueAtPick s c) = none := by
      refine sweep_none_of_all fun x hx k htake => hall x (hqueue ▸ hx) ?_
      have := htake.1
      rwa [hst] at this
    have hnext : next = c := by
      cases hp with
      | entry hsweep => rw [hnone] at hsweep; cases hsweep
      | main hnil => exact (hne (hqueue.symm.trans hnil)).elim
      | current => rfl
    subst hnext
    have hentry : Enters remains s .timer next .signalHandler s := .timer hm hc
    exact dispatch_one_runs hi.toConsistent (Or.inl hlive) hd fun r hr hrn =>
      enters_others hi h hentry hr hrn

theorem switch_one_runs_iff {ctx : Context} {s' : State} {next : ThreadRef} {v : Option ℤ}
    (hn : NeverRunning remains) (hi : Invariant s) (hq : QueueLive s) (h : OneRuns s)
    (he : Enters remains s e c ctx s') (hd : Dispatch s' c ctx next v t) :
    OneRuns t ↔ KeepsOneRunning s e := by
  obtain ⟨hcons, hknown, hc, hlive, _⟩ := enters_consistent hi he
  obtain ⟨d, hd', _, hrun⟩ := h.current
  obtain rfl : c = d := Option.some.inj (hc.symm.trans hd')
  -- whatever the event, the caller is the only thread to look at
  have hcaller : (s'.Live c → AccountedAtPick s' c c) → OneRuns t := by
    intro hacc
    apply dispatch_one_runs hcons hknown hd
    intro r hr hrn
    by_cases hrc : r = c
    · subst hrc; exact hacc hr
    · exact enters_others hi h he hr hrc
  cases he with
  | timer hm =>
    cases hsleep : (s.heap c).isSleep with
    | false =>
      have hp : Preempts s c := ⟨hrun, hsleep⟩
      have hst : statusAtPick s c c = .ready := if_pos ⟨rfl, hp⟩
      refine iff_of_true (hcaller fun _ => ⟨by rw [hst]; simp, Or.inr (Or.inr ⟨hst, ?_⟩)⟩) ?_
      · rw [queueAtPick, if_pos hp]
        exact List.mem_append_right _ (List.mem_singleton_self c)
      · intro b hb
        obtain rfl : c = b := Option.some.inj (hc.symm.trans hb)
        exact Or.inl hsleep
    | true =>
      rw [timer_asleep_iff hn hi hq h hc hm hsleep hd]
      constructor
      · exact fun hk b _ => Or.inr hk
      · intro hk
        refine (hk c hc).resolve_left ?_
        rw [hsleep]
        simp
  | blockSelf =>
    refine iff_of_true (hcaller fun _ => ?_) trivial
    have hst : statusAtPick (blocked c s) c c = .blocked := by
      rw [statusAtPick_blocked, blocked_self]
    exact ⟨by rw [hst]; simp, Or.inl hst⟩
  | @sleep n =>
    refine iff_of_true (hcaller fun _ => ⟨?_, Or.inr (Or.inl ?_)⟩) trivial
    · rw [statusAtPick_of_stays asleep_stays, asleep_self]
      simp
    · rw [asleep_self]
  | exit hcell =>
    refine iff_of_true (hcaller fun hl => ?_) trivial
    exact (((terminated_live hi.toTable remains hcell c).mp hl).2 rfl).elim

theorem initial_one_runs : OneRuns initial := by
  refine ⟨⟨0, rfl, ⟨0, rfl⟩, rfl⟩, fun r hr hne => ?_⟩
  obtain ⟨i, hi⟩ := hr
  have hr : r = 0 := by
    by_cases h0 : i = 0
    · subst h0
      simpa [initial] using hi.symm
    · simp [initial, Function.update_of_ne h0] at hi
  exact (hne (by rw [hr]; rfl)).elim

theorem one_runs_iff (hn : NeverRunning remains) (h : Runs remains tr s) :
    Always (step (uthreads remains)) OneRuns initial tr ↔
      EachStep (step (uthreads remains)) KeepsOneRunning initial tr := by
  refine always_iff_eachStep (I := fun s => Invariant s ∧ QueueLive s) h
    ⟨initial_invariant, fun r hr => by cases hr⟩ initial_one_runs ?_ ?_
  · intro s e o t hs hst
    exact ⟨step_preserves_invariant hs.1 hst, step_queue_live hn hs.1 hs.2 hst⟩
  · intro s e o t hs hone hst
    cases step_effect hs.1 hst with
    | quiet hq => exact quiet_one_runs_iff hs.1 hone hq
    | switch he hd => exact switch_one_runs_iff hn hs.1 hs.2 hone he hd

theorem one_runs_iff_two_threads :
    let tr := history freedRecord initial [.call (.spawn (some 7)), .timer, .call (.block 1)]
    Always (step (uthreads freedRecord)) OneRuns initial tr ↔
      EachStep (step (uthreads freedRecord)) KeepsOneRunning initial tr :=
  one_runs_iff (fun r t => by simp [freedRecord]) (runs_history freedRecord
    [.call (.spawn (some 7)), .timer, .call (.block 1)] (by decide +kernel))

/-- Main resumes itself and is READY in no queue. -/
theorem self_resume_loses_main :
    let es : List Event := [.call (.resume 0)]
    Runs freedRecord (history freedRecord initial es) (after freedRecord initial es) ∧
      ¬ Always (step (uthreads freedRecord)) OneRuns initial
        (history freedRecord initial es) := by
  intro es
  have hr := runs_history freedRecord es (by decide +kernel)
  refine ⟨hr, fun h => ?_⟩
  obtain ⟨c, hc, _, hrun⟩ := (h _ [] _ (List.append_nil _).symm hr).current
  have hcur : (after freedRecord initial es).curRunning = some 0 := by decide +kernel
  obtain rfl := Option.some.inj (hcur.symm.trans hc)
  revert hrun
  decide +kernel

end ThreadConservation
