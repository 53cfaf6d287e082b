import Uthreads.SchedulingSafety

/-! # The set of blocked threads

`blockedID` and the status field are two copies of one fact. Which calls keep them equal. -/
namespace BlockedSet

open ThreadLibrary SwitchSemantics CallEffects EventRuns ThreadInvariant SchedulingSafety
  LazyQueue

/-- The set holds exactly the threads of the table whose status is BLOCKED. -/
def BlockedAgrees (s : State) : Prop :=
  ∀ r, r ∈ s.blockedID ↔ s.Live r ∧ (s.heap r).status = .blocked

/-- A BLOCKED thread is resumed only while it is awake and is not terminated, and a thread that
blocks itself leaves the processor. -/
def KeepsAgreement (s : State) : Event → Prop
  | .call (.resume tid) => ∀ r, s.At tid r → (s.heap r).status = .blocked →
      (s.heap r).isSleep = false
  | .call (.terminate tid) => ∀ r, s.At tid r → (s.heap r).status ≠ .blocked
  | e => BlocksSafely s e

variable {remains : ThreadRef → Thread → Thread} {s t : State} {tid : ℤ} {r c : ThreadRef}
  {e : Event} {o : Outcome} {tr : List (Event × Outcome)}

theorem BlockedAgrees.not_mem_iff (h : BlockedAgrees s) (hr : s.Live r) :
    r ∉ s.blockedID ↔ (s.heap r).status ≠ .blocked := by
  apply not_congr
  rw [h r]
  exact and_iff_right hr

/-- `t` agrees with `s` about `q`. -/
def SameAbout (s t : State) (q : ThreadRef) : Prop :=
  (q ∈ t.blockedID ↔ q ∈ s.blockedID) ∧ (t.Live q ↔ s.Live q) ∧
    ((t.heap q).status = .blocked ↔ (s.heap q).status = .blocked)

/-- After an operation on one thread, only that thread is to be looked at. -/
theorem agrees_iff_self (h : BlockedAgrees s) (hother : ∀ q, q ≠ r → SameAbout s t q) :
    BlockedAgrees t ↔ (r ∈ t.blockedID ↔ t.Live r ∧ (t.heap r).status = .blocked) := by
  constructor
  · intro ha
    exact ha r
  · intro hself q
    by_cases hq : q = r
    · subst hq
      exact hself
    · obtain ⟨hset, hlive, hstatus⟩ := hother q hq
      rw [hset, hlive, hstatus]
      exact h q

/-- A thread that is no longer live and BLOCKED must not be in the set. -/
theorem agrees_iff_not_mem (h : BlockedAgrees s) (hother : ∀ q, q ≠ r → SameAbout s t q)
    (hr : ¬ (t.Live r ∧ (t.heap r).status = .blocked)) :
    BlockedAgrees t ↔ r ∉ t.blockedID := by
  rw [agrees_iff_self h hother]
  exact iff_false_right hr

theorem agrees_blocked (h : BlockedAgrees s) (hr : s.Live r) : BlockedAgrees (blocked r s) := by
  have hother : ∀ q, q ≠ r → SameAbout s (blocked r s) q := by
    intro q hq
    refine ⟨?_, Iff.rfl, by rw [blocked_of_ne hq]⟩
    change q ∈ insert r s.blockedID ↔ _
    simp only [Finset.mem_insert, hq, false_or]
  apply (agrees_iff_self h hother).mpr
  rw [blocked_self]
  exact iff_of_true (Finset.mem_insert_self r _) ⟨hr, rfl⟩

theorem agrees_asleep (h : BlockedAgrees s) (n : ℤ) (hr : s.Live r)
    (hstatus : (s.heap r).status ≠ .blocked) : BlockedAgrees (asleep n r s) := by
  have hother : ∀ q, q ≠ r → SameAbout s (asleep n r s) q :=
    fun q hq => ⟨Iff.rfl, Iff.rfl, by rw [asleep_of_ne hq]⟩
  apply (agrees_iff_not_mem h hother (by rw [asleep_self]; simp)).mpr
  exact (h.not_mem_iff hr).mpr hstatus

theorem agrees_spawned (hi : Consistent s) (h : BlockedAgrees s) {i : Fin maxThreadNum} (pc : ℕ)
    (hfree : FirstFree s i) : BlockedAgrees (spawned i pc s) := by
  have hother : ∀ q, q ≠ s.nextRef → SameAbout s (spawned i pc s) q := by
    intro q hq
    refine ⟨Iff.rfl, ?_, by rw [spawned_of_ne hq]⟩
    rw [spawned_live pc hfree]
    simp only [hq, false_or]
  apply (agrees_iff_not_mem h hother (by rw [spawned_self]; simp [spawnedThread])).mpr
  intro hmem
  exact hi.fresh.1 ((h _).mp hmem).1

/-- The path of `uthread_resume` outside `resumeThread` leaves the record in the set. -/
theorem agrees_resumed_iff (h : BlockedAgrees s) (hr : s.Live r) :
    BlockedAgrees (resumed r s) ↔
      ((s.heap r).status = .blocked → (s.heap r).isSleep = false) := by
  have hset : (resumed r s).blockedID =
      if Requeues s r then s.blockedID.erase r else s.blockedID := rfl
  have hother : ∀ q, q ≠ r → SameAbout s (resumed r s) q := by
    intro q hq
    refine ⟨?_, Iff.rfl, by rw [resumed_of_ne hq]⟩
    rw [hset]
    split
    · simp only [Finset.mem_erase, ne_eq, hq, not_false_eq_true, true_and]
    · exact Iff.rfl
  rw [agrees_iff_not_mem h hother (by rw [resumed_self]; simp), hset]
  by_cases hreq : Requeues s r
  · rw [if_pos hreq]
    exact iff_of_true (Finset.notMem_erase r _) (fun _ => hreq.1)
  · rw [if_neg hreq, h.not_mem_iff hr]
    constructor
    · intro hstatus hb
      exact (hstatus hb).elim
    · intro hawake hb
      exact hreq ⟨hawake hb, hb⟩

/-- `terminateThread` takes the record out of the table and the queue only. -/
theorem agrees_terminated_iff (hi : Table s) (h : BlockedAgrees s) {i : Fin maxThreadNum}
    (hr : s.allThreads i = some r) :
    BlockedAgrees (terminated remains i r s) ↔ (s.heap r).status ≠ .blocked := by
  have hlive := terminated_live hi remains hr
  have hother : ∀ q, q ≠ r → SameAbout s (terminated remains i r s) q := by
    intro q hq
    refine ⟨Iff.rfl, ?_, by rw [terminated_of_ne hq]⟩
    rw [hlive]
    exact and_iff_left hq
  have hdead : ¬ (terminated remains i r s).Live r := by
    rw [hlive]
    exact fun hl => hl.2 rfl
  rw [agrees_iff_not_mem h hother (fun hl => hdead hl.1)]
  exact h.not_mem_iff ⟨i, hr⟩

/-- A switch writes one status that matters here, that of the dispatched thread. -/
theorem agrees_switch_iff {ctx : Context} {next : ThreadRef} (h : BlockedAgrees s)
    (hn : s.Live next) (hs : Switch s c ctx next t) :
    BlockedAgrees t ↔ (s.heap next).status ≠ .blocked := by
  have hother : ∀ q, q ≠ next → SameAbout s t q := by
    intro q hq
    refine ⟨by rw [hs.blockedID], by simp only [State.Live, hs.allThreads], ?_⟩
    rw [hs.status, if_neg hq]
    exact statusAtPick_blocked s c q
  have hnext : (t.heap next).status = .running := by rw [hs.status, if_pos rfl]
  rw [agrees_iff_not_mem h hother (by rw [hnext]; simp), hs.blockedID]
  exact h.not_mem_iff hn

theorem keeps_resume (hr : s.At tid r) : KeepsAgreement s (.call (.resume tid)) ↔
    ((s.heap r).status = .blocked → (s.heap r).isSleep = false) := by
  constructor
  · intro h
    exact h r hr
  · intro h q hq
    rwa [← At.unique hr hq]

theorem keeps_terminate (hr : s.At tid r) : KeepsAgreement s (.call (.terminate tid)) ↔
    (s.heap r).status ≠ .blocked := by
  constructor
  · intro h
    exact h r hr
  · intro h q hq
    rwa [← At.unique hr hq]

theorem idle_keeps {call : Call} (h : Idle s call) : KeepsAgreement s (.call call) := by
  cases call with
  | terminate tid => intro r hr; exact (h r hr).elim
  | resume tid => intro r hr; exact (h r hr).elim
  | block tid =>
    intro c _ hr h0
    rcases h with hmain | hnone
    · exact (h0 hmain).elim
    · exact (hnone c hr).elim
  | _ => trivial

theorem quiet_agrees_iff (hi : Invariant s) (h : BlockedAgrees s) {call : Call}
    (hq : Quiet remains s call o t) : BlockedAgrees t ↔ KeepsAgreement s (.call call) := by
  cases hq with
  | idle b hidle => exact iff_of_true h (idle_keeps hidle)
  | spawn hfree => exact iff_of_true (agrees_spawned hi.toConsistent h _ hfree) trivial
  | block hr _ hc hne =>
    refine iff_of_true (agrees_blocked h (At.live hr)) ?_
    intro d hd hdr
    have hcd := Option.some.inj (hc.symm.trans hd)
    exact (hne ((At.unique hr hdr).trans hcd.symm)).elim
  | resume hr => exact (agrees_resumed_iff h (At.live hr)).trans (keeps_resume hr).symm
  | terminate hcell =>
    exact (agrees_terminated_iff hi.toTable h hcell).trans (keeps_terminate ⟨_, rfl, hcell⟩).symm

/-- A self-block is the one entry to a switch that may come back to a BLOCKED thread. -/
theorem blockSelf_agrees_iff {next : ThreadRef} {v : Option ℤ} (hi : Invariant s)
    (h : BlockedAgrees s) (hr : s.At tid c) (h0 : tid ≠ mainThreadTid)
    (hc : s.curRunning = some c) (hn : (blocked c s).Live next)
    (hd : Dispatch (blocked c s) c .selfBlock next v t) :
    BlockedAgrees t ↔ KeepsAgreement s (.call (.block tid)) := by
  have hcons := consistent_blocked hi.toConsistent hr h0
  have hkeeps : KeepsAgreement s (.call (.block tid)) ↔ (s.readyQueue = [] ∨
      ∃ x ∈ s.readyQueue, x ≠ c ∧ s.Live x ∧ (s.heap x).status = .ready) := by
    constructor
    · intro hk
      exact hk c hc hr h0
    · intro hk d hd _ _
      rwa [← Option.some.inj (hc.symm.trans hd)]
  have hstatus : ((blocked c s).heap next).status ≠ .blocked ↔ next ≠ c := by
    constructor
    · rintro hnb rfl
      exact hnb (by rw [blocked_self])
    · intro hne
      obtain ⟨rest, _, hp, _⟩ := hd.queue
      exact picks_unblocked hcons hp (fun heq => (hne heq).elim)
  rw [agrees_switch_iff (agrees_blocked h (At.live hr)) hn hd.toSwitch, hstatus,
    blockSelf_returns_iff hi hr h0 hd, hkeeps]

theorem step_agrees_iff (hi : Invariant s) (h : BlockedAgrees s)
    (hs : step (uthreads remains) s e = .ok (o, t)) :
    BlockedAgrees t ↔ KeepsAgreement s e := by
  cases step_effect hi hs with
  | quiet hq => exact quiet_agrees_iff hi h hq
  | @switch _ c ctx s' next v _ he hd =>
    obtain ⟨hcons, hknown, hc, hlive, _⟩ := enters_consistent hi he
    have hcur := hi.current_unblocked c hc
    have hn := switch_next_live hcons hknown hd.toSwitch hd.alive
    obtain ⟨rest, _, hp, _⟩ := hd.queue
    cases he with
    | timer =>
      refine iff_of_true ?_ trivial
      rw [agrees_switch_iff h hn hd.toSwitch]
      exact picks_unblocked hcons hp (fun _ => hcur)
    | blockSelf hr h0 => exact blockSelf_agrees_iff hi h hr h0 hc hn hd
    | sleep =>
      refine iff_of_true ?_ trivial
      rw [agrees_switch_iff (agrees_asleep h _ hlive hcur) hn hd.toSwitch]
      exact picks_unblocked hcons hp (fun _ => by rw [asleep_self]; simp)
    | exit hcell =>
      -- the caller was RUNNING, so it is not in the set, and it is not dispatched again
      have hagrees : BlockedAgrees (terminated remains _ c s) :=
        (agrees_terminated_iff hi.toTable h hcell).mpr hcur
      have hgone : next ≠ c := by
        rintro rfl
        exact ((terminated_live hi.toTable remains hcell next).mp hn).2 rfl
      refine iff_of_true ?_ ((keeps_terminate ⟨_, rfl, hcell⟩).mpr hcur)
      rw [agrees_switch_iff hagrees hn hd.toSwitch]
      exact picks_unblocked hcons hp (fun heq => (hgone heq).elim)

theorem initial_agrees : BlockedAgrees initial := by
  intro r
  refine iff_of_false (Finset.notMem_empty r) ?_
  rintro ⟨_, hb⟩
  cases hb

theorem blocked_agrees_iff (h : Runs remains tr s) :
    Always (step (uthreads remains)) BlockedAgrees initial tr ↔
      EachStep (step (uthreads remains)) KeepsAgreement initial tr :=
  always_iff_eachStep (I := Invariant) h initial_invariant initial_agrees
    (fun _ _ _ _ hi hs => step_preserves_invariant hi hs)
    (fun _ _ _ _ hi ha hs => step_agrees_iff hi ha hs)

theorem blocked_agrees_iff_resumed :
    let tr := history freedRecord initial [.call (.spawn (some 7)), .call (.block 1),
      .call (.resume 1), .call (.terminate 1)]
    Always (step (uthreads freedRecord)) BlockedAgrees initial tr ↔
      EachStep (step (uthreads freedRecord)) KeepsAgreement initial tr :=
  blocked_agrees_iff (runs_history freedRecord [.call (.spawn (some 7)), .call (.block 1),
    .call (.resume 1), .call (.terminate 1)] (by decide +kernel))

/-- The terminate of a blocked thread leaves its record in the set. -/
theorem terminated_record_stays_blocked :
    let es : List Event := [.call (.spawn (some 7)), .call (.block 1), .call (.terminate 1)]
    Runs freedRecord (history freedRecord initial es) (after freedRecord initial es) ∧
      1 ∈ (after freedRecord initial es).blockedID ∧ ¬ (after freedRecord initial es).Live 1 ∧
      ¬ BlockedAgrees (after freedRecord initial es) := by
  intro es
  have hmem : 1 ∈ (after freedRecord initial es).blockedID := by decide +kernel
  have hdead : ¬ (after freedRecord initial es).Live 1 := by decide +kernel
  exact ⟨runs_history freedRecord es (by decide +kernel), hmem, hdead,
    fun h => hdead ((h 1).mp hmem).1⟩

end BlockedSet
