import Uthreads.ThreadInvariant

/-! # Eager deletion as the abstract scheduler

The plain scheduler removes the entries of a thread when it is blocked and pops the
front. The code's scheduler simulates it as long as its pick loop stops at last entries
and does not use the queue up. -/
namespace EagerScheduler

open ThreadLibrary SwitchSemantics CallEffects EventRuns ThreadInvariant LazyQueue

def eagerNextAvailableReady (s : State) : Option ThreadRef × State :=
  match s.readyQueue with
  | [] => (s.allThreads 0, s)
  | candidate :: queue => (some candidate, { s with readyQueue := queue })

def eagerBlockThread (tid : ℤ) (s : State) : Except Fault (Bool × State) := do
  let thread ← s.threadAt tid
  let (inserted, s) ← blockThread tid s
  return (inserted, { s with readyQueue := s.readyQueue.filter (· ≠ thread) })

/-- Every other function is the one of the code. -/
def eager (remains : ThreadRef → Thread → Thread) : Variant :=
  ⟨eagerNextAvailableReady, eagerBlockThread, remains⟩

def withdrawn (r : ThreadRef) (s : State) : State :=
  { blocked r s with readyQueue := s.readyQueue.filter (· ≠ r) }

theorem eagerBlockThread_ok {s : State} {tid : ℤ} {r : ThreadRef} (h : s.At tid r) :
    eagerBlockThread tid s = .ok (decide (r ∉ s.blockedID), withdrawn r s) := by
  simp only [eagerBlockThread, threadAt_ok h, blockThread_ok h, ok_bind, pure_ok]
  rfl

/-- A record without its entry counter. -/
def core (t : Thread) : Thread := { t with duplicate := 0 }

theorem core_eq_iff {t t' : Thread} : core t' = core t ↔ t'.id = t.id ∧ t'.status = t.status ∧
    t'.env = t.env ∧ t'.quantum = t.quantum ∧ t'.isSleep = t.isSleep ∧
    t'.waitingTime = t.waitingTime := by
  simp [core]

/-- Deleted records are not compared. -/
structure Alike (s s' : State) : Prop where
  record : ∀ r, s.deleted r = false → core (s'.heap r) = core (s.heap r)
  nextRef : s'.nextRef = s.nextRef
  deleted : s'.deleted = s.deleted
  blockedID : s'.blockedID = s.blockedID
  allThreads : s'.allThreads = s.allThreads
  countReady : s'.countReady = s.countReady
  curRunning : s'.curRunning = s.curRunning
  totalQuantum : s'.totalQuantum = s.totalQuantum
  masked : s'.masked = s.masked

section Alike

variable {s s' : State} {r : ThreadRef}

theorem Alike.fields (h : Alike s s') (hr : s.deleted r = false) :
    (s'.heap r).id = (s.heap r).id ∧ (s'.heap r).status = (s.heap r).status ∧
      (s'.heap r).env = (s.heap r).env ∧ (s'.heap r).quantum = (s.heap r).quantum ∧
      (s'.heap r).isSleep = (s.heap r).isSleep ∧
      (s'.heap r).waitingTime = (s.heap r).waitingTime :=
  core_eq_iff.mp (h.record r hr)

theorem Alike.live (h : Alike s s') (r : ThreadRef) : s'.Live r ↔ s.Live r := by
  simp only [State.Live, h.allThreads]

theorem Alike.at (h : Alike s s') {tid : ℤ} (hr : s.At tid r) : s'.At tid r := by
  obtain ⟨i, hi, hir⟩ := hr
  exact ⟨i, hi, by rw [h.allThreads]; exact hir⟩

theorem Alike.checkValidTid (h : Alike s s') (tid : ℤ) :
    checkValidTid tid s' = checkValidTid tid s := by
  simp only [ThreadLibrary.checkValidTid, State.cell, h.allThreads]

theorem Alike.preempts (h : Alike s s') (hr : s.deleted r = false) :
    Preempts s' r ↔ Preempts s r := by
  obtain ⟨_, hst, _, _, hs, _⟩ := h.fields hr
  rw [Preempts, Preempts, hst, hs]

theorem Alike.requeues (h : Alike s s') (hr : s.deleted r = false) :
    Requeues s' r ↔ Requeues s r := by
  obtain ⟨_, hst, _, _, hs, _⟩ := h.fields hr
  rw [Requeues, Requeues, hs, hst]

theorem Alike.withMask (h : Alike s s') (b : Bool) :
    Alike { s with masked := b } { s' with masked := b } :=
  ⟨h.record, h.nextRef, h.deleted, h.blockedID, h.allThreads, h.countReady, h.curRunning,
    h.totalQuantum, rfl⟩

/-- The same change to the same record on both sides. -/
theorem Alike.modify (h : Alike s s') (r : ThreadRef) {f g : Thread → Thread}
    (hfg : s.deleted r = false → core (g (s'.heap r)) = core (f (s.heap r))) :
    Alike (s.modifyThread r f) (s'.modifyThread r g) := by
  refine ⟨fun q hq => ?_, h.nextRef, h.deleted, h.blockedID, h.allThreads, h.countReady,
    h.curRunning, h.totalQuantum, h.masked⟩
  by_cases hqr : q = r
  · subst hqr
    rw [modifyThread_self, modifyThread_self]
    exact hfg hq
  · rw [modifyThread_of_ne s f hqr, modifyThread_of_ne s' g hqr]
    exact h.record q hq

theorem wakes_core {t t' : Thread} (h : core t' = core t) : Wakes t' ↔ Wakes t := by
  obtain ⟨_, hst, _, _, hs, hw⟩ := core_eq_iff.mp h
  simp only [Wakes, Due, hst, hs, hw]

theorem core_tick {t t' : Thread} (h : core t' = core t) : core (tick t') = core (tick t) := by
  obtain ⟨hid, hst, henv, hq, hs, hw⟩ := core_eq_iff.mp h
  have hf := tick_fields t
  have hf' := tick_fields t'
  have hc := tick_clock_congr hs hw
  refine core_eq_iff.mpr ⟨?_, ?_, ?_, ?_, hc.1, hc.2⟩
  · rw [hf.1, hf'.1, hid]
  · rw [hf.2.1, hf'.2.1, hst]
  · rw [hf.2.2.1, hf'.2.2.1, henv]
  · rw [hf.2.2.2, hf'.2.2.2, hq]

theorem core_nextQuantum {t t' : Thread} (h : core t' = core t) :
    core { t' with quantum := t'.quantum + 1 } = core { t with quantum := t.quantum + 1 } := by
  obtain ⟨hid, hst, henv, hq, hs, hw⟩ := core_eq_iff.mp h
  exact core_eq_iff.mpr ⟨hid, hst, henv, congrArg (· + 1) hq, hs, hw⟩

theorem beforePass_readyQueue (next : ThreadRef) (s : State) :
    (beforePass next s).readyQueue = s.readyQueue := rfl

theorem alike_beforePass (h : Alike s s') (next : ThreadRef) :
    Alike (beforePass next s) (beforePass next s') := by
  have hm := h.modify next (f := fun t => { t with status := .running })
    (g := fun t => { t with status := .running })
    fun hr => by
      obtain ⟨hid, _, henv, hq, hs, hw⟩ := h.fields hr
      exact core_eq_iff.mpr ⟨hid, rfl, henv, hq, hs, hw⟩
  exact ⟨hm.record, h.nextRef, h.deleted, h.blockedID, h.allThreads, h.countReady, rfl,
    congrArg (· + 1) h.totalQuantum, h.masked⟩

theorem woken_alike (h : Alike s s') (hlive : ∀ r, s.Live r → s.deleted r = false) :
    woken s' = woken s := by
  have hcell : ∀ i, ((s'.allThreads i).filter fun r => Wakes (s'.heap r)) =
      (s.allThreads i).filter fun r => Wakes (s.heap r) := by
    intro i
    rw [h.allThreads]
    cases hi : s.allThreads i with
    | none => rfl
    | some r =>
      have hw := wakes_core (h.record r (hlive r ⟨i, hi⟩))
      simp only [Option.filter, hw]
  simp only [woken, wokenIn, hcell]

/-- The wake-up pass appends the same threads on both sides. -/
theorem alike_updateWaitingTime (h : Alike s s') (hd : State.Distinct s)
    (hlive : ∀ r, s.Live r → s.deleted r = false) :
    Alike (updateWaitingTime s) (updateWaitingTime s') ∧
      (updateWaitingTime s).readyQueue = s.readyQueue ++ woken s ∧
      (updateWaitingTime s').readyQueue = s'.readyQueue ++ woken s := by
  have hd' : State.Distinct s' := by
    intro i j r hi hj
    rw [h.allThreads] at hi hj
    exact hd i j r hi hj
  have hwoken := woken_alike h hlive
  rw [updateWaitingTime_eq hd, updateWaitingTime_eq hd', hwoken]
  refine ⟨⟨fun r hr => ?_, h.nextRef, h.deleted, h.blockedID, h.allThreads, h.countReady,
    h.curRunning, h.totalQuantum, h.masked⟩, rfl, rfl⟩
  dsimp only
  by_cases hl : s.Live r
  · rw [ticked_live hl, ticked_live ((h.live r).mpr hl)]
    exact core_tick (h.record r hr)
  · rw [ticked_dead hl, ticked_dead fun k => hl ((h.live r).mp k)]
    exact h.record r hr

theorem alike_startQuantum (h : Alike s s') (hd : State.Distinct s)
    (hlive : ∀ r, s.Live r → s.deleted r = false) (next : ThreadRef) :
    Alike (startQuantum next s) (startQuantum next s') ∧
      (startQuantum next s).readyQueue = s.readyQueue ++ woken (beforePass next s) ∧
      (startQuantum next s').readyQueue = s'.readyQueue ++ woken (beforePass next s) := by
  have htable : (beforePass next s).allThreads = s.allThreads := rfl
  have hdb : State.Distinct (beforePass next s) := by rw [State.Distinct, htable]; exact hd
  have hliveb : ∀ r, (beforePass next s).Live r → (beforePass next s).deleted r = false := by
    intro r hr
    simp only [State.Live, htable] at hr
    exact hlive r hr
  obtain ⟨hal, hq, hq'⟩ := alike_updateWaitingTime (alike_beforePass h next) hdb hliveb
  refine ⟨?_, ?_, ?_⟩
  · exact hal.modify next fun hr => core_nextQuantum (hal.record next hr)
  · rw [startQuantum, modifyThread_readyQueue, hq, beforePass_readyQueue]
  · rw [startQuantum, modifyThread_readyQueue, hq', beforePass_readyQueue]

end Alike

def Ready (s : State) (r : ThreadRef) : Prop := (s.heap r).status = .ready

instance (s : State) : DecidablePred (Ready s) := fun _ => inferInstanceAs (Decidable (_ = _))

/-- Queued threads are awake, and the running thread is not among them. -/
def Tidy (s : State) : Prop :=
  ∀ r ∈ s.readyQueue, (s.heap r).status ≠ .running ∧ (s.heap r).isSleep = false ∧
    s.curRunning ≠ some r

/-- The plain scheduler holds the standing entries of the code's queue. -/
structure Matches (s s' : State) : Prop where
  alike : Alike s s'
  queue : s'.readyQueue = standing (Ready s) s.readyQueue
  tidy : Tidy s

section Calls

variable {s s' : State} {r c : ThreadRef}

theorem Matches.withMask (h : Matches s s') (b : Bool) :
    Matches { s with masked := b } { s' with masked := b } :=
  ⟨h.alike.withMask b, h.queue, h.tidy⟩

theorem matches_spawned (h : Matches s s') (hi : Invariant s) (i : Fin maxThreadNum) (pc : ℕ) :
    Matches (spawned i pc s) (spawned i pc s') := by
  obtain ⟨hdead, _, hunqueued⟩ := hi.fresh
  have hnext := h.alike.nextRef
  have hold : ∀ r ∈ s.readyQueue, (spawned i pc s).heap r = s.heap r := by
    intro r hr
    exact spawned_of_ne (by rintro rfl; exact hunqueued hr)
  have hready : Ready (spawned i pc s) s.nextRef := congrArg Thread.status spawned_self
  constructor
  case alike =>
    refine ⟨fun r hr => ?_, congrArg (· + 1) hnext, h.alike.deleted, h.alike.blockedID, ?_,
      congrArg (· + 1) h.alike.countReady, h.alike.curRunning, h.alike.totalQuantum,
      h.alike.masked⟩
    · by_cases hrn : r = s.nextRef
      · subst hrn
        rw [spawned_self, ← hnext, spawned_self]
      · rw [spawned_of_ne hrn, spawned_of_ne (by rw [hnext]; exact hrn)]
        exact h.alike.record r hr
    · simp only [spawned, h.alike.allThreads, hnext]
  case queue =>
    change s'.readyQueue ++ [s'.nextRef] = standing _ (s.readyQueue ++ [s.nextRef])
    rw [standing_append_new hready hunqueued, h.queue, hnext]
    congr 1
    exact standing_congr fun r hr => by rw [Ready, Ready, hold r hr]
  case tidy =>
    intro r hr
    rcases List.mem_append.mp hr with hr | hr
    · rw [hold r hr]
      exact h.tidy r hr
    · rw [List.mem_singleton.mp hr, spawned_self]
      refine ⟨by simp [spawnedThread], rfl, fun hc => hdead ?_⟩
      obtain ⟨c, hcur, hlive⟩ := hi.current_live
      rwa [Option.some.inj (hcur.symm.trans hc)] at hlive

theorem matches_blocked (h : Matches s s') (r : ThreadRef) :
    Matches (blocked r s) (withdrawn r s') := by
  constructor
  case alike =>
    refine ⟨fun q hq => ?_, h.alike.nextRef, h.alike.deleted,
      congrArg (insert r) h.alike.blockedID, h.alike.allThreads, h.alike.countReady,
      h.alike.curRunning, h.alike.totalQuantum, h.alike.masked⟩
    change core ((blocked r s').heap q) = _
    by_cases hqr : q = r
    · subst hqr
      rw [blocked_self, blocked_self]
      obtain ⟨hid, _, henv, hqu, hs, hw⟩ := h.alike.fields hq
      exact core_eq_iff.mpr ⟨hid, rfl, henv, hqu, hs, hw⟩
    · rw [blocked_of_ne hqr, blocked_of_ne hqr]
      exact h.alike.record q hq
  case queue =>
    change s'.readyQueue.filter (· ≠ r) = standing _ s.readyQueue
    rw [h.queue]
    refine (standing_withdraw ?_ ?_).symm
    · rw [Ready, blocked_self]; simp
    · intro q hq
      rw [Ready, Ready, blocked_of_ne hq]
  case tidy =>
    intro q hq
    obtain ⟨hst, hs, hc⟩ := h.tidy q hq
    by_cases hqr : q = r
    · subst hqr
      rw [blocked_self]
      exact ⟨by simp, hs, hc⟩
    · rw [blocked_of_ne hqr]
      exact ⟨hst, hs, hc⟩

theorem alike_resumed (h : Alike s s') (hr : s.deleted r = false) :
    Alike (resumed r s) (resumed r s') := by
  obtain ⟨hid, _, henv, hqu, hs, hw⟩ := h.fields hr
  refine ⟨fun q hq => ?_, h.nextRef, h.deleted, ?_, h.allThreads, h.countReady,
    h.curRunning, h.totalQuantum, h.masked⟩
  · by_cases hqr : q = r
    · subst hqr
      rw [resumed_self, resumed_self]
      exact core_eq_iff.mpr ⟨hid, rfl, henv, hqu, hs, hw⟩
    · rw [resumed_of_ne hqr, resumed_of_ne hqr]
      exact h.record q hq
  · simp only [resumed, h.requeues hr, h.blockedID]

theorem resumed_ready_iff {q : ThreadRef} (hq : q ≠ r) :
    Ready (resumed r s) q ↔ Ready s q := by
  rw [Ready, Ready, resumed_of_ne hq]

theorem resumed_ready : Ready (resumed r s) r := congrArg Thread.status resumed_self

theorem resumed_tidy (h : Tidy s) {q : ThreadRef} (hq : q ∈ s.readyQueue) :
    ((resumed r s).heap q).status ≠ .running ∧ ((resumed r s).heap q).isSleep = false ∧
      s.curRunning ≠ some q := by
  obtain ⟨hst, hs, hc⟩ := h q hq
  by_cases hqr : q = r
  · subst hqr
    rw [resumed_self]
    exact ⟨by simp, hs, hc⟩
  · rw [resumed_of_ne hqr]
    exact ⟨hst, hs, hc⟩

/-- A thread that is resumed into the queue supersedes its stale entries. -/
theorem matches_requeued (h : Matches s s') (hi : Invariant s) (hd : s.deleted r = false)
    (hb : Requeues s r) : Matches (resumed r s) (resumed r s') := by
  have hq : (resumed r s).readyQueue = s.readyQueue ++ [r] := by
    rw [resumed_readyQueue, if_pos hb]
  have hq' : (resumed r s').readyQueue = s'.readyQueue ++ [r] := by
    rw [resumed_readyQueue, if_pos ((h.alike.requeues hd).mpr hb)]
  refine ⟨alike_resumed h.alike hd, ?_, ?_⟩
  · have hn : ¬ Ready s r := by rw [Ready, hb.2]; simp
    have hold : standing (Ready s) s.readyQueue =
        (standing (Ready (resumed r s)) s.readyQueue).filter (· ≠ r) :=
      standing_withdraw hn fun q hne => (resumed_ready_iff hne).symm
    rw [hq, hq', standing_append resumed_ready, h.queue, hold]
  · intro q hqr
    rw [hq] at hqr
    rcases List.mem_append.mp hqr with hqr | hqr
    · exact resumed_tidy h.tidy hqr
    · rw [List.mem_singleton.mp hqr, resumed_self]
      exact ⟨by simp, hb.1, fun hc => hi.current_unblocked r hc hb.2⟩

/-- Any other resume changes the status of no queued thread: those are awake and do not
run, and this one is not blocked either. -/
theorem matches_not_requeued (h : Matches s s') (hd : s.deleted r = false)
    (hb : ¬ Requeues s r) : Matches (resumed r s) (resumed r s') := by
  have hq : (resumed r s).readyQueue = s.readyQueue := by
    rw [resumed_readyQueue, if_neg hb, List.append_nil]
  have hq' : (resumed r s').readyQueue = s'.readyQueue := by
    rw [resumed_readyQueue, if_neg fun k => hb ((h.alike.requeues hd).mp k), List.append_nil]
  refine ⟨alike_resumed h.alike hd, ?_, ?_⟩
  · rw [hq, hq', h.queue]
    apply standing_congr
    intro q hqr
    by_cases hne : q = r
    · subst hne
      obtain ⟨hst, hs, _⟩ := h.tidy q hqr
      refine ⟨fun _ => resumed_ready, fun _ => ?_⟩
      cases hq : (s.heap q).status with
      | ready => exact hq
      | running => exact (hst hq).elim
      | blocked => exact (hb ⟨hs, hq⟩).elim
    · exact (resumed_ready_iff hne).symm
  · intro q hqr
    rw [hq] at hqr
    exact resumed_tidy h.tidy hqr

theorem matches_resumed (h : Matches s s') (hi : Invariant s) (hr : s.Live r) :
    Matches (resumed r s) (resumed r s') := by
  have hd := hi.live_not_deleted r hr
  by_cases hb : Requeues s r
  · exact matches_requeued h hi hd hb
  · exact matches_not_requeued h hd hb

theorem matches_terminated (remains : ThreadRef → Thread → Thread) (h : Matches s s')
    (i : Fin maxThreadNum) (r : ThreadRef) :
    Matches (terminated remains i r s) (terminated remains i r s') := by
  constructor
  case alike =>
    refine ⟨fun q hq => ?_, h.alike.nextRef, ?_, h.alike.blockedID, ?_,
      congrArg (· - 1) h.alike.countReady, h.alike.curRunning, h.alike.totalQuantum,
      h.alike.masked⟩
    · have hqr : q ≠ r := by rintro rfl; rw [terminated_deleted] at hq; cases hq
      rw [terminated_deleted_of_ne remains i s hqr] at hq
      rw [terminated_of_ne hqr, terminated_of_ne hqr]
      exact h.alike.record q hq
    · simp only [terminated, h.alike.deleted]
    · simp only [terminated, h.alike.allThreads]
  case queue =>
    change s'.readyQueue.filter (· ≠ r) = standing _ (s.readyQueue.filter (· ≠ r))
    rw [h.queue, ← standing_filter_ne]
    apply standing_congr
    intro q hq
    have hqr : q ≠ r := by simpa using (List.mem_filter.mp hq).2
    rw [Ready, Ready, terminated_of_ne hqr]
  case tidy =>
    intro q hq
    have hq : q ∈ s.readyQueue.filter (· ≠ r) := hq
    rw [List.mem_filter] at hq
    rw [terminated_of_ne (by simpa using hq.2)]
    exact h.tidy q hq.1

theorem matches_asleep (h : Matches s s') (hc : s.curRunning = some c) (n : ℤ) :
    Matches (asleep n c s) (asleep n c s') := by
  have hne : ∀ q ∈ s.readyQueue, q ≠ c := by
    rintro q hq rfl
    exact (h.tidy q hq).2.2 hc
  constructor
  case alike =>
    apply h.alike.modify c
    intro hd
    obtain ⟨hid, _, henv, hqu, _, _⟩ := h.alike.fields hd
    exact core_eq_iff.mpr ⟨hid, rfl, henv, hqu, rfl, rfl⟩
  case queue =>
    refine h.queue.trans (standing_congr fun q hq => ?_)
    rw [Ready, Ready, asleep_of_ne (hne q hq)]
  case tidy =>
    intro q hq
    rw [asleep_of_ne (hne q hq)]
    exact h.tidy q hq

/-- The same exit, in matching states. The record that a self-terminate has deleted is
not compared, so a switch also needs the same decision on the running thread. -/
inductive Agree (c : ThreadRef) : Control → Control → Prop where
  | returns {o t t'} : Matches t t' → Agree c (.returns o t) (.returns o t')
  | switches {ctx t t'} : (Preempts t' c ↔ Preempts t c) → Matches t t' →
      Agree c (.switches ctx t) (.switches ctx t')

theorem request_spawn_agrees {remains : ThreadRef → Thread → Thread} (h : Matches s s')
    (hi : Invariant s) (c : ThreadRef) (entryPoint : Option ℕ) :
    ∃ k k', request (uthreads remains) s (.spawn entryPoint) = .ok k ∧
      request (eager remains) s' (.spawn entryPoint) = .ok k' ∧ Agree c k k' := by
  have hcount : count s' = count s := by rw [count, count, h.alike.countReady]
  have hcheck : spawnCheck entryPoint s' = spawnCheck entryPoint s := by
    unfold spawnCheck
    rw [hcount]
  cases hs : spawnCheck entryPoint s with
  | inl e =>
    exact ⟨_, _, uthreadSpawn_refused hs, uthreadSpawn_refused (hcheck.trans hs), .returns h⟩
  | inr pc =>
    obtain ⟨hroom, rfl⟩ : count s < maxThreadNum ∧ entryPoint = some pc := by
      unfold spawnCheck at hs
      split at hs
      · cases hs
      · cases entryPoint with
        | none => cases hs
        | some pc' => cases hs; exact ⟨not_le.mp ‹_›, rfl⟩
    obtain ⟨i, _, hid⟩ := hi.findId_room hroom
    have hroom' : count s' < maxThreadNum := by rw [hcount]; exact hroom
    have hid' : findId s' = (i : ℕ) := by simpa only [findId, h.alike.allThreads] using hid
    exact ⟨_, _, uthreadSpawn_ok hroom hid, uthreadSpawn_ok hroom' hid',
      .returns ((matches_spawned h hi i pc).withMask false)⟩

theorem request_block_agrees {remains : ThreadRef → Thread → Thread} (h : Matches s s')
    (hi : Invariant s) (hc : s.curRunning = some c) (hlive : s.Live c) (tid : ℤ) :
    ∃ k k', request (uthreads remains) s (.block tid) = .ok k ∧
      request (eager remains) s' (.block tid) = .ok k' ∧ Agree c k k' := by
  have hcd := hi.live_not_deleted c hlive
  have hc' : s'.curRunning = some c := h.alike.curRunning.trans hc
  rcases checkValidTid_cases s tid with ⟨r, hr⟩ | ⟨_, e, he⟩
  · by_cases h0 : tid = mainThreadTid
    · subst h0
      exact ⟨_, _, uthreadBlock_main hr, uthreadBlock_main (h.alike.at hr),
        .returns (h.withMask true)⟩
    have hm : (maskSignals s).At tid r := hr
    have hm' : (maskSignals s').At tid r := h.alike.at hr
    have hblock := uthreadBlock_ok (V := uthreads remains) (blocked r) hr h0
      (blockThread_ok hm) hc
    have hblock' := uthreadBlock_ok (V := eager remains) (withdrawn r) (h.alike.at hr) h0
      (eagerBlockThread_ok hm') hc'
    have hb := matches_blocked h r
    have hcid : ((withdrawn r (maskSignals s')).heap c).id =
        ((blocked r (maskSignals s)).heap c).id := (hb.alike.fields hcd).1
    rw [hcid] at hblock'
    refine ⟨_, _, hblock, hblock', ?_⟩
    split
    · exact .switches (hb.alike.preempts hcd) (hb.withMask true)
    · exact .returns (hb.withMask false)
  · exact ⟨_, _, uthreadBlock_invalid he,
      uthreadBlock_invalid ((h.alike.checkValidTid tid).trans he), .returns (h.withMask true)⟩

theorem request_terminate_agrees {remains : ThreadRef → Thread → Thread}
    (hn : NeverRunning remains) (h : Matches s s') (hi : Invariant s)
    (hc : s.curRunning = some c) (hlive : s.Live c) (tid : ℤ) :
    (∃ k k', request (uthreads remains) s (.terminate tid) = .ok k ∧
      request (eager remains) s' (.terminate tid) = .ok k' ∧ Agree c k k') ∨
    (∃ f, request (uthreads remains) s (.terminate tid) = .error f) := by
  have hc' : s'.curRunning = some c := h.alike.curRunning.trans hc
  have hid' : (s'.heap c).id = (s.heap c).id :=
    (h.alike.fields (hi.live_not_deleted c hlive)).1
  rcases checkValidTid_cases s tid with ⟨r, hr⟩ | ⟨_, e, he⟩
  · by_cases h0 : tid = mainThreadTid
    · subst h0
      exact Or.inr ⟨_, uthreadTerminate_main hr⟩
    obtain ⟨i, rfl, hcell⟩ := hr
    have hcell' : s'.allThreads i = some r := by rw [h.alike.allThreads]; exact hcell
    have hi0 : i ≠ 0 := by rintro rfl; exact h0 rfl
    have ht := matches_terminated remains h i r
    by_cases hself : (s.heap c).id = (i : ℕ)
    · obtain rfl : r = c := At.unique ⟨i, rfl, hcell⟩ ((hi.at_iff hlive (i : ℕ)).mpr hself)
      have hstop : ∀ x : State, ¬ Preempts (terminated remains i r x) r := by
        intro x hp
        apply hn r (x.heap r)
        simpa [terminated] using hp.1
      exact Or.inl ⟨_, _, uthreadTerminate_self hcell hi0 hc hself,
        uthreadTerminate_self hcell' hi0 hc' (hid'.trans hself),
        .switches ⟨fun k => (hstop s' k).elim, fun k => (hstop s k).elim⟩ (ht.withMask true)⟩
    · exact Or.inl ⟨_, _, uthreadTerminate_other hcell hi0 hc hself,
        uthreadTerminate_other hcell' hi0 hc' (by rw [hid']; exact hself),
        .returns (ht.withMask false)⟩
  · exact Or.inl ⟨_, _, uthreadTerminate_invalid he,
      uthreadTerminate_invalid ((h.alike.checkValidTid tid).trans he),
      .returns (h.withMask true)⟩

/-- A public call has the same exit in both schedulers. -/
theorem request_agrees {remains : ThreadRef → Thread → Thread} (hn : NeverRunning remains)
    (h : Matches s s') (hi : Invariant s) (hc : s.curRunning = some c) (hlive : s.Live c)
    (call : Call) :
    (∃ k k', request (uthreads remains) s call = .ok k ∧
      request (eager remains) s' call = .ok k' ∧ Agree c k k') ∨
    (∃ f, request (uthreads remains) s call = .error f) := by
  have hcd := hi.live_not_deleted c hlive
  have hc' : s'.curRunning = some c := h.alike.curRunning.trans hc
  have hid' : (s'.heap c).id = (s.heap c).id := (h.alike.fields hcd).1
  have hinvalid : ∀ {tid e}, checkValidTid tid s = .ok (some e) →
      checkValidTid tid s' = .ok (some e) := fun he => (h.alike.checkValidTid _).trans he
  have hfail := h.withMask true
  cases call with
  | spawn entryPoint => exact Or.inl (request_spawn_agrees h hi c entryPoint)
  | getTid =>
    refine Or.inl ⟨.returns (.returned (s.heap c).id) s, .returns (.returned (s.heap c).id) s',
      ?_, ?_, .returns h⟩
    · simp only [request, uthreadGetTid, hc, deref_some, ok_bind, pure_ok]
    · simp only [request, uthreadGetTid, hc', hid', deref_some, ok_bind, pure_ok]
  | getTotalQuantums =>
    refine Or.inl ⟨_, .returns (.returned s.totalQuantum) s', rfl, ?_, .returns h⟩
    simp only [request, uthreadGetTotalQuantums, h.alike.totalQuantum]
  | getQuantums tid =>
    rcases checkValidTid_cases s tid with ⟨r, hr⟩ | ⟨_, e, he⟩
    · have hq := (h.alike.fields (hi.live_not_deleted r (At.live hr))).2.2.2.1
      refine Or.inl ⟨_, .returns (.returned (s.heap r).quantum) s', uthreadGetQuantums_ok hr,
        ?_, .returns h⟩
      rw [← hq]
      exact uthreadGetQuantums_ok (h.alike.at hr)
    · exact Or.inl ⟨_, _, uthreadGetQuantums_invalid he,
        uthreadGetQuantums_invalid (hinvalid he), .returns h⟩
  | resume tid =>
    rcases checkValidTid_cases s tid with ⟨r, hr⟩ | ⟨_, e, he⟩
    · exact Or.inl ⟨_, _, uthreadResume_ok hr, uthreadResume_ok (h.alike.at hr),
        .returns ((matches_resumed h hi (At.live hr)).withMask false)⟩
    · exact Or.inl ⟨_, _, uthreadResume_invalid he, uthreadResume_invalid (hinvalid he),
        .returns hfail⟩
  | sleep n =>
    by_cases hz : n ≤ 0
    · exact Or.inl ⟨_, _, uthreadSleep_nonpositive hz, uthreadSleep_nonpositive hz,
        .returns hfail⟩
    · by_cases hid : (s.heap c).id = mainThreadTid
      · exact Or.inl ⟨_, _, uthreadSleep_main (not_le.mp hz) hc hid,
          uthreadSleep_main (not_le.mp hz) hc' (hid'.trans hid), .returns hfail⟩
      · have hs := (matches_asleep h hc n).withMask true
        exact Or.inl ⟨_, _, uthreadSleep_ok (not_le.mp hz) hc hid,
          uthreadSleep_ok (not_le.mp hz) hc' (by rw [hid']; exact hid),
          .switches (hs.alike.preempts hcd) hs⟩
  | block tid => exact Or.inl (request_block_agrees h hi hc hlive tid)
  | terminate tid => exact request_terminate_agrees hn h hi hc hlive tid

end Calls

/-- In front of the first last entry of a READY thread the queue holds no READY thread with
three entries or more, and it is empty, or has a READY thread, or main is the thread to
fall back on. -/
def PlainPick (s : State) (c : ThreadRef) : Prop :=
  PlainFront (fun r => statusAtPick s c r = .ready) (queueAtPick s c) ∧
    (queueAtPick s c = [] ∨ (∃ r ∈ queueAtPick s c, statusAtPick s c r = .ready) ∨
      s.allThreads 0 = some c)

instance (s : State) (c : ThreadRef) : Decidable (PlainPick s c) :=
  inferInstanceAs (Decidable (_ ∧ _))

section Switching

variable {remains : ThreadRef → Thread → Thread} {s s' t : State} {c next r : ThreadRef}
  {ctx : Context} {o : Outcome} {rest q : List ThreadRef}

theorem unmaskSignals_readyQueue (s : State) : (unmaskSignals s).readyQueue = s.readyQueue := rfl

theorem tidy_queueAtPick (h : Tidy s) (hr : r ∈ queueAtPick s c) :
    statusAtPick s c r ≠ .running ∧ (s.heap r).isSleep = false := by
  by_cases hp : Preempts s c
  · rw [queueAtPick, if_pos hp] at hr
    by_cases hrc : r = c
    · subst hrc
      exact ⟨by simp [statusAtPick, hp], hp.2⟩
    · have hq : r ∈ s.readyQueue := by simpa [hrc] using hr
      exact ⟨by simpa [statusAtPick, hrc] using (h r hq).1, (h r hq).2.1⟩
  · rw [queueAtPick_of_stays hp] at hr
    exact ⟨by simpa [statusAtPick, hp] using (h r hr).1, (h r hr).2.1⟩

theorem queueAtPick_matches (h : Matches s s') (hc : s.curRunning = some c)
    (hp : Preempts s' c ↔ Preempts s c) :
    queueAtPick s' c = standing (fun r => statusAtPick s c r = .ready) (queueAtPick s c) := by
  have hcq : c ∉ s.readyQueue := fun hq => (h.tidy c hq).2.2 hc
  have hold : standing (fun r => statusAtPick s c r = .ready) s.readyQueue = s'.readyQueue := by
    rw [h.queue]
    apply standing_congr
    intro r hr
    have hrc : r ≠ c := by rintro rfl; exact hcq hr
    simp [Ready, statusAtPick, hrc]
  by_cases hpc : Preempts s c
  · rw [queueAtPick, queueAtPick, if_pos hpc, if_pos (hp.mpr hpc),
      standing_append_new (by simp [statusAtPick, hpc]) hcq, hold]
  · rw [queueAtPick, queueAtPick, if_neg hpc, if_neg fun k => hpc (hp.mp k), List.append_nil,
      List.append_nil, hold]

/-- Where the loop stops, the plain scheduler stops too. -/
theorem picks_standing (hs : Consistent s) (hlive : ∀ r ∈ queueAtPick s c, s.Live r)
    (hplain : PlainPick s c) (h : Picks s c next rest) :
    next ∉ rest ∧
    (standing (fun r => statusAtPick s c r = .ready) (queueAtPick s c) =
        next :: standing (fun r => statusAtPick s c r = .ready) rest ∨
      (standing (fun r => statusAtPick s c r = .ready) (queueAtPick s c) = [] ∧
        s.allThreads 0 = some next ∧ rest = [])) := by
  have htake : ∀ r ∈ queueAtPick s c, ∀ k,
      takes (statusAtPick s c) (surplusOf s.heap s.readyQueue) r k ↔
        statusAtPick s c r = .ready ∧ k ≠ 1 := by
    intro r hr k
    rw [takes, hs.exact_count r (hlive r hr), Int.add_zero]
    norm_cast
  have hlast : ∀ r ∈ queueAtPick s c, statusAtPick s c r = .ready →
      takes (statusAtPick s c) (surplusOf s.heap s.readyQueue) r 0 :=
    fun r hr hst => (htake r hr 0).mpr ⟨hst, Nat.zero_ne_one⟩
  cases h with
  | entry hsweep =>
    have hn : next ∉ rest :=
      sweep_plainFront hlast (fun r hr k hk => (htake r hr k).mp hk) hplain.1 hsweep
    exact ⟨hn, Or.inl (sweep_standing hlast (fun r k hk => hk.1) hsweep hn)⟩
  | main hq hm => exact ⟨List.not_mem_nil, Or.inr ⟨by rw [hq]; rfl, hm, rfl⟩⟩
  | current hne hsweep =>
    have hnone : ∀ r ∈ queueAtPick s c, ¬ statusAtPick s c r = .ready := by
      intro r hr hst
      obtain ⟨_, _, hreach, _⟩ := live_entry_reached hs (hlive r hr) hst hr
      rw [hsweep] at hreach
      cases hreach
    have hmain : s.allThreads 0 = some c := by
      rcases hplain.2 with hq | ⟨r, hr, hst⟩ | hm
      · exact (hne hq).elim
      · exact (hnone r hr hst).elim
      · exact hm
    exact ⟨List.not_mem_nil, Or.inr ⟨standing_eq_nil hnone, hmain, rfl⟩⟩

theorem eager_pick (h : queueAtPick s c = next :: q ∨
    (queueAtPick s c = [] ∧ s.allThreads 0 = some next ∧ q = [])) :
    eagerNextAvailableReady (yielded ctx c s) =
      (some next, { yielded ctx c s with readyQueue := q }) := by
  have hqueue : (yielded ctx c s).readyQueue = queueAtPick s c := rfl
  rcases h with hq | ⟨hq, hm, rfl⟩
  · simp only [eagerNextAvailableReady, hqueue.trans hq]
  · have hm : (yielded ctx c s).allThreads 0 = some next := hm
    simp only [eagerNextAvailableReady, hqueue.trans hq, hm]
    rw [← hqueue.trans hq]

theorem alike_picked (h : Alike s s') (hp : Preempts s' c ↔ Preempts s c) (ctx : Context)
    (rest q : List ThreadRef) :
    Alike (pickedState ctx c rest s) { yielded ctx c s' with readyQueue := q } := by
  have hy : Alike (s.modifyThread c (yieldedThread ctx c s))
      (s'.modifyThread c (yieldedThread ctx c s')) := by
    apply h.modify c
    intro hd
    obtain ⟨hid, hst, _, hqu, hs, hw⟩ := h.fields hd
    refine core_eq_iff.mpr ⟨hid, ?_, rfl, hqu, hs, hw⟩
    simp only [yieldedThread, hp, hst]
  exact ⟨hy.record, h.nextRef, h.deleted, h.blockedID, h.allThreads, h.countReady,
    h.curRunning, h.totalQuantum, rfl⟩

theorem siglongjmp_agrees {V : Variant} (V' : Variant) (h : Alike s s')
    (henv : ∀ tid, s.deleted next = false → (s.heap next).env ≠ .selfTerminate tid)
    (hok : siglongjmp V next s = .ok (o, t)) :
    siglongjmp V' next s' = .ok (o, unmaskSignals s') ∧ t = unmaskSignals s := by
  obtain ⟨hd, ht, _⟩ := siglongjmp_ok henv hok
  refine ⟨?_, ht⟩
  have he := (h.fields hd).2.2.1
  have hd' : s'.deleted next = false := by rw [h.deleted]; exact hd
  unfold siglongjmp at hok ⊢
  rw [if_neg (by simp [hd])] at hok
  rw [if_neg (by simp [hd']), he]
  cases henv' : (s.heap next).env with
  | selfTerminate tid => exact (henv tid hd henv').elim
  | mainInit => rw [henv'] at hok; cases hok; rfl
  | entryPoint pc => rw [henv'] at hok; cases hok; rfl
  | signalHandler => rw [henv'] at hok; cases hok; rfl
  | selfBlock => rw [henv'] at hok; cases hok; rfl
  | sleepCall => rw [henv'] at hok; cases hok; rfl

theorem woken_picked (h : r ∈ woken (beforePass next (pickedState ctx c rest s))) :
    s.Live r ∧ Due (s.heap r) ∧ r ≠ next ∧ statusAtPick s c r = .ready := by
  obtain ⟨hlive, hdue, hst⟩ := mem_woken.mp h
  obtain ⟨_, hs, hw, _, _, hstatus, _⟩ := beforePass_fields ctx c next rest s r
  have hne : r ≠ next := by
    rintro rfl
    rw [hstatus, if_pos rfl] at hst
    cases hst
  rw [hstatus, if_neg hne] at hst
  exact ⟨hlive, by simpa only [Due, hs, hw] using hdue, hne, hst⟩

/-- The woken threads were asleep, so they have no entry yet. -/
theorem woken_not_queued (hs : Consistent s) (ht : Tidy s) (hp : Picks s c next rest)
    (h : r ∈ woken (beforePass next (pickedState ctx c rest s))) : r ∉ rest := by
  obtain ⟨hlive, hdue, _⟩ := woken_picked h
  intro hr
  have hawake := (tidy_queueAtPick ht (picks_rest_subset hp hr)).2
  simp only [Due, hawake, hs.awake_clock r hlive hawake] at hdue
  omega

theorem tidy_switch (hs : Consistent s) (ht : Tidy s)
    (hlive : ∀ r ∈ queueAtPick s c, s.Live r) (hp : Picks s c next rest) (hn : next ∉ rest)
    (hsw : Switch s c ctx next t)
    (hq : t.readyQueue = rest ++ woken (beforePass next (pickedState ctx c rest s))) :
    Tidy t := by
  intro r hr
  rw [hq] at hr
  rw [hsw.status, hsw.curRunning]
  rcases List.mem_append.mp hr with hrest | hwoken
  · have hmem := picks_rest_subset hp hrest
    obtain ⟨hst, hawake⟩ := tidy_queueAtPick ht hmem
    have hne : r ≠ next := by rintro rfl; exact hn hrest
    have hl := hlive r hmem
    rw [if_neg hne, (hsw.clock r hl).1, tick_awake hawake (hs.awake_clock r hl hawake)]
    exact ⟨hst, hawake, fun h => hne (Option.some.inj h).symm⟩
  · obtain ⟨hl, hdue, hne, hst⟩ := woken_picked hwoken
    rw [if_neg hne, (hsw.clock r hl).1, hst]
    exact ⟨by simp, by simp [tick, hdue], fun h => hne (Option.some.inj h).symm⟩

theorem switch_matches (h : Matches s s') (hs : Consistent s) (hc : s.curRunning = some c)
    (hp : Preempts s' c ↔ Preempts s c) (hlive : ∀ r ∈ queueAtPick s c, s.Live r)
    (hplain : PlainPick s c)
    (henv : ∀ r tid, s.deleted r = false →
      (if r = c then ctx else (s.heap r).env) ≠ .selfTerminate tid)
    (hst : switchThread (uthreads remains) ctx s = .ok (o, t)) :
    ∃ t', switchThread (eager remains) ctx s' = .ok (o, t') ∧ Matches t t' := by
  have hc' : s'.curRunning = some c := h.alike.curRunning.trans hc
  rw [switchThread_eq _ _ hc] at hst
  cases hn : (nextAvailableReady (yielded ctx c s)).1 with
  | none =>
    have hn' : ((uthreads remains).nextAvailableReady (yielded ctx c s)).1 = none := hn
    rw [hn'] at hst
    cases hst
  | some next =>
    obtain ⟨rest, hpick, hstate⟩ := nextAvailableReady_picks hc hn
    obtain ⟨hnext, hstanding⟩ := picks_standing hs hlive hplain hpick
    have hn' : ((uthreads remains).nextAvailableReady (yielded ctx c s)).1 = some next := hn
    have hstate' : ((uthreads remains).nextAvailableReady (yielded ctx c s)).2 =
        pickedState ctx c rest s := hstate
    rw [hn', hstate'] at hst
    have hsw : Switch s c ctx next _ := startQuantum_switch hs.distinct hpick
    -- the same pick on the plain side
    obtain ⟨q, hq⟩ : ∃ q, q = standing (fun r => statusAtPick s c r = .ready) rest := ⟨_, rfl⟩
    have heager : (eager remains).nextAvailableReady (yielded ctx c s') =
        (some next, { yielded ctx c s' with readyQueue := q }) := by
      refine eager_pick ?_
      rw [queueAtPick_matches h hc hp, h.alike.allThreads, hq]
      refine hstanding.imp id fun ⟨hnil, hm, hrest⟩ => ⟨hnil, hm, ?_⟩
      rw [hrest]
      rfl
    have hpicked := alike_picked h.alike hp ctx rest q
    obtain ⟨hal, hqueue, hqueue'⟩ := alike_startQuantum hpicked
      (by exact hs.distinct) (by exact hs.live_not_deleted) next
    have hdel := startQuantum_deleted next (pickedState ctx c rest s)
    obtain ⟨hjump, ht⟩ := siglongjmp_agrees (eager remains) hal (by
      intro tid hd
      have := henv next tid (by rw [hdel] at hd; exact hd)
      rwa [← hsw.env next] at this) hst
    rw [← ht] at hsw
    have htq : t.readyQueue = rest ++ woken (beforePass next (pickedState ctx c rest s)) := by
      rw [ht, unmaskSignals_readyQueue, hqueue]
      rfl
    have htq' : standing (Ready t) t.readyQueue =
        q ++ woken (beforePass next (pickedState ctx c rest s)) := by
      have hrest : standing (Ready t) rest = q := by
        rw [hq]
        apply standing_congr
        intro r hr
        have hne : r ≠ next := by rintro rfl; exact hnext hr
        rw [Ready, hsw.status, if_neg hne]
      rw [htq, standing_append_nodup, hrest]
      · intro r hr
        obtain ⟨_, _, hne, hready⟩ := woken_picked hr
        rw [Ready, hsw.status, if_neg hne, hready]
      · exact woken_nodup (by exact hs.distinct)
      · exact fun r hr => woken_not_queued hs h.tidy hpick hr
    refine ⟨unmaskSignals (startQuantum next { yielded ctx c s' with readyQueue := q }), ?_,
      ?_, ?_, tidy_switch hs h.tidy hlive hpick hnext hsw htq⟩
    · rw [switchThread_eq _ _ hc', heager]
      exact hjump
    · rw [ht]
      exact hal.withMask false
    · rw [unmaskSignals_readyQueue, hqueue', htq']

end Switching

/-- Every switch that the event enters picks as the plain scheduler does. -/
def PicksPlainly (remains : ThreadRef → Thread → Thread) (s : State) (e : Event) : Prop :=
  ∀ s' c, SwitchEntry (uthreads remains) s e s' → s'.curRunning = some c → PlainPick s' c

section Simulation

variable {remains : ThreadRef → Thread → Thread} {s s' t : State} {e : Event} {o : Outcome}
  {tr : List (Event × Outcome)}

theorem entry_matches {s₁ s₁' : State} {c : ThreadRef} {ctx : Context}
    (hn : NeverRunning remains) (hi : Invariant s) (hq : QueueLive s)
    (hk : PlainPick s₁ c) {s₂ : State} (he : Enters remains s e c ctx s₂)
    (hmask : s₁ = s₂ ∨ s₁ = maskSignals s₂) (h : Matches s₁ s₁')
    (hp : Preempts s₁' c ↔ Preempts s₁ c)
    (hst : switchThread (uthreads remains) ctx s₁ = .ok (o, t)) :
    ∃ t', switchThread (eager remains) ctx s₁' = .ok (o, t') ∧ Matches t t' := by
  obtain ⟨hcons, _, _, _, henv⟩ := enters_consistent hi he
  have hcur := enters_curRunning he
  have hlive := enters_queue_live (Or.inl hn) hi hq he
  rcases hmask with rfl | rfl
  · exact switch_matches h hcons hcur hp hlive hk henv hst
  · exact switch_matches h (hcons.withMask true) hcur hp hlive hk henv hst

/-- One step of the simulation. -/
theorem step_matches (hn : NeverRunning remains) (hi : Invariant s) (hq : QueueLive s)
    (h : Matches s s') (hk : PicksPlainly remains s e)
    (hst : step (uthreads remains) s e = .ok (o, t)) :
    ∃ t', step (eager remains) s' e = .ok (o, t') ∧ Matches t t' := by
  obtain ⟨c, hc, hlive⟩ := hi.current_live
  cases e with
  | timer =>
    have hm : s.masked = false := by
      cases hm : s.masked with
      | false => rfl
      | true => simp [step, hm] at hst
    have hm' : s'.masked = false := h.alike.masked.trans hm
    simp only [step, hm, hm', Bool.false_eq_true, if_false] at hst ⊢
    exact entry_matches hn hi hq (hk s c (Or.inl ⟨rfl, rfl⟩) hc) (.timer hm hc) (Or.inl rfl) h
      (h.alike.preempts (hi.live_not_deleted c hlive)) hst
  | call call =>
    rcases request_agrees hn h hi hc hlive call with ⟨k, k', hr, hr', hagree⟩ | ⟨f, hr⟩
    · simp only [step, hr, hr', ok_bind] at hst ⊢
      cases hagree with
      | returns ht =>
        cases hst
        exact ⟨_, rfl, ht⟩
      | @switches ctx s₁ s₁' hp hs₁ =>
        rcases request_cases remains hi.toTable hc hlive call with
          ⟨_, _, hr₁, _⟩ | ⟨ctx', s₂, hr₁, he⟩ | ⟨_, hr₁, _⟩
        · rw [hr] at hr₁; cases hr₁
        · rw [hr] at hr₁
          cases hr₁
          have hcur : s₂.curRunning = some c := enters_curRunning he
          exact entry_matches hn hi hq (hk _ c (Or.inr ⟨call, _, rfl, hr⟩) hcur) he
            (Or.inr rfl) hs₁ hp hst
        · rw [hr] at hr₁; cases hr₁
    · simp only [step, hr, error_bind] at hst
      cases hst

theorem initial_matches : Matches initial initial :=
  ⟨⟨fun _ _ => rfl, rfl, rfl, rfl, rfl, rfl, rfl, rfl, rfl⟩, rfl, fun r hr => by cases hr⟩

/-- The plain scheduler accepts the same history, with the same outcomes, and whatever it
does on these events it dispatches the same threads. -/
theorem lazy_agrees_with_eager (hn : NeverRunning remains) (h : Runs remains tr s)
    (hk : EachStep (step (uthreads remains)) (PicksPlainly remains) initial tr) :
    (∃ s', Exec (step (eager remains)) initial tr s') ∧
    ∀ tr' s', Exec (step (eager remains)) initial tr' s' →
      tr'.map Prod.fst = tr.map Prod.fst → dispatched tr' = dispatched tr := by
  obtain ⟨s', hs', _⟩ := h.simulation
    (R := fun s s' => (Invariant s ∧ QueueLive s) ∧ Matches s s') hk
    ⟨⟨initial_invariant, fun r hr => by cases hr⟩, initial_matches⟩
    fun s s' e o t ⟨⟨hi, hq⟩, hm⟩ hke hst => by
      obtain ⟨t', ht', hm'⟩ := step_matches hn hi hq hm hke hst
      exact ⟨t', ht', ⟨step_preserves_invariant hi hst, step_queue_live hn hi hq hst⟩, hm'⟩
  refine ⟨⟨s', hs'⟩, fun tr' u hu hev => ?_⟩
  rw [hu.trace_deterministic hs' hev]

/-- A call that comes back enters no switch. -/
theorem picksPlainly_returned {call : Call} (hi : Invariant s)
    (hst : step (uthreads remains) s (.call call) = .ok (o, t))
    (ho : ∀ next v, o ≠ .dispatched next v) : PicksPlainly remains s (.call call) := by
  obtain ⟨c, hc, hlive⟩ := hi.current_live
  rintro s₁ d (⟨he, _⟩ | ⟨call', ctx, he, hr⟩) _
  · cases he
  cases he
  rcases request_cases remains hi.toTable hc hlive call with
    ⟨_, _, hr₁, _⟩ | ⟨ctx', s₂, hr₁, he⟩ | ⟨_, hr₁, _⟩
  · rw [hr] at hr₁; cases hr₁
  · rw [hr] at hr₁
    cases hr₁
    simp only [step, hr, ok_bind] at hst
    have hcur : s₂.curRunning = some c := enters_curRunning he
    obtain ⟨hcons, _, _, _, henv⟩ := enters_consistent hi he
    obtain ⟨next, v, rfl, _⟩ := switchThread_switch (s := maskSignals s₂) hcur
      (by exact hcons.distinct) henv hst
    exact (ho next v rfl).elim
  · rw [hr] at hr₁; cases hr₁

end Simulation

/-- One stale entry of thread 1 in front of its fresh one. -/
theorem lazy_agrees_with_eager_one_stale_entry :
    let tr : List (Event × Outcome) := [(.call (.spawn (some 7)), .returned 1),
      (.call (.block 1), .returned 0), (.call (.resume 1), .returned 0),
      (.timer, .dispatched 1 none)]
    (∃ s', Exec (step (eager freedRecord)) initial tr s') ∧
    ∀ tr' s', Exec (step (eager freedRecord)) initial tr' s' →
      tr'.map Prod.fst = tr.map Prod.fst → dispatched tr' = dispatched tr := by
  intro tr
  have h₁ := step_after freedRecord (s := initial) (e := .call (.spawn (some 7)))
    (o := .returned 1) (by decide +kernel)
  let s₁ := after freedRecord initial [.call (.spawn (some 7))]
  have h₂ := step_after freedRecord (s := s₁) (e := .call (.block 1)) (o := .returned 0)
    (by decide +kernel)
  let s₂ := after freedRecord s₁ [.call (.block 1)]
  have h₃ := step_after freedRecord (s := s₂) (e := .call (.resume 1)) (o := .returned 0)
    (by decide +kernel)
  let s₃ := after freedRecord s₂ [.call (.resume 1)]
  have h₄ := step_after freedRecord (s := s₃) (e := .timer) (o := .dispatched 1 none)
    (by decide +kernel)
  have i₁ : Invariant s₁ := step_preserves_invariant initial_invariant h₁
  have i₂ : Invariant s₂ := step_preserves_invariant i₁ h₂
  have hplain : PicksPlainly freedRecord s₃ .timer := by
    rintro s' c (⟨_, rfl⟩ | ⟨_, _, he, _⟩) hc
    · have hmain : s₃.curRunning = some 0 := by decide +kernel
      obtain rfl : 0 = c := Option.some.inj (hmain.symm.trans hc)
      decide +kernel
    · cases he
  exact lazy_agrees_with_eager (fun r t => by simp [freedRecord])
    (.cons h₁ (.cons h₂ (.cons h₃ (.single h₄))))
    (.cons (picksPlainly_returned initial_invariant h₁ (by simp)) h₁
      (.cons (picksPlainly_returned i₁ h₂ (by simp)) h₂
        (.cons (picksPlainly_returned i₂ h₃ (by simp)) h₃
          (.cons hplain h₄ (.nil _)))))

/-- Thread 1 is blocked and resumed twice while it is queued: three entries, the first of
which the code takes. The plain scheduler has moved thread 1 behind thread 2. -/
theorem stale_entry_overtakes :
    let es := [.call (.spawn (some 7)), .call (.spawn (some 8)), .call (.block 1),
      .call (.resume 1), .call (.block 1), .call (.resume 1), Event.timer]
    let tr := history freedRecord initial es
    let tr' := trace (step (eager freedRecord)) initial es
    NeverRunning freedRecord ∧ Runs freedRecord tr (after freedRecord initial es) ∧
      Exec (step (eager freedRecord)) initial tr' (final (step (eager freedRecord)) initial es) ∧
      tr'.map Prod.fst = tr.map Prod.fst ∧ dispatched tr = [1] ∧ dispatched tr' = [2] := by
  intro es tr tr'
  exact ⟨fun r t => by simp [freedRecord], runs_history freedRecord es (by decide +kernel),
    exec_trace (by decide +kernel),
    by decide +kernel, by decide +kernel, by decide +kernel⟩

end EagerScheduler
