import Uthreads.LazyQueue
import Uthreads.ThreadLibrary
import Mathlib.Data.Fintype.Basic

/-! # What a context switch does

One specification for each function on the path of `switchThread`, and from them the
relation `Switch`, which says field by field what a completed switch has changed. -/
namespace SwitchSemantics

open ThreadLibrary LazyQueue

section Records

variable (s : State) (r q : ThreadRef) (f : Thread → Thread)

@[simp] theorem modifyThread_self : (s.modifyThread r f).heap r = f (s.heap r) :=
  Function.update_self ..

theorem modifyThread_of_ne {r q : ThreadRef} (h : q ≠ r) :
    (s.modifyThread r f).heap q = s.heap q := Function.update_of_ne h ..

@[simp] theorem modifyThread_nextRef : (s.modifyThread r f).nextRef = s.nextRef := rfl
@[simp] theorem modifyThread_deleted : (s.modifyThread r f).deleted = s.deleted := rfl
@[simp] theorem modifyThread_blockedID : (s.modifyThread r f).blockedID = s.blockedID := rfl
@[simp] theorem modifyThread_readyQueue : (s.modifyThread r f).readyQueue = s.readyQueue := rfl
@[simp] theorem modifyThread_allThreads : (s.modifyThread r f).allThreads = s.allThreads := rfl
@[simp] theorem modifyThread_countReady : (s.modifyThread r f).countReady = s.countReady := rfl
@[simp] theorem modifyThread_curRunning : (s.modifyThread r f).curRunning = s.curRunning := rfl
@[simp] theorem modifyThread_totalQuantum :
    (s.modifyThread r f).totalQuantum = s.totalQuantum := rfl
@[simp] theorem modifyThread_masked : (s.modifyThread r f).masked = s.masked := rfl

end Records

/-- The decision on an entry with `k` later entries of the same record. -/
def takes (status : ThreadRef → Status) (surplus : ThreadRef → ℤ) (r : ThreadRef) (k : ℕ) :
    Prop :=
  status r = .ready ∧ (k : ℤ) + surplus r ≠ 1

instance (status : ThreadRef → Status) (surplus : ThreadRef → ℤ) (r : ThreadRef) (k : ℕ) :
    Decidable (takes status surplus r k) :=
  inferInstanceAs (Decidable (_ ∧ _))

/-- By how much `duplicate` is off from the number of entries. It is zero for a live
record; no push and no pop changes it. -/
def surplusOf (heap : ThreadRef → Thread) (queue : List ThreadRef) (r : ThreadRef) : ℤ :=
  (heap r).duplicate - queue.count r

def drained (heap : ThreadRef → Thread) (queue rest : List ThreadRef) : ThreadRef → Thread :=
  fun r => { heap r with duplicate := (heap r).duplicate - queue.count r + rest.count r }

/-- The loop decides on counters that it lowers itself; relative to the remaining
entries they do not move, so it is a sweep with a fixed test. -/
theorem pickLoop_eq (cur : Option ThreadRef) (heap : ThreadRef → Thread)
    (queue : List ThreadRef) :
    pickLoop cur heap queue =
      match sweep (takes (fun r => (heap r).status) (surplusOf heap queue)) queue with
      | some (next, rest) => (some next, rest, drained heap queue rest)
      | none => (cur, [], drained heap queue []) := by
  induction queue generalizing heap with
  | nil =>
    have : drained heap [] [] = heap := by funext r; simp [drained]
    simp [pickLoop, sweep, this]
  | cons c queue ih =>
    let heap' := Function.update heap c { heap c with duplicate := (heap c).duplicate - 1 }
    have hself : heap' c = { heap c with duplicate := (heap c).duplicate - 1 } :=
      Function.update_self ..
    have hne : ∀ r, r ≠ c → heap' r = heap r := fun r h => Function.update_of_ne h ..
    have hstatus : (fun r => (heap' r).status) = fun r => (heap r).status := by
      funext r
      by_cases hr : r = c
      · subst hr; rw [hself]
      · rw [hne r hr]
    have hsurplus : surplusOf heap' queue = surplusOf heap (c :: queue) := by
      funext r
      by_cases hr : r = c
      · subst hr; simp only [surplusOf, hself, List.count_cons_self]; omega
      · simp only [surplusOf, hne r hr, List.count_cons_of_ne (Ne.symm hr)]
    have hdrained : ∀ rest, drained heap' queue rest = drained heap (c :: queue) rest := by
      intro rest
      funext r
      by_cases hr : r = c
      · subst hr
        simp only [drained, hself, List.count_cons_self, Thread.mk.injEq, true_and, and_true]
        omega
      · simp only [drained, hne r hr, List.count_cons_of_ne (Ne.symm hr)]
    have htest : ((heap' c).status ≠ .ready ∨ (heap' c).duplicate = 1) ↔
        ¬ takes (fun r => (heap r).status) (surplusOf heap (c :: queue)) c (queue.count c) := by
      simp only [hself, takes, surplusOf, List.count_cons_self]
      have harith : (heap c).duplicate - 1 = 1 ↔
          ((queue.count c : ℤ) + ((heap c).duplicate - ((queue.count c + 1 : ℕ) : ℤ)) = 1) := by
        omega
      rw [harith]
      tauto
    by_cases ht : takes (fun r => (heap r).status) (surplusOf heap (c :: queue)) c (queue.count c)
    · have hloop : ¬ ((heap' c).status ≠ .ready ∨ (heap' c).duplicate = 1) :=
        fun h => (htest.mp h) ht
      rw [sweep_cons_taken ht]
      simp only [pickLoop]
      rw [if_neg hloop, ← hdrained queue]
      have : drained heap' queue queue = heap' := by funext r; simp [drained]
      rw [this]
    · rw [sweep_cons_dropped ht]
      simp only [pickLoop]
      rw [if_pos (htest.mpr ht), ih heap', hstatus, hsurplus]
      simp only [hdrained]

/-- The countdown of this record reaches zero in the next pass. -/
def Due (t : Thread) : Prop := (if t.isSleep then t.waitingTime - 1 else t.waitingTime) = 0

instance (t : Thread) : Decidable (Due t) := inferInstanceAs (Decidable (_ = _))

def Wakes (t : Thread) : Prop := Due t ∧ t.status = .ready

instance (t : Thread) : Decidable (Wakes t) := inferInstanceAs (Decidable (_ ∧ _))

def tick (t : Thread) : Thread :=
  if Due t then
    { t with
      isSleep := false
      waitingTime := -1
      duplicate := t.duplicate + if t.status = .ready then 1 else 0 }
  else { t with waitingTime := if t.isSleep then t.waitingTime - 1 else t.waitingTime }

theorem tick_fields (t : Thread) : (tick t).id = t.id ∧ (tick t).status = t.status ∧
    (tick t).env = t.env ∧ (tick t).quantum = t.quantum := by
  by_cases h : Due t <;> simp [tick, h]

theorem tick_duplicate (t : Thread) :
    (tick t).duplicate = t.duplicate + if Wakes t then 1 else 0 := by
  by_cases h : Due t <;> simp [tick, Wakes, h]

theorem tick_clock_congr {t u : Thread} (hs : t.isSleep = u.isSleep)
    (hw : t.waitingTime = u.waitingTime) :
    (tick t).isSleep = (tick u).isSleep ∧ (tick t).waitingTime = (tick u).waitingTime := by
  have hd : Due t ↔ Due u := by simp [Due, hs, hw]
  by_cases h : Due u <;> simp [tick, h, hd, hs, hw]

theorem wakeCell_none {s : State} {i : Fin maxThreadNum} (h : s.allThreads i = none) :
    wakeCell s i = s := by simp [wakeCell, h]

theorem tick_idle {t : Thread} (hs : t.isSleep = false) (hd : ¬ Due t) : tick t = t := by
  cases t
  simp_all [tick]

theorem wakeCell_some {s : State} {i : Fin maxThreadNum} {r : ThreadRef}
    (h : s.allThreads i = some r) :
    wakeCell s i =
      { s.modifyThread r tick with
        readyQueue := s.readyQueue ++ if Wakes (s.heap r) then [r] else [] } := by
  cases hs : (s.heap r).isSleep with
  | true =>
    by_cases hd : Due (s.heap r) <;> by_cases hr : (s.heap r).status = .ready <;>
      simp_all [wakeCell, State.modifyThread, State.pushBack, tick, Wakes, Due]
  | false =>
    by_cases hd : Due (s.heap r)
    · by_cases hr : (s.heap r).status = .ready <;>
        simp_all [wakeCell, State.modifyThread, State.pushBack, tick, Wakes, Due]
    · have hz : (s.heap r).waitingTime ≠ 0 := by simpa [Due, hs] using hd
      have hw : ¬ Wakes (s.heap r) := fun hw => hd hw.1
      simp [wakeCell, h, hs, hz, hw, State.modifyThread, tick_idle hs hd]

/-- The records that one wake-up pass over `cells` appends to the queue, in cell order. -/
def wokenIn (s : State) (cells : List (Fin maxThreadNum)) : List ThreadRef :=
  cells.filterMap fun i => (s.allThreads i).filter fun r => Wakes (s.heap r)

def woken (s : State) : List ThreadRef := wokenIn s (List.finRange maxThreadNum)

/-- No record stands in two cells. -/
def State.Distinct (s : State) : Prop :=
  ∀ i j r, s.allThreads i = some r → s.allThreads j = some r → i = j

def tickedIn (s : State) (cells : List (Fin maxThreadNum)) (r : ThreadRef) : Thread :=
  if ∃ i ∈ cells, s.allThreads i = some r then tick (s.heap r) else s.heap r

theorem tickedIn_met {s : State} {cells : List (Fin maxThreadNum)} {i : Fin maxThreadNum}
    {r : ThreadRef} (hi : i ∈ cells) (hr : s.allThreads i = some r) :
    tickedIn s cells r = tick (s.heap r) := if_pos ⟨i, hi, hr⟩

theorem tickedIn_missed {s : State} {cells : List (Fin maxThreadNum)} {r : ThreadRef}
    (h : ∀ i ∈ cells, s.allThreads i ≠ some r) : tickedIn s cells r = s.heap r :=
  if_neg fun ⟨i, hi, hr⟩ => h i hi hr

theorem tickedIn_cons_of_ne {s : State} {cells : List (Fin maxThreadNum)}
    {i : Fin maxThreadNum} {r : ThreadRef} (h : s.allThreads i ≠ some r) :
    tickedIn s (i :: cells) r = tickedIn s cells r := by
  simp [tickedIn, h]

/-- The pass over a list of distinct cells: each record met is ticked once. -/
theorem wakeCells {cells : List (Fin maxThreadNum)} (hn : cells.Nodup) {s : State}
    (hd : State.Distinct s) :
    cells.foldl wakeCell s =
      { s with
        heap := tickedIn s cells
        readyQueue := s.readyQueue ++ wokenIn s cells } := by
  induction cells generalizing s with
  | nil =>
    have : tickedIn s [] = s.heap := by funext r; simp [tickedIn]
    simp [wokenIn, this]
  | cons i cells ih =>
    obtain ⟨hi, hn⟩ := List.nodup_cons.mp hn
    cases hc : s.allThreads i with
    | none =>
      have hheap : tickedIn s (i :: cells) = tickedIn s cells := by
        funext r
        exact tickedIn_cons_of_ne (by rw [hc]; simp)
      rw [List.foldl_cons, wakeCell_none hc, ih hn hd, hheap]
      simp [wokenIn, hc]
    | some q =>
      -- the cells still to come hold other records, so ticking `q` first changes none of them
      have hother : ∀ j ∈ cells, ∀ r, s.allThreads j = some r → r ≠ q := by
        rintro j hj r hr rfl
        exact hi (hd i j _ hc hr ▸ hj)
      rw [List.foldl_cons, wakeCell_some hc, ih hn (by exact hd)]
      have hwoken : wokenIn { s.modifyThread q tick with
          readyQueue := s.readyQueue ++ if Wakes (s.heap q) then [q] else [] } cells =
          wokenIn s cells := by
        apply List.filterMap_congr
        intro j hj
        cases hr : s.allThreads j with
        | none => simp [hr]
        | some r =>
          simp [hr, modifyThread_of_ne s tick (hother j hj r hr), Option.filter]
      have hheap : tickedIn { s.modifyThread q tick with
          readyQueue := s.readyQueue ++ if Wakes (s.heap q) then [q] else [] } cells =
          tickedIn s (i :: cells) := by
        funext r
        by_cases hr : r = q
        · subst hr
          rw [tickedIn_met List.mem_cons_self hc]
          refine (tickedIn_missed ?_).trans (modifyThread_self s r tick)
          exact fun j hj hjr => hother j hj r hjr rfl
        · rw [tickedIn_cons_of_ne (by rw [hc]; exact fun h => hr (Option.some.inj h).symm)]
          simp only [tickedIn, modifyThread_of_ne s tick hr, modifyThread_allThreads]
      have hqueue : (s.readyQueue ++ if Wakes (s.heap q) then [q] else []) ++ wokenIn s cells =
          s.readyQueue ++ wokenIn s (i :: cells) := by
        by_cases hw : Wakes (s.heap q) <;> simp [wokenIn, hc, hw, Option.filter]
      rw [hwoken, hheap]
      exact State.ext rfl rfl rfl rfl hqueue rfl rfl rfl rfl rfl

def ticked (s : State) (r : ThreadRef) : Thread :=
  if s.Live r then tick (s.heap r) else s.heap r

theorem ticked_live {s : State} {r : ThreadRef} (h : s.Live r) :
    ticked s r = tick (s.heap r) := if_pos h

theorem ticked_dead {s : State} {r : ThreadRef} (h : ¬ s.Live r) : ticked s r = s.heap r :=
  if_neg h

/-- The wake-up pass as one update. -/
theorem updateWaitingTime_eq {s : State} (hd : State.Distinct s) :
    updateWaitingTime s =
      { s with
        heap := ticked s
        readyQueue := s.readyQueue ++ woken s } := by
  have hheap : tickedIn s (List.finRange maxThreadNum) = ticked s := by
    funext r
    by_cases hr : s.Live r
    · obtain ⟨i, hi⟩ := hr
      rw [ticked_live ⟨i, hi⟩, tickedIn_met (List.mem_finRange i) hi]
    · rw [ticked_dead hr, tickedIn_missed fun i _ hi => hr ⟨i, hi⟩]
  rw [updateWaitingTime, wakeCells (List.nodup_finRange maxThreadNum) hd, hheap]
  rfl

theorem mem_woken {s : State} {r : ThreadRef} :
    r ∈ woken s ↔ s.Live r ∧ Wakes (s.heap r) := by
  simp only [woken, wokenIn, List.mem_filterMap, List.mem_finRange, true_and,
    Option.filter_eq_some_iff, decide_eq_true_eq, State.Live]
  constructor
  · rintro ⟨i, hi, hw⟩; exact ⟨⟨i, hi⟩, hw⟩
  · rintro ⟨⟨i, hi⟩, hw⟩; exact ⟨i, hi, hw⟩

theorem woken_nodup {s : State} (hd : State.Distinct s) : (woken s).Nodup := by
  refine List.Nodup.filterMap ?_ (List.nodup_finRange maxThreadNum)
  intro i j r hi hj
  exact hd i j r (Option.filter_eq_some_iff.mp hi).1 (Option.filter_eq_some_iff.mp hj).1

/-- The running thread goes back to the queue. -/
def Preempts (s : State) (c : ThreadRef) : Prop :=
  (s.heap c).status = .running ∧ (s.heap c).isSleep = false

instance (s : State) (c : ThreadRef) : Decidable (Preempts s c) :=
  inferInstanceAs (Decidable (_ ∧ _))

/-- The queue and the statuses that the pick loop works on. -/
def queueAtPick (s : State) (c : ThreadRef) : List ThreadRef :=
  s.readyQueue ++ if Preempts s c then [c] else []

def statusAtPick (s : State) (c r : ThreadRef) : Status :=
  if r = c ∧ Preempts s c then .ready else (s.heap r).status

theorem statusAtPick_of_ne {s : State} {c r : ThreadRef} (h : r ≠ c) :
    statusAtPick s c r = (s.heap r).status := if_neg fun hr => h hr.1

theorem statusAtPick_of_stays {s : State} {c : ThreadRef} (h : ¬ Preempts s c) (r : ThreadRef) :
    statusAtPick s c r = (s.heap r).status := if_neg fun hr => h hr.2

theorem queueAtPick_of_stays {s : State} {c : ThreadRef} (h : ¬ Preempts s c) :
    queueAtPick s c = s.readyQueue := by
  rw [queueAtPick, if_neg h, List.append_nil]

theorem statusAtPick_blocked (s : State) (c r : ThreadRef) :
    statusAtPick s c r = .blocked ↔ (s.heap r).status = .blocked := by
  unfold statusAtPick
  by_cases hp : r = c ∧ Preempts s c
  · rw [if_pos hp]
    obtain ⟨rfl, hrun, _⟩ := hp
    rw [hrun]
    simp
  · rw [if_neg hp]

def yieldedThread (ctx : Context) (c : ThreadRef) (s : State) (t : Thread) : Thread :=
  { t with
    env := ctx
    status := if Preempts s c then .ready else t.status
    duplicate := t.duplicate + if Preempts s c then 1 else 0 }

/-- The state in which `nextAvailableReady` is called. -/
def yielded (ctx : Context) (c : ThreadRef) (s : State) : State :=
  { s.modifyThread c (yieldedThread ctx c s) with
    readyQueue := queueAtPick s c
    masked := true }

/-- The state when the wake-up pass begins. -/
def beforePass (next : ThreadRef) (s : State) : State :=
  { setRunning next s with totalQuantum := s.totalQuantum + 1 }

/-- Everything between the pick and the jump. -/
def startQuantum (next : ThreadRef) (s : State) : State :=
  (updateWaitingTime (beforePass next s)).modifyThread next
    fun t => { t with quantum := t.quantum + 1 }

/-- What no cell changes, the pass does not change. -/
theorem updateWaitingTime_keeps {β : Type} (f : State → β)
    (hf : ∀ s i, f (wakeCell s i) = f s) (s : State) : f (updateWaitingTime s) = f s := by
  have : ∀ (cells : List (Fin maxThreadNum)) (s : State), f (cells.foldl wakeCell s) = f s := by
    intro cells
    induction cells with
    | nil => intro s; rfl
    | cons i cells ih => intro s; rw [List.foldl_cons, ih, hf]
  exact this _ s

theorem updateWaitingTime_curRunning (s : State) :
    (updateWaitingTime s).curRunning = s.curRunning := by
  apply updateWaitingTime_keeps State.curRunning
  intro s i
  cases h : s.allThreads i with
  | none => rw [wakeCell_none h]
  | some r => rw [wakeCell_some h]; rfl

theorem updateWaitingTime_deleted (s : State) :
    (updateWaitingTime s).deleted = s.deleted := by
  apply updateWaitingTime_keeps State.deleted
  intro s i
  cases h : s.allThreads i with
  | none => rw [wakeCell_none h]
  | some r => rw [wakeCell_some h]; rfl

/-- The state after `setjmp` returned 0. -/
def savedContext (ctx : Context) (c : ThreadRef) (s : State) : State :=
  (maskSignals s).modifyThread c fun t => { t with env := ctx }

theorem savedContext_self (ctx : Context) (c : ThreadRef) (s : State) :
    (savedContext ctx c s).heap c = { s.heap c with env := ctx } := modifyThread_self ..

theorem preempted_yields (ctx : Context) {s : State} {c : ThreadRef}
    (hc : s.curRunning = some c) (hp : Preempts s c) :
    preemptedThread (savedContext ctx c s) = .ok (yielded ctx c s) := by
  have hcur : (savedContext ctx c s).curRunning = some c := hc
  rw [preemptedThread, hcur]
  simp only [deref_some, ok_bind, pure_ok, Except.ok.injEq]
  refine State.ext ?_ rfl rfl rfl ?_ rfl rfl rfl rfl rfl
  · funext r
    by_cases hr : r = c
    · subst hr
      simp [State.modifyThread, State.pushBack, savedContext, yielded, yieldedThread,
        maskSignals, hp]
    · simp [State.modifyThread, State.pushBack, savedContext, yielded, maskSignals, hr]
  · simp [savedContext, yielded, queueAtPick, State.pushBack, maskSignals, hp]

theorem saved_yields (ctx : Context) {s : State} {c : ThreadRef} (hp : ¬ Preempts s c) :
    savedContext ctx c s = yielded ctx c s := by
  refine State.ext ?_ rfl rfl rfl ?_ rfl rfl rfl rfl rfl
  · funext r
    by_cases hr : r = c
    · subst hr
      simp [State.modifyThread, savedContext, yielded, yieldedThread, maskSignals, hp]
    · simp [State.modifyThread, savedContext, yielded, maskSignals, hr]
  · simp [savedContext, yielded, queueAtPick, maskSignals, hp]

theorem switchThread_eq (V : Variant) (ctx : Context) {s : State} {c : ThreadRef}
    (hc : s.curRunning = some c) :
    switchThread V ctx s =
      match (V.nextAvailableReady (yielded ctx c s)).1 with
      | none => .error .nullThread
      | some next =>
        siglongjmp V next (startQuantum next (V.nextAvailableReady (yielded ctx c s)).2) := by
  have hcur : (maskSignals s).curRunning = some c := hc
  have hrest : ∀ y : State, (do
      let next ← deref (V.nextAvailableReady y).1
      let cur ← deref (updateWaitingTime { setRunning next (V.nextAvailableReady y).2 with
        totalQuantum := (setRunning next (V.nextAvailableReady y).2).totalQuantum + 1
          }).curRunning
      siglongjmp V next ((updateWaitingTime { setRunning next (V.nextAvailableReady y).2 with
        totalQuantum := (setRunning next (V.nextAvailableReady y).2).totalQuantum + 1
          }).modifyThread cur fun t => { t with quantum := t.quantum + 1 })) =
      match (V.nextAvailableReady y).1 with
      | none => .error .nullThread
      | some next => siglongjmp V next (startQuantum next (V.nextAvailableReady y).2) := by
    intro y
    cases hn : (V.nextAvailableReady y).1 with
    | none => rfl
    | some next =>
      simp only [deref_some, ok_bind, updateWaitingTime_curRunning, setRunning]
      rfl
  have hself := savedContext_self ctx c s
  unfold switchThread
  simp only [hcur, deref_some, ok_bind]
  change (if ((savedContext ctx c s).heap c).status = .running ∧
    ((savedContext ctx c s).heap c).isSleep = false then _ else _) = _
  by_cases hp : Preempts s c
  · rw [if_pos (by rw [hself]; exact hp)]
    change (preemptedThread (savedContext ctx c s) >>= _) = _
    rw [preempted_yields ctx hc hp, ok_bind]
    exact hrest (yielded ctx c s)
  · rw [if_neg (by rw [hself]; exact hp), ← saved_yields ctx hp]
    exact hrest (savedContext ctx c s)

/-- The three exits of `nextAvailableReady`: an entry that the loop takes, main on an
empty queue, and the running thread when the loop used the queue up. -/
inductive Picks (s : State) (c : ThreadRef) : ThreadRef → List ThreadRef → Prop where
  | entry {next rest} :
      sweep (takes (statusAtPick s c) (surplusOf s.heap s.readyQueue)) (queueAtPick s c) =
        some (next, rest) → Picks s c next rest
  | main {next} : queueAtPick s c = [] → s.allThreads 0 = some next → Picks s c next []
  | current : queueAtPick s c ≠ [] →
      sweep (takes (statusAtPick s c) (surplusOf s.heap s.readyQueue)) (queueAtPick s c) = none →
      Picks s c c []

theorem yielded_of_ne {ctx : Context} {c r : ThreadRef} (s : State) (h : r ≠ c) :
    (yielded ctx c s).heap r = s.heap r := modifyThread_of_ne s _ h

theorem yielded_self (ctx : Context) (c : ThreadRef) (s : State) :
    (yielded ctx c s).heap c = yieldedThread ctx c s (s.heap c) := modifyThread_self ..

theorem yielded_status (ctx : Context) (c : ThreadRef) (s : State) :
    (fun r => ((yielded ctx c s).heap r).status) = statusAtPick s c := by
  funext r
  by_cases hr : r = c
  · subst hr
    by_cases hp : Preempts s r <;> simp [yielded_self, yieldedThread, statusAtPick, hp]
  · simp [yielded_of_ne s hr, statusAtPick, hr]

theorem yielded_surplus (ctx : Context) (c : ThreadRef) (s : State) :
    surplusOf (yielded ctx c s).heap (queueAtPick s c) = surplusOf s.heap s.readyQueue := by
  funext r
  by_cases hp : Preempts s c
  · by_cases hr : r = c
    · subst hr
      simp only [surplusOf, yielded_self, yieldedThread, queueAtPick, hp, if_true,
        List.count_append, List.count_singleton_self]
      omega
    · simp [surplusOf, yielded_of_ne s hr, queueAtPick, hp, List.count_append,
        Ne.symm hr]
  · by_cases hr : r = c
    · subst hr; simp [surplusOf, yielded_self, yieldedThread, queueAtPick, hp]
    · simp [surplusOf, yielded_of_ne s hr, queueAtPick, hp]

/-- The state in which `setRunning` is called: the counters of the popped entries are
lowered, whichever exit was taken. -/
def pickedState (ctx : Context) (c : ThreadRef) (rest : List ThreadRef) (s : State) : State :=
  { yielded ctx c s with
    readyQueue := rest
    heap := drained (yielded ctx c s).heap (queueAtPick s c) rest }

theorem nextAvailableReady_picks {ctx : Context} {s : State} {c next : ThreadRef}
    (hc : s.curRunning = some c)
    (h : (nextAvailableReady (yielded ctx c s)).1 = some next) :
    ∃ rest, Picks s c next rest ∧
      (nextAvailableReady (yielded ctx c s)).2 = pickedState ctx c rest s := by
  have hcur : (yielded ctx c s).curRunning = some c := hc
  have hqueue : (yielded ctx c s).readyQueue = queueAtPick s c := rfl
  cases hq : queueAtPick s c with
  | nil =>
    have hr := hqueue.trans hq
    simp only [nextAvailableReady, hr] at h ⊢
    refine ⟨[], .main hq h, State.ext ?_ rfl rfl rfl hr rfl rfl rfl rfl rfl⟩
    funext r
    simp [pickedState, drained, hq]
  | cons a queue =>
    have hr := hqueue.trans hq
    have hloop := pickLoop_eq (some c) (yielded ctx c s).heap (a :: queue)
    rw [yielded_status, ← hq, yielded_surplus] at hloop
    simp only [nextAvailableReady, hr, hcur] at h ⊢
    rw [← hq, hloop] at h ⊢
    cases hs : sweep (takes (statusAtPick s c) (surplusOf s.heap s.readyQueue))
        (queueAtPick s c) with
    | none =>
      rw [hs] at h
      cases h
      exact ⟨[], .current (by rw [hq]; simp) hs,
        State.ext rfl rfl rfl rfl rfl rfl rfl hcur.symm rfl rfl⟩
    | some p =>
      obtain ⟨b, rest⟩ := p
      rw [hs] at h
      cases h
      exact ⟨rest, .entry hs, State.ext rfl rfl rfl rfl rfl rfl rfl hcur.symm rfl rfl⟩

/-- The exits are exclusive, and the code takes the one that applies. -/
theorem picks_nextAvailableReady {s : State} {c next : ThreadRef} {rest : List ThreadRef}
    (ctx : Context) (hc : s.curRunning = some c) (h : Picks s c next rest) :
    (nextAvailableReady (yielded ctx c s)).1 = some next := by
  have hcur : (yielded ctx c s).curRunning = some c := hc
  have hqueue : (yielded ctx c s).readyQueue = queueAtPick s c := rfl
  have hloop := pickLoop_eq (some c) (yielded ctx c s).heap (queueAtPick s c)
  rw [yielded_status, yielded_surplus] at hloop
  have hnonempty : queueAtPick s c ≠ [] → (nextAvailableReady (yielded ctx c s)).1 =
      (pickLoop (some c) (yielded ctx c s).heap (queueAtPick s c)).1 := by
    intro hne
    cases hq : queueAtPick s c with
    | nil => exact (hne hq).elim
    | cons a queue => simp only [nextAvailableReady, hqueue.trans hq, hcur]
  cases h with
  | entry hs =>
    rw [hnonempty (by intro he; rw [he] at hs; cases hs), hloop, hs]
  | main hq hm => simp only [nextAvailableReady, hqueue.trans hq]; exact hm
  | current hne hs => rw [hnonempty hne, hloop, hs]

/-- A completed switch, field by field. `c` is the thread that was running, live or not,
and `ctx` the place where its call goes on. -/
structure Switch (s : State) (c : ThreadRef) (ctx : Context) (next : ThreadRef) (t : State) :
    Prop where
  queue : ∃ rest woke, Picks s c next rest ∧ t.readyQueue = rest ++ woke ∧ woke.Nodup ∧
    ∀ r, r ∈ woke ↔ s.Live r ∧ Due (s.heap r) ∧ (t.heap r).status = .ready
  surplus : ∀ r, surplusOf t.heap t.readyQueue r = surplusOf s.heap s.readyQueue r
  id : ∀ r, (t.heap r).id = (s.heap r).id
  status : ∀ r, (t.heap r).status = if r = next then .running else statusAtPick s c r
  env : ∀ r, (t.heap r).env = if r = c then ctx else (s.heap r).env
  quantum : ∀ r, (t.heap r).quantum = (s.heap r).quantum + if r = next then 1 else 0
  clock : ∀ r, s.Live r → (t.heap r).isSleep = (tick (s.heap r)).isSleep ∧
    (t.heap r).waitingTime = (tick (s.heap r)).waitingTime
  nextRef : t.nextRef = s.nextRef
  deleted : t.deleted = s.deleted
  blockedID : t.blockedID = s.blockedID
  allThreads : t.allThreads = s.allThreads
  countReady : t.countReady = s.countReady
  curRunning : t.curRunning = some next
  totalQuantum : t.totalQuantum = s.totalQuantum + 1
  unmasked : t.masked = false

theorem setRunning_self (next : ThreadRef) (s : State) :
    (setRunning next s).heap next = { s.heap next with status := .running } :=
  Function.update_self ..

theorem setRunning_of_ne {next r : ThreadRef} {s : State} (h : r ≠ next) :
    (setRunning next s).heap r = s.heap r := Function.update_of_ne h ..

theorem beforePass_fields (ctx : Context) (c next : ThreadRef) (rest : List ThreadRef)
    (s : State) (r : ThreadRef) :
    let b := beforePass next (pickedState ctx c rest s)
    (b.heap r).id = (s.heap r).id ∧
    (b.heap r).isSleep = (s.heap r).isSleep ∧
    (b.heap r).waitingTime = (s.heap r).waitingTime ∧
    (b.heap r).quantum = (s.heap r).quantum ∧
    (b.heap r).env = (if r = c then ctx else (s.heap r).env) ∧
    (b.heap r).status = (if r = next then .running else statusAtPick s c r) ∧
    surplusOf b.heap rest r = surplusOf s.heap s.readyQueue r := by
  have hy := congrFun (yielded_surplus ctx c s) r
  have hst := congrFun (yielded_status ctx c s) r
  have hpick : (pickedState ctx c rest s).heap r = { (yielded ctx c s).heap r with
      duplicate := ((yielded ctx c s).heap r).duplicate - (queueAtPick s c).count r +
        rest.count r } := rfl
  have hsame : ((yielded ctx c s).heap r).id = (s.heap r).id ∧
      ((yielded ctx c s).heap r).isSleep = (s.heap r).isSleep ∧
      ((yielded ctx c s).heap r).waitingTime = (s.heap r).waitingTime ∧
      ((yielded ctx c s).heap r).quantum = (s.heap r).quantum ∧
      ((yielded ctx c s).heap r).env = if r = c then ctx else (s.heap r).env := by
    by_cases hr : r = c
    · subst hr; simp [yielded_self, yieldedThread]
    · simp [yielded_of_ne s hr, hr]
  simp only [surplusOf] at hy ⊢
  by_cases hr : r = next
  · subst hr
    simp only [beforePass, setRunning_self, hpick, hsame, if_true, true_and]
    omega
  · simp only [beforePass, setRunning_of_ne hr, hpick, hsame, if_neg hr, true_and]
    exact ⟨hst, by omega⟩

theorem startQuantum_switch {ctx : Context} {s : State} {c next : ThreadRef}
    {rest : List ThreadRef} (hd : State.Distinct s) (hp : Picks s c next rest) :
    Switch s c ctx next (unmaskSignals (startQuantum next (pickedState ctx c rest s))) := by
  obtain ⟨b, hbdef⟩ : ∃ b, b = beforePass next (pickedState ctx c rest s) := ⟨_, rfl⟩
  have hb := beforePass_fields ctx c next rest s
  simp only [← hbdef] at hb
  have htable : b.allThreads = s.allThreads := by rw [hbdef]; rfl
  have hdb : State.Distinct b := by rw [State.Distinct, htable]; exact hd
  have hrest : b.readyQueue = rest := by rw [hbdef]; rfl
  have hpass := updateWaitingTime_eq hdb
  rw [hrest] at hpass
  obtain ⟨t, ht⟩ : ∃ t, t = unmaskSignals (startQuantum next (pickedState ctx c rest s)) :=
    ⟨_, rfl⟩
  rw [← ht]
  replace ht : t = unmaskSignals ((updateWaitingTime b).modifyThread next
      fun t => { t with quantum := t.quantum + 1 }) := by rw [ht, startQuantum, ← hbdef]
  rw [hpass] at ht
  have hqueue : t.readyQueue = rest ++ woken b := by rw [ht]; rfl
  -- the record after the pass; only `quantum` is still to change
  have hheap : ∀ r, t.heap r = { ticked b r with
      quantum := (ticked b r).quantum + if r = next then 1 else 0 } := by
    intro r
    rw [ht]
    by_cases hr : r = next
    · subst hr; simp [unmaskSignals, State.modifyThread]
    · simp [unmaskSignals, State.modifyThread, hr]
  have hticked : ∀ r, (ticked b r).id = (b.heap r).id ∧ (ticked b r).status = (b.heap r).status ∧
      (ticked b r).env = (b.heap r).env ∧ (ticked b r).quantum = (b.heap r).quantum := by
    intro r
    by_cases hr : b.Live r
    · rw [ticked_live hr]; exact tick_fields _
    · rw [ticked_dead hr]; exact ⟨rfl, rfl, rfl, rfl⟩
  have hlive : ∀ r, b.Live r ↔ s.Live r := by intro r; simp only [State.Live, htable]
  have hdue : ∀ r, Due (b.heap r) ↔ Due (s.heap r) := by
    intro r; simp only [Due, (hb r).2.1, (hb r).2.2.1]
  have hstatus : ∀ r, (t.heap r).status = (b.heap r).status := by
    intro r; simp only [hheap, (hticked r).2.1]
  have hwoken : ∀ r, r ∈ woken b ↔ s.Live r ∧ Due (s.heap r) ∧ (t.heap r).status = .ready := by
    intro r; rw [mem_woken, Wakes, hlive, hdue, hstatus]
  constructor
  case queue => exact ⟨rest, woken b, hp, hqueue, woken_nodup hdb, hwoken⟩
  case surplus =>
    intro r
    rw [← (hb r).2.2.2.2.2.2, hqueue]
    simp only [surplusOf, hheap, List.count_append]
    by_cases hr : b.Live r
    · rw [ticked_live hr, tick_duplicate]
      by_cases hw : Wakes (b.heap r)
      · rw [List.count_eq_one_of_mem (woken_nodup hdb) (mem_woken.mpr ⟨hr, hw⟩)]
        simp only [hw, if_true]
        omega
      · rw [List.count_eq_zero.mpr fun h => hw (mem_woken.mp h).2]
        simp only [hw, if_false]
        omega
    · rw [ticked_dead hr, List.count_eq_zero.mpr fun h => hr (mem_woken.mp h).1]
      omega
  case id => intro r; simp only [hheap, (hticked r).1, (hb r).1]
  case status => intro r; rw [hstatus]; exact (hb r).2.2.2.2.2.1
  case env => intro r; simp only [hheap, (hticked r).2.2.1, (hb r).2.2.2.2.1]
  case quantum =>
    intro r
    rw [hheap]
    simp only [(hticked r).2.2.2, (hb r).2.2.2.1]
  case clock =>
    intro r hr
    rw [hheap, ticked_live ((hlive r).mpr hr)]
    exact tick_clock_congr (hb r).2.1 (hb r).2.2.1
  case nextRef => rw [ht, hbdef]; rfl
  case deleted => rw [ht, hbdef]; rfl
  case blockedID => rw [ht, hbdef]; rfl
  case allThreads => rw [ht, hbdef]; rfl
  case countReady => rw [ht, hbdef]; rfl
  case curRunning => rw [ht, hbdef]; rfl
  case totalQuantum => rw [ht, hbdef]; rfl
  case unmasked => rw [ht]; rfl

theorem startQuantum_deleted (next : ThreadRef) (s : State) :
    (startQuantum next s).deleted = s.deleted := by
  rw [startQuantum, modifyThread_deleted, updateWaitingTime_deleted]
  rfl

/-- A jump that does not fault goes to a record that was not deleted, and unless that
record waits inside its own `uthread_terminate`, all it does is to give the signal back. -/
theorem siglongjmp_ok {V : Variant} {next : ThreadRef} {s t : State} {o : Outcome}
    (henv : ∀ tid, s.deleted next = false → (s.heap next).env ≠ .selfTerminate tid)
    (h : siglongjmp V next s = .ok (o, t)) :
    s.deleted next = false ∧ t = unmaskSignals s ∧
      ∃ v, o = .dispatched next v ∧ (v = none ∨ v = some 0) := by
  unfold siglongjmp at h
  split at h
  · cases h
  · rename_i hd
    have hd : s.deleted next = false := by simpa using hd
    refine ⟨hd, ?_⟩
    cases he : (s.heap next).env with
    | mainInit => rw [he] at h; cases h; exact ⟨rfl, _, rfl, Or.inr rfl⟩
    | entryPoint pc => rw [he] at h; cases h; exact ⟨rfl, _, rfl, Or.inl rfl⟩
    | signalHandler => rw [he] at h; cases h; exact ⟨rfl, _, rfl, Or.inl rfl⟩
    | selfBlock => rw [he] at h; cases h; exact ⟨rfl, _, rfl, Or.inr rfl⟩
    | sleepCall => rw [he] at h; cases h; exact ⟨rfl, _, rfl, Or.inr rfl⟩
    | selfTerminate tid => exact (henv tid hd he).elim

/-- Every switch that does not fault is a `Switch`. -/
theorem switchThread_switch {remains : ThreadRef → Thread → Thread} {ctx : Context}
    {s t : State} {c : ThreadRef} {o : Outcome} (hc : s.curRunning = some c)
    (hd : State.Distinct s)
    (henv : ∀ r tid, s.deleted r = false →
      (if r = c then ctx else (s.heap r).env) ≠ .selfTerminate tid)
    (h : switchThread (uthreads remains) ctx s = .ok (o, t)) :
    ∃ next v, o = .dispatched next v ∧ (v = none ∨ v = some 0) ∧ s.deleted next = false ∧
      Switch s c ctx next t := by
  rw [switchThread_eq _ _ hc] at h
  cases hn : (nextAvailableReady (yielded ctx c s)).1 with
  | none =>
    have hn' : ((uthreads remains).nextAvailableReady (yielded ctx c s)).1 = none := hn
    rw [hn'] at h
    cases h
  | some next =>
    have hn' : ((uthreads remains).nextAvailableReady (yielded ctx c s)).1 = some next := hn
    obtain ⟨rest, hp, hstate⟩ := nextAvailableReady_picks hc hn
    have hstate' : ((uthreads remains).nextAvailableReady (yielded ctx c s)).2 =
        pickedState ctx c rest s := hstate
    rw [hn', hstate'] at h
    have hsw : Switch s c ctx next _ := startQuantum_switch hd hp
    have hdel := startQuantum_deleted next (pickedState ctx c rest s)
    obtain ⟨hlive, rfl, v, rfl, hv⟩ := siglongjmp_ok (by
      intro tid hdn
      have := henv next tid (by rw [hdel] at hdn; exact hdn)
      rwa [← hsw.env next] at this) h
    rw [hdel] at hlive
    exact ⟨next, v, rfl, hv, hlive, hsw⟩

theorem siglongjmp_dispatches (V : Variant) {next : ThreadRef} {s : State}
    (hd : s.deleted next = false) (henv : ∀ tid, (s.heap next).env ≠ .selfTerminate tid) :
    ∃ v, siglongjmp V next s = .ok (.dispatched next v, unmaskSignals s) := by
  unfold siglongjmp
  rw [if_neg (by simp [hd])]
  cases he : (s.heap next).env with
  | mainInit => exact ⟨_, rfl⟩
  | entryPoint pc => exact ⟨_, rfl⟩
  | signalHandler => exact ⟨_, rfl⟩
  | selfBlock => exact ⟨_, rfl⟩
  | sleepCall => exact ⟨_, rfl⟩
  | selfTerminate tid => exact (henv tid he).elim

/-- A switch that picks a deleted record gets no further than the jump. -/
theorem switchThread_deleted {remains : ThreadRef → Thread → Thread} (ctx : Context)
    {s : State} {c next : ThreadRef} {rest : List ThreadRef} (hc : s.curRunning = some c)
    (hp : Picks s c next rest) (hn : s.deleted next = true) :
    switchThread (uthreads remains) ctx s = .error .deletedContext := by
  have hpick := picks_nextAvailableReady ctx hc hp
  obtain ⟨rest', _, hstate⟩ := nextAvailableReady_picks hc hpick
  have hpick' : ((uthreads remains).nextAvailableReady (yielded ctx c s)).1 = some next := hpick
  have hstate' : ((uthreads remains).nextAvailableReady (yielded ctx c s)).2 =
      pickedState ctx c rest' s := hstate
  have hdel : (startQuantum next (pickedState ctx c rest' s)).deleted next = true :=
    (congrFun (startQuantum_deleted next (pickedState ctx c rest' s)) next).trans hn
  rw [switchThread_eq _ _ hc, hpick', hstate']
  simp only [siglongjmp, hdel, if_true]

/-- A switch goes through as soon as the picked record is not a deleted one. -/
theorem switchThread_dispatches {remains : ThreadRef → Thread → Thread} {ctx : Context}
    {s : State} {c next : ThreadRef} {rest : List ThreadRef} (hc : s.curRunning = some c)
    (hd : State.Distinct s) (hp : Picks s c next rest) (hn : s.deleted next = false)
    (henv : ∀ tid, (if next = c then ctx else (s.heap next).env) ≠ .selfTerminate tid) :
    ∃ v t, switchThread (uthreads remains) ctx s = .ok (.dispatched next v, t) := by
  have hpick := picks_nextAvailableReady ctx hc hp
  obtain ⟨rest', hp', hstate⟩ := nextAvailableReady_picks hc hpick
  have hsw : Switch s c ctx next _ := startQuantum_switch hd hp'
  have hdel := startQuantum_deleted next (pickedState ctx c rest' s)
  obtain ⟨v, hv⟩ := siglongjmp_dispatches (uthreads remains)
    (s := startQuantum next (pickedState ctx c rest' s)) (by rw [hdel]; exact hn)
    (by intro tid; rw [← hsw.env next] at henv; exact henv tid)
  have hpick' : ((uthreads remains).nextAvailableReady (yielded ctx c s)).1 = some next := hpick
  have hstate' : ((uthreads remains).nextAvailableReady (yielded ctx c s)).2 =
      pickedState ctx c rest' s := hstate
  refine ⟨v, unmaskSignals (startQuantum next (pickedState ctx c rest' s)), ?_⟩
  rw [switchThread_eq _ _ hc, hpick', hstate']
  exact hv

end SwitchSemantics
