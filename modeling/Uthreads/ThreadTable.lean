import Uthreads.QuantumAccounting
import Uthreads.CallContract

/-! # The thread table

The counter, the table and the identifiers agree in every reachable state. So
`uthread_spawn` takes the smallest free identifier whatever the history was, and no access
but the one at process exit leaves the table. -/
namespace ThreadTable

open ThreadLibrary SwitchSemantics CallEffects EventRuns ThreadInvariant QuantumAccounting
  CallContract

variable {remains : ThreadRef → Thread → Thread} {s t : State} {c : ThreadRef} {e : Event}
  {tr : List (Event × Outcome)}

def CellsInUse (s : State) : Finset (Fin maxThreadNum) :=
  Finset.univ.filter fun i => s.allThreads i ≠ none

/-- The calls that `uthread_spawn` refuses. -/
def Refuses (s : State) (entryPoint : Option ℕ) : Prop :=
  entryPoint = none ∨ ∀ i, s.allThreads i ≠ none

/-- `t` is `s` with a new thread in cell `i` and at the end of the queue. -/
structure FillsCell (s : State) (i : Fin maxThreadNum) (t : State) : Prop where
  table : t.allThreads = Function.update s.allThreads i (some s.nextRef)
  fresh : ¬ s.Live s.nextRef
  id : (t.heap s.nextRef).id = (i : ℕ)
  status : (t.heap s.nextRef).status = .ready
  awake : (t.heap s.nextRef).isSleep = false
  quantum : (t.heap s.nextRef).quantum = 0
  queue : t.readyQueue = s.readyQueue ++ [s.nextRef]
  one_entry : t.readyQueue.count s.nextRef = 1
  others : ∀ r, r ≠ s.nextRef → t.heap r = s.heap r

theorem fillsCell_spawned (h : Consistent s) (i : Fin maxThreadNum) (pc : ℕ) :
    FillsCell s i (unmaskSignals (spawned i pc s)) := by
  obtain ⟨hdead, _, hunqueued⟩ := h.fresh
  have hrecord : (unmaskSignals (spawned i pc s)).heap s.nextRef = spawnedThread i pc :=
    spawned_self
  have hqueue : (unmaskSignals (spawned i pc s)).readyQueue = s.readyQueue ++ [s.nextRef] := rfl
  constructor
  case table => rfl
  case fresh => exact hdead
  case id => rw [hrecord]; rfl
  case status => rw [hrecord]; rfl
  case awake => rw [hrecord]; rfl
  case quantum => rw [hrecord]; rfl
  case queue => exact hqueue
  case one_entry =>
    rw [hqueue, List.count_append, List.count_eq_zero.mpr hunqueued, List.count_singleton_self]
  case others => intro r hr; exact spawned_of_ne hr

theorem spawn_refused (remains : ThreadRef → Thread → Thread) (h : Table s)
    {entryPoint : Option ℕ} (hr : Refuses s entryPoint) :
    ∃ err, step (uthreads remains) s (.call (.spawn entryPoint)) = .ok (.failed err, s) := by
  have hcheck : ∃ err, spawnCheck entryPoint s = .inl err := by
    by_cases hfull : maxThreadNum ≤ count s
    · exact ⟨.maxNumber, if_pos hfull⟩
    · rcases hr with rfl | hall
      · exact ⟨.nullEntryPoint, if_neg hfull⟩
      · exact (hfull (h.count_full.mpr hall)).elim
  obtain ⟨err, hcheck⟩ := hcheck
  refine ⟨err, ?_⟩
  simp only [step, request, uthreadSpawn_refused hcheck, ok_bind, pure_ok]

theorem spawn_accepted (remains : ThreadRef → Thread → Thread) (h : Consistent s)
    {entryPoint : Option ℕ} (hr : ¬ Refuses s entryPoint) :
    ∃ i t, FirstFree s i ∧ FillsCell s i t ∧
      step (uthreads remains) s (.call (.spawn entryPoint)) = .ok (.returned (i : ℕ), t) := by
  cases entryPoint with
  | none => exact (hr (Or.inl rfl)).elim
  | some pc =>
    have hroom : count s < maxThreadNum := by
      apply not_le.mp
      intro hfull
      exact hr (Or.inr (h.count_full.mp hfull))
    obtain ⟨i, hfree, hid⟩ := h.findId_room hroom
    refine ⟨i, _, hfree, fillsCell_spawned h i pc, ?_⟩
    simp only [step, request, uthreadSpawn_ok hroom hid, ok_bind, pure_ok]

/-- Table, counter and identifiers agree, and what that means for the next spawn. -/
theorem table_and_spawn (h : Runs remains tr s) :
    s.countReady = ((CellsInUse s).card : ℤ) ∧ s.allThreads 0 = some 0 ∧
      (∀ i r, s.allThreads i = some r → (s.heap r).id = (i : ℕ)) ∧
      ∀ entryPoint, ∃ o t,
        step (uthreads remains) s (.call (.spawn entryPoint)) = .ok (o, t) ∧
        (valueOf o = some (-1) ↔ Refuses s entryPoint) ∧
        (¬ Refuses s entryPoint →
          ∃ i, FirstFree s i ∧ o = .returned (i : ℕ) ∧ FillsCell s i t) := by
  have hi := reachable_invariant h
  refine ⟨hi.count_cells, (reachable_accounts h).main, hi.cell_id, ?_⟩
  intro entryPoint
  by_cases hr : Refuses s entryPoint
  · obtain ⟨err, hs⟩ := spawn_refused remains hi.toTable hr
    exact ⟨_, s, hs, iff_of_true rfl hr, fun hn => (hn hr).elim⟩
  · obtain ⟨i, t, hfree, hfills, hs⟩ := spawn_accepted remains hi.toConsistent hr
    have hvalue : valueOf (.returned ((i : ℕ) : ℤ)) ≠ some (-1) := by
      intro hv
      have := Option.some.inj hv
      omega
    exact ⟨_, t, hs, iff_of_false hvalue hr, fun _ => ⟨i, hfree, rfl, hfills⟩⟩

/-- Identifiers 2 and 1 were released, in this order; the next spawn takes 1. -/
theorem table_and_spawn_released :
    let s := after freedRecord initial [.call (.spawn (some 7)), .call (.spawn (some 8)),
      .call (.spawn (some 9)), .call (.terminate 2), .call (.terminate 1)]
    FirstFree s 1 ∧ s.countReady = ((CellsInUse s).card : ℤ) ∧
      ∃ o t, step (uthreads freedRecord) s (.call (.spawn (some 5))) = .ok (o, t) ∧
        ∃ i, FirstFree s i ∧ o = .returned (i : ℕ) ∧ FillsCell s i t := by
  intro s
  have h := table_and_spawn (runs_history freedRecord [.call (.spawn (some 7)),
    .call (.spawn (some 8)), .call (.spawn (some 9)), .call (.terminate 2),
    .call (.terminate 1)] (by decide +kernel))
  have hfree : s.allThreads 1 = none := by decide +kernel
  have hfirst : FirstFree s 1 := by
    refine ⟨by decide, hfree, ?_⟩
    intro j hj hj0
    have hlt : (j : ℕ) < 1 := hj
    exact (hj0 (Fin.ext (Nat.lt_one_iff.mp hlt))).elim
  have haccepted : ¬ Refuses s (some 5) := by
    rintro (hnull | hfull)
    · cases hnull
    · exact hfull 1 hfree
  obtain ⟨o, t, hs, _, hspawn⟩ := h.2.2.2 (some 5)
  exact ⟨hfirst, h.1, o, t, hs, hspawn haccepted⟩

/-- No index left `allThreads`, and no null cell was dereferenced. -/
def AccessesInRange {α : Type} (result : Except Fault α) : Prop :=
  (∀ index, result ≠ .error (.outOfRange index)) ∧ result ≠ .error .nullThread

theorem accessesInRange_ok {α : Type} {result : Except Fault α} {a : α} (h : result = .ok a) :
    AccessesInRange result := by
  rw [h]
  simp [AccessesInRange]

theorem accessesInRange_error {α : Type} {result : Except Fault α} {f : Fault}
    (h : result = .error f) (hindex : ∀ index, f ≠ .outOfRange index) (hnull : f ≠ .nullThread) :
    AccessesInRange result := by
  rw [h]
  simp [AccessesInRange, hindex, hnull]

theorem init_accesses_in_range (q : ℤ) (s : State) : AccessesInRange (uthreadInit q s) := by
  by_cases hq : q ≤ 0
  · apply accessesInRange_ok
    simp only [uthreadInit, if_pos hq, pure_ok]
    rfl
  · -- the identifier of main is the only index, and it is a constant
    apply accessesInRange_ok
    simp only [uthreadInit, if_neg hq, initMainThread, State.newThread, Function.update_self]
    rfl

/-- The third exit of the pick loop is always open, and cell 0 is never empty. -/
theorem exists_picks (h : Table s) (c : ThreadRef) : ∃ next rest, Picks s c next rest := by
  cases hsweep : LazyQueue.sweep (takes (statusAtPick s c) (surplusOf s.heap s.readyQueue))
      (queueAtPick s c) with
  | some picked => exact ⟨picked.1, picked.2, .entry hsweep⟩
  | none =>
    by_cases hnil : queueAtPick s c = []
    · obtain ⟨m, hm⟩ := h.main_cell
      exact ⟨m, [], .main hnil hm⟩
    · exact ⟨c, [], .current hnil hsweep⟩

theorem switch_accesses_in_range {ctx : Context} (h : Consistent s) (hc : s.curRunning = some c)
    (henv : ∀ r tid, s.deleted r = false →
      (if r = c then ctx else (s.heap r).env) ≠ .selfTerminate tid) :
    AccessesInRange (switchThread (uthreads remains) ctx s) := by
  obtain ⟨next, rest, hp⟩ := exists_picks h.toTable c
  cases hn : s.deleted next with
  | true =>
    apply accessesInRange_error (switchThread_deleted ctx hc hp hn)
    · simp
    · simp
  | false =>
    obtain ⟨v, t, hs⟩ : ∃ v t, switchThread (uthreads remains) ctx s =
        .ok (.dispatched next v, t) :=
      switchThread_dispatches hc h.distinct hp hn (fun tid => henv next tid hn)
    exact accessesInRange_ok hs

/-- Every access is in range, whatever the arguments are, except that the exit of the process
writes `allThreads[MAX_THREAD_NUM]`. -/
theorem table_accesses_in_range_iff (h : Runs remains tr s) :
    (∀ q, AccessesInRange (uthreadInit q s)) ∧
      ∀ e, AccessesInRange (step (uthreads remains) s e) ↔
        e ≠ .call (.terminate mainThreadTid) := by
  have hi := reachable_invariant h
  obtain ⟨c, hc, hlive⟩ := hi.current_live
  refine ⟨fun q => init_accesses_in_range q s, ?_⟩
  intro e
  constructor
  · rintro hsafe rfl
    obtain ⟨m, hm⟩ := hi.main_cell
    exact hsafe.1 100 (step_terminate_main hm)
  · intro hne
    rcases step_cases remains hi.toTable hc hlive e with
      ⟨_, _, _, _, hs, _⟩ | ⟨ctx, s', hs, he⟩ | ⟨f, hs, hf⟩
    · exact accessesInRange_ok hs
    · obtain ⟨hcons, _, _, _, henv⟩ := enters_consistent hi he
      rw [hs]
      exact switch_accesses_in_range hcons (enters_curRunning he) henv
    · cases hf with
      | exits => exact (hne rfl).elim
      | held =>
        apply accessesInRange_error hs
        · simp
        · simp

theorem table_accesses_in_range_iff_self_terminate :
    let s := after freedRecord initial [.call (.spawn (some 7)), .timer, .call (.terminate 1)]
    ∀ e, AccessesInRange (step (uthreads freedRecord) s e) ↔
      e ≠ .call (.terminate mainThreadTid) :=
  (table_accesses_in_range_iff (runs_history freedRecord
    [.call (.spawn (some 7)), .timer, .call (.terminate 1)] (by decide +kernel))).2

/-- The process exit right after `uthread_init`, with main as the only thread. -/
theorem exit_writes_past_table :
    Runs freedRecord [] initial ∧
      step (uthreads freedRecord) initial (.call (.terminate 0)) =
        .error (.outOfRange maxThreadNum) ∧
      ¬ AccessesInRange (step (uthreads freedRecord) initial (.call (.terminate 0))) := by
  have hs : step (uthreads freedRecord) initial (.call (.terminate 0)) =
      .error (.outOfRange 100) := step_terminate_main rfl
  exact ⟨.nil initial, hs, fun hsafe => hsafe.1 100 hs⟩

end ThreadTable
