import Uthreads.Progress
import Uthreads.StarvationFreedom
import Uthreads.QuantumAccounting
import Uthreads.Commutation

/-! # The random test

`RandomThreadTesting` of the test suite: main spawns, terminates, blocks and resumes threads
at random while they spin, and the timer interrupts at any time. A draw of the generator is
an argument of the event, and an expectation that fails is counted. -/
namespace RandomOperations

open ThreadLibrary SwitchSemantics CallEffects EventRuns ThreadInvariant ThreadConservation
  Progress StarvationFreedom QuantumAccounting Commutation LazyQueue

/-- The library under test and the members of the test object. `activeThreads` is in the
order of the set. -/
structure RandomThreadTesting where
  lib : State
  activeThreads : List ℤ
  failures : ℕ

inductive Stop where
  | fault (f : Fault)
  | assertion
  | notMain
  deriving DecidableEq, Repr

/-- What a call that came back returned. -/
def answer : Outcome → Option ℤ
  | .returned v => some v
  | .failed _ => some (-1)
  | _ => none

/-- A draw beyond the set is brought into its range, as the distribution does. -/
def getRandomActiveThread (draw : ℕ) (t : RandomThreadTesting) : Option ℤ :=
  t.activeThreads[draw % t.activeThreads.length]?

def emplace (tid : ℤ) (tids : List ℤ) : List ℤ :=
  if tid ∈ tids then tids else tids.orderedInsert (· ≤ ·) tid

/-- A call, the expectation about its result, and what becomes of the set. -/
def expectCall (V : Variant) (t : RandomThreadTesting) (call : Call) (expected : ℤ → Bool)
    (update : ℤ → List ℤ) : Except Stop (Option (Event × Outcome) × RandomThreadTesting) :=
  match step V t.lib (.call call) with
  | .error f => .error (.fault f)
  | .ok (o, s) =>
    match answer o with
    | none => .ok (some (.call call, o), { t with lib := s })
    | some v =>
      .ok (some (.call call, o), ⟨s, update v, t.failures + if expected v then 0 else 1⟩)

def doOperation (V : Variant) (func option draw : ℕ) (t : RandomThreadTesting) :
    Except Stop (Option (Event × Outcome) × RandomThreadTesting) :=
  if t.activeThreads = [] ∨ (option = 1 ∧ t.activeThreads.length < maxThreadNum - 1) then
    expectCall V t (.spawn (some func)) (fun tid => tid > 0) fun tid => emplace tid t.activeThreads
  else
    match getRandomActiveThread draw t with
    | none => .error .assertion
    | some tid =>
      if option = 3 then
        expectCall V t (.terminate tid) (fun v => v = 0) fun _ => t.activeThreads.erase tid
      else if option = 4 then
        expectCall V t (.block tid) (fun v => v = 0) fun _ => t.activeThreads
      else if option = 5 then
        expectCall V t (.resume tid) (fun v => v = 0) fun _ => t.activeThreads
      else .ok (none, t)

inductive TestEvent where
  | timer
  | operation (option draw : ℕ)
  | finish
  deriving DecidableEq, Repr

def MainRuns (s : State) : Prop := s.curRunning = s.allThreads 0

instance (s : State) : Decidable (MainRuns s) := inferInstanceAs (Decidable (_ = _))

/-- The operations are code of main; the other threads do nothing. The last line of the test
expects that `uthread_terminate(0)` ends the process, so coming back is a failure. -/
def testStep (V : Variant) (func : ℕ) (t : RandomThreadTesting) :
    TestEvent → Except Stop (Option (Event × Outcome) × RandomThreadTesting)
  | .timer =>
    match step V t.lib .timer with
    | .error f => .error (.fault f)
    | .ok (o, s) => .ok (some (.timer, o), { t with lib := s })
  | .operation option draw =>
    if MainRuns t.lib then doOperation V func option draw t else .error .notMain
  | .finish =>
    if MainRuns t.lib then
      match step V t.lib (.call (.terminate mainThreadTid)) with
      | .error f => .error (.fault f)
      | .ok (o, s) =>
        .ok (some (.call (.terminate mainThreadTid), o),
          { t with lib := s, failures := t.failures + 1 })
    else .error .notMain

/-- After the constructor, with a quantum of 1. -/
def start : RandomThreadTesting := ⟨initial, [], 0⟩

variable {remains : ThreadRef → Thread → Thread} {V : Variant} {func : ℕ} {s u : State}
  {t t' : RandomThreadTesting} {e : TestEvent} {x : Option (Event × Outcome)}
  {T : List (TestEvent × Option (Event × Outcome))}

theorem expectCall_step {call : Call} {expected : ℤ → Bool} {update : ℤ → List ℤ}
    (h : expectCall V t call expected update = .ok (x, t')) :
    ∃ o, x = some (.call call, o) ∧ step V t.lib (.call call) = .ok (o, t'.lib) := by
  unfold expectCall at h
  split at h
  · cases h
  · rename_i o s hs
    split at h
    · cases h
      exact ⟨o, rfl, hs⟩
    · cases h
      exact ⟨o, rfl, hs⟩

theorem doOperation_step {option draw : ℕ} (h : doOperation V func option draw t = .ok (x, t')) :
    (x = none ∧ t' = t) ∨
      ∃ call o, x = some (.call call, o) ∧ step V t.lib (.call call) = .ok (o, t'.lib) := by
  have hcall : ∀ {call expected update}, expectCall V t call expected update = .ok (x, t') →
      ∃ call o, x = some (.call call, o) ∧ step V t.lib (.call call) = .ok (o, t'.lib) :=
    fun h => ⟨_, expectCall_step h⟩
  unfold doOperation at h
  split at h
  · exact Or.inr (hcall h)
  · split at h
    · cases h
    · split at h
      · exact Or.inr (hcall h)
      · split at h
        · exact Or.inr (hcall h)
        · split at h
          · exact Or.inr (hcall h)
          · cases h
            exact Or.inl ⟨rfl, rfl⟩

theorem testStep_contains (V : Variant) (func : ℕ) :
    Contains (step V) (testStep V func) RandomThreadTesting.lib Prod.snd := by
  intro t e x t' h
  cases e with
  | timer =>
    simp only [testStep] at h
    split at h
    · cases h
    · rename_i hs
      cases h
      exact ⟨fun hx => (by cases hx), fun y hy => by cases hy; exact hs⟩
  | operation option draw =>
    simp only [testStep] at h
    split at h
    · rcases doOperation_step h with ⟨rfl, rfl⟩ | ⟨call, o, rfl, hs⟩
      · exact ⟨fun _ => rfl, fun y hy => by cases hy⟩
      · exact ⟨fun hx => (by cases hx), fun y hy => by cases hy; exact hs⟩
    · cases h
  | finish =>
    simp only [testStep] at h
    split at h
    · split at h
      · cases h
      · rename_i hs
        cases h
        exact ⟨fun hx => (by cases hx), fun y hy => by cases hy; exact hs⟩
    · cases h

/-- What the operations of the test, and the timer, leave of the library. -/
structure Untroubled (s : State) : Prop where
  invariant : Invariant s
  queue : QueueLive s
  one : OneRuns s
  unmasked : s.masked = false
  awake : ∀ r, s.Live r → (s.heap r).isSleep = false

theorem initial_untroubled : Untroubled initial := by
  refine ⟨initial_invariant, fun r hr => ?_, initial_one_runs, rfl, fun _ _ => rfl⟩
  cases hr

theorem quiet_awake {call : Call} {o : Outcome} (hi : Invariant s)
    (ha : ∀ r, s.Live r → (s.heap r).isSleep = false) (hq : Quiet remains s call o u)
    {r : ThreadRef} (hr : u.Live r) : (u.heap r).isSleep = false := by
  cases hq with
  | idle b => exact ha r hr
  | @spawn pc i hfree =>
    rcases (spawned_live pc hfree r).mp hr with rfl | hr
    · exact congrArg Thread.isSleep spawned_self
    · exact (congrArg Thread.isSleep (spawned_of_ne (hi.ne_fresh hr))).trans (ha r hr)
  | @block tid q =>
    change ((blocked q s).heap r).isSleep = _
    by_cases hrq : r = q
    · subst hrq; rw [blocked_self]; exact ha r hr
    · rw [blocked_of_ne hrq]; exact ha r hr
  | @resume tid q =>
    change ((resumed q s).heap r).isSleep = _
    by_cases hrq : r = q
    · subst hrq; rw [resumed_self]; exact ha r hr
    · rw [resumed_of_ne hrq]; exact ha r hr
  | @terminate i q c hq =>
    obtain ⟨hr, hrq⟩ := (terminated_live hi.toTable remains hq r).mp hr
    have hheap : (terminated remains i q s).heap r = s.heap r := terminated_of_ne hrq
    exact (congrArg Thread.isSleep hheap).trans (ha r hr)

theorem call_untroubled (hn : NeverRunning remains) (h : Untroubled s) {call : Call} {v : ℤ}
    (hs : step (uthreads remains) s (.call call) = .ok (.returned v, u))
    (hk : KeepsOneRunning s (.call call)) (hm : u.masked = false) : Untroubled u := by
  cases step_effect h.invariant hs with
  | quiet hq =>
    exact ⟨step_preserves_invariant h.invariant hs, step_queue_live hn h.invariant h.queue hs,
      (quiet_one_runs_iff h.invariant h.one hq).mpr hk, hm,
      fun r hr => quiet_awake h.invariant h.awake hq hr⟩

theorem timer_untroubled (hn : NeverRunning remains) (h : Untroubled s) {o : Outcome}
    (hs : step (uthreads remains) s .timer = .ok (o, u)) : Untroubled u := by
  cases step_effect h.invariant hs with
  | switch he hd =>
    have hk : KeepsOneRunning s .timer := by
      intro c hc
      obtain ⟨d, hd, hlive, _⟩ := h.one.current
      obtain rfl := Option.some.inj (hc.symm.trans hd)
      exact Or.inl (h.awake c hlive)
    refine ⟨step_preserves_invariant h.invariant hs,
      step_queue_live hn h.invariant h.queue hs,
      (switch_one_runs_iff hn h.invariant h.queue h.one he hd).mpr hk, hd.unmasked, ?_⟩
    intro r hr
    cases he with
    | timer =>
      have hr : s.Live r := by simpa only [State.Live, hd.allThreads] using hr
      rw [(hd.clock r hr).1, tick]
      split
      · rfl
      · exact h.awake r hr

/-- A call about a thread that is neither main nor running. -/
theorem operation_untroubled (hn : NeverRunning remains) (h : Untroubled s) (op : Operation)
    {i : Fin maxThreadNum} {r : ThreadRef} (hr : s.allThreads i = some r) (h0 : i ≠ 0)
    (hcur : s.curRunning ≠ some r) :
    Untroubled (unmaskSignals (op.effect remains i r s)) := by
  refine call_untroubled hn h (operation_step remains op h.invariant hr h0 hcur) ?_ rfl
  cases op with
  | resume =>
    intro c hc hat
    have hrc : r = c := At.unique ⟨i, rfl, hr⟩ hat
    exact hcur (hrc ▸ hc)
  | block => trivial
  | terminate => trivial

/-- No expectation has failed, and the set is right. -/
structure Passing (t : RandomThreadTesting) : Prop extends Untroubled t.lib where
  nodup : t.activeThreads.Nodup
  active : ∀ tid, tid ∈ t.activeThreads ↔ tid ≠ mainThreadTid ∧ ∃ r, t.lib.At tid r
  failures : t.failures = 0

theorem start_passing : Passing start := by
  refine ⟨initial_untroubled, List.nodup_nil, fun tid => ?_, rfl⟩
  refine iff_of_false (List.not_mem_nil) ?_
  rintro ⟨h0, r, i, rfl, hr⟩
  by_cases hi : i = 0
  · subst hi
    exact h0 rfl
  · change Function.update (fun _ => none) 0 (some 0) i = some r at hr
    rw [Function.update_of_ne hi] at hr
    cases hr

theorem expectCall_ok {call : Call} {v : ℤ} {expected : ℤ → Bool} {update : ℤ → List ℤ}
    (hs : step V t.lib (.call call) = .ok (.returned v, u)) (hv : expected v = true) :
    expectCall V t call expected update =
      .ok (some (.call call, .returned v), ⟨u, update v, t.failures⟩) := by
  simp only [expectCall, hs, answer, hv, if_true, Nat.add_zero]

theorem active_other (h : Passing t) (hm : MainRuns t.lib) {tid : ℤ}
    (ht : tid ∈ t.activeThreads) :
    ∃ (i : Fin maxThreadNum) (r : ThreadRef), (i : ℕ) = tid ∧ i ≠ 0 ∧
      t.lib.allThreads i = some r ∧ t.lib.curRunning ≠ some r := by
  obtain ⟨h0, r, i, rfl, hr⟩ := (h.active tid).mp ht
  have hi : i ≠ 0 := by
    rintro rfl
    exact h0 rfl
  refine ⟨i, r, rfl, hi, hr, fun hcur => ?_⟩
  rw [hm] at hcur
  exact hi (h.invariant.distinct i 0 r hr hcur)

theorem exists_at {tid : ℤ} : (∃ r, s.At tid r) ↔
    ∃ i : Fin maxThreadNum, ((i : ℕ) : ℤ) = tid ∧ s.allThreads i ≠ none := by
  simp only [State.At, Option.ne_none_iff_exists', exists_comm (α := ThreadRef), exists_and_left]

/-- As long as the set is not full there is a free identifier. -/
theorem room (h : Passing t) (hlen : t.activeThreads.length < maxThreadNum - 1) :
    count t.lib < maxThreadNum := by
  apply not_le.mp
  intro hfull
  have hall := h.invariant.count_full.mp hfull
  let ids : List (Fin maxThreadNum) := (List.finRange maxThreadNum).filter (· ≠ 0)
  let used : List ℤ := ids.map fun (i : Fin maxThreadNum) => ((i : ℕ) : ℤ)
  have hnodup : used.Nodup := by
    refine List.Nodup.map ?_ ((List.nodup_finRange maxThreadNum).filter _)
    exact fun i j hij => Fin.ext (Int.ofNat.inj hij)
  have hsubset : used ⊆ t.activeThreads := by
    intro tid htid
    obtain ⟨i, hi, rfl⟩ := List.mem_map.mp htid
    have hi0 : i ≠ 0 := by simpa using (List.mem_filter.mp hi).2
    exact (h.active _).mpr
      ⟨fun h0 => hi0 (Fin.ext (by simpa using h0)), exists_at.mpr ⟨i, rfl, hall i⟩⟩
  have hle := (List.subperm_of_subset hnodup hsubset).length_le
  have hused : used.length = maxThreadNum - 1 := by decide +kernel
  omega

theorem mem_emplace {tid id : ℤ} {tids : List ℤ} :
    id ∈ emplace tid tids ↔ id = tid ∨ id ∈ tids := by
  unfold emplace
  split
  · rename_i hmem
    constructor
    · exact Or.inr
    · rintro (rfl | h)
      · exact hmem
      · exact h
  · simp

theorem emplace_nodup {tid : ℤ} {tids : List ℤ} (h : tids.Nodup) : (emplace tid tids).Nodup := by
  unfold emplace
  split
  · exact h
  · rename_i hmem
    exact (List.perm_orderedInsert _ _ _).nodup_iff.mpr (List.nodup_cons.mpr ⟨hmem, h⟩)

theorem spawn_passing (hn : NeverRunning remains) (h : Passing t)
    (hlen : t.activeThreads.length < maxThreadNum - 1) (func : ℕ) :
    ∃ x t', expectCall (uthreads remains) t (.spawn (some func)) (fun tid => tid > 0)
      (fun tid => emplace tid t.activeThreads) = .ok (x, t') ∧ Passing t' := by
  have hroom := room h hlen
  obtain ⟨i, hfree, hid⟩ := h.invariant.findId_room hroom
  have hs : step (uthreads remains) t.lib (.call (.spawn (some func))) =
      .ok (.returned (i : ℕ), unmaskSignals (spawned i func t.lib)) := by
    simp only [step, request, uthreadSpawn_ok hroom hid, ok_bind, pure_ok]
  have hpos : ((i : ℕ) : ℤ) > 0 := by
    have : (i : ℕ) ≠ 0 := fun h0 => hfree.1 (Fin.ext h0)
    omega
  refine ⟨_, _, expectCall_ok hs (decide_eq_true hpos),
    ⟨call_untroubled hn h.toUntroubled hs trivial rfl, emplace_nodup h.nodup, fun tid => ?_,
      h.failures⟩⟩
  rw [mem_emplace, h.active, exists_at, exists_at]
  constructor
  · rintro (rfl | ⟨h0, j, rfl, hj⟩)
    · refine ⟨ne_of_gt hpos, i, rfl, ?_⟩
      change (spawned i func t.lib).allThreads i ≠ none
      rw [spawned_cell]
      simp
    · refine ⟨h0, j, rfl, ?_⟩
      have hji : j ≠ i := by rintro rfl; exact hj hfree.2.1
      change (spawned i func t.lib).allThreads j ≠ none
      rw [spawned_cell_of_ne func t.lib hji]
      exact hj
  · rintro ⟨h0, j, rfl, hj⟩
    by_cases hji : j = i
    · exact Or.inl (by rw [hji])
    · refine Or.inr ⟨h0, j, rfl, ?_⟩
      change (spawned i func t.lib).allThreads j ≠ none at hj
      rwa [spawned_cell_of_ne func t.lib hji] at hj

/-- What an operation on a thread of the set does to the test. -/
theorem call_passing (hn : NeverRunning remains) (h : Passing t) (hm : MainRuns t.lib)
    (op : Operation) {tid : ℤ} (ht : tid ∈ t.activeThreads) (update : List ℤ)
    (hupdate : update = if op = .terminate then t.activeThreads.erase tid else t.activeThreads) :
    ∃ x t', expectCall (uthreads remains) t (op.call tid) (fun v => v = 0) (fun _ => update) =
      .ok (x, t') ∧ Passing t' := by
  obtain ⟨i, r, rfl, h0, hr, hcur⟩ := active_other h hm ht
  have hs := operation_step remains op h.invariant hr h0 hcur
  refine ⟨_, _, expectCall_ok hs rfl,
    ⟨operation_untroubled hn h.toUntroubled op hr h0 hcur, ?_, fun tid => ?_, h.failures⟩⟩
  · rw [hupdate]
    split
    · exact h.nodup.erase _
    · exact h.nodup
  · change tid ∈ update ↔ tid ≠ mainThreadTid ∧ ∃ q, (op.effect remains i r t.lib).At tid q
    have hcells := effect_allThreads remains (i := i) (r := r) (s := t.lib) op
    by_cases hop : op = .terminate
    · rw [hupdate, if_pos hop, h.nodup.mem_erase_iff, h.active, exists_at, exists_at, hcells,
        if_pos hop]
      constructor
      · rintro ⟨hne, h0, j, rfl, hj⟩
        have hji : j ≠ i := by rintro rfl; exact hne rfl
        exact ⟨h0, j, rfl, by rwa [Function.update_of_ne hji]⟩
      · rintro ⟨h0, j, rfl, hj⟩
        have hji : j ≠ i := by rintro rfl; exact hj (Function.update_self ..)
        rw [Function.update_of_ne hji] at hj
        exact ⟨fun heq => hji (Fin.ext (Int.ofNat.inj heq)), h0, j, rfl, hj⟩
    · rw [hupdate, if_neg hop, h.active, exists_at, exists_at, hcells, if_neg hop]

theorem operation_passing (hn : NeverRunning remains) (h : Passing t) (hm : MainRuns t.lib)
    (func option draw : ℕ) :
    ∃ x t', doOperation (uthreads remains) func option draw t = .ok (x, t') ∧ Passing t' := by
  by_cases hspawn : t.activeThreads = [] ∨
      (option = 1 ∧ t.activeThreads.length < maxThreadNum - 1)
  · have hlen : t.activeThreads.length < maxThreadNum - 1 := by
      rcases hspawn with hnil | ⟨_, hlen⟩
      · rw [hnil]
        decide
      · exact hlen
    simp only [doOperation, if_pos hspawn]
    exact spawn_passing hn h hlen func
  · have hpos : 0 < t.activeThreads.length :=
      List.length_pos_iff.mpr fun hnil => hspawn (Or.inl hnil)
    have hlt : draw % t.activeThreads.length < t.activeThreads.length := Nat.mod_lt _ hpos
    obtain ⟨tid, htid⟩ : ∃ tid, getRandomActiveThread draw t = some tid :=
      ⟨_, List.getElem?_eq_getElem hlt⟩
    have hmem : tid ∈ t.activeThreads := List.mem_of_getElem? htid
    simp only [doOperation, if_neg hspawn, htid]
    by_cases h3 : option = 3
    · rw [if_pos h3]
      exact call_passing hn h hm .terminate hmem _ (if_pos rfl).symm
    · rw [if_neg h3]
      by_cases h4 : option = 4
      · rw [if_pos h4]
        exact call_passing hn h hm .block hmem _ (if_neg (by simp)).symm
      · rw [if_neg h4]
        by_cases h5 : option = 5
        · rw [if_pos h5]
          exact call_passing hn h hm .resume hmem _ (if_neg (by simp)).symm
        · rw [if_neg h5]
          exact ⟨none, t, rfl, h⟩

theorem timer_passing (hn : NeverRunning remains) (h : Passing t) (func : ℕ) :
    ∃ x t', testStep (uthreads remains) func t .timer = .ok (x, t') ∧ Passing t' := by
  obtain ⟨o, s, hs⟩ := accepts (e := .timer) hn h.invariant h.queue h.one (by simp)
    fun _ => h.unmasked
  refine ⟨some (.timer, o), { t with lib := s }, by simp only [testStep, hs],
    ⟨timer_untroubled hn h.toUntroubled hs, h.nodup, fun tid => ?_, h.failures⟩⟩
  rw [h.active, exists_at, exists_at]
  have hcells : s.allThreads = t.lib.allThreads := by
    cases step_effect h.invariant hs with
    | switch he hd =>
      cases he with
      | timer => exact hd.allThreads
  rw [hcells]

/-- The exit of the process writes behind the table. -/
theorem finish_faults (h : Passing t) (hm : MainRuns t.lib) (func : ℕ) :
    testStep (uthreads remains) func t .finish = .error (.fault (.outOfRange maxThreadNum)) := by
  obtain ⟨m, hcell⟩ := h.invariant.main_cell
  simp only [testStep, if_pos hm, step_terminate_main hcell]

theorem step_passing (hn : NeverRunning remains) (h : Passing t)
    (hs : testStep (uthreads remains) func t e = .ok (x, t')) : Passing t' := by
  cases e with
  | timer =>
    obtain ⟨y, u, hu, hp⟩ := timer_passing hn h func
    cases hs.symm.trans hu
    exact hp
  | operation option draw =>
    simp only [testStep] at hs
    split at hs
    · rename_i hm
      obtain ⟨y, u, hu, hp⟩ := operation_passing hn h hm func option draw
      cases hs.symm.trans hu
      exact hp
    · cases hs
  | finish =>
    by_cases hm : MainRuns t.lib
    · cases (finish_faults h hm func).symm.trans hs
    · simp only [testStep, if_neg hm] at hs
      cases hs

theorem run_passing (hn : NeverRunning remains)
    (h : Exec (testStep (uthreads remains) func) start T t) : Passing t :=
  h.invariant start_passing fun _ _ _ _ hp hs => step_passing hn hp hs

/-- Main waits in the queue while it does not run. -/
theorem main_waiting (h : Passing t) (hm : ¬ MainRuns t.lib) {m : ThreadRef}
    (hcell : t.lib.allThreads 0 = some m) : Waiting t.lib m := by
  have hlive : t.lib.Live m := ⟨0, hcell⟩
  have hcur : t.lib.curRunning ≠ some m := fun hc => hm (hc.trans hcell.symm)
  have hacc := h.one.others m hlive hcur
  have hawake := h.awake m hlive
  rcases hacc.found with hb | hsleep | ⟨hready, hq⟩
  · exact (h.invariant.main_unblocked m hcell hb).elim
  · rw [hawake] at hsleep
    cases hsleep
  · exact ⟨hlive, hready, hawake, hq, hcur⟩

/-- While main waits, each signal brings it nearer to the front. -/
theorem main_nears (hn : NeverRunning remains) (h : Passing t) {m : ThreadRef}
    (hcell : t.lib.allThreads 0 = some m)
    (hrun : Exec (testStep (uthreads remains) func) t T t') (htimers : ∀ x ∈ T, x.1 = .timer)
    (haway : ∀ pre post u, T = pre ++ post →
      Exec (testStep (uthreads remains) func) t pre u → ¬ MainRuns u.lib) :
    T.length ≤ lastIndex m t.lib.readyQueue := by
  induction hrun with
  | nil => exact Nat.zero_le _
  | @cons t e x w T t' hs _ ih =>
    obtain rfl : e = .timer := htimers _ List.mem_cons_self
    have hwait := main_waiting h (haway [] _ t rfl (.nil t)) hcell
    have hw := step_passing hn h hs
    have hwaway : ¬ MainRuns w.lib := haway [(.timer, x)] T w rfl (.single hs)
    have hstep : ∃ o, step (uthreads remains) t.lib .timer = .ok (o, w.lib) := by
      simp only [testStep] at hs
      split at hs
      · cases hs
      · rename_i hlib
        cases hs
        exact ⟨_, hlib⟩
    obtain ⟨o, hstep⟩ := hstep
    have hmain : w.lib.allThreads 0 = some m ∧ ∃ next v, o = .dispatched next v ∧
        w.lib.curRunning = some next := by
      cases step_effect h.invariant hstep with
      | switch he hd =>
        cases he with
        | timer => exact ⟨(congrFun hd.allThreads 0).trans hcell, _, _, rfl, hd.curRunning⟩
    obtain ⟨hcellw, next, v, rfl, hcur⟩ := hmain
    rcases dispatch_step_waiting h.invariant hwait hstep with rfl | ⟨_, hlt⟩
    · exact (hwaway (hcur.trans hcellw.symm)).elim
    · have hrest := ih hw hcellw (fun y hy => htimers y (List.mem_cons_of_mem _ hy))
        fun pre post u he hu => haway ((.timer, x) :: pre) post u (by rw [he]; rfl) (.cons hs hu)
      exact (Nat.succ_le_of_lt (Nat.lt_of_le_of_lt hrest hlt))

end RandomOperations
