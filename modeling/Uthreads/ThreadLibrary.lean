import Mathlib.Algebra.Group.Int.Defs
import Mathlib.Algebra.GroupWithZero.Nat
import Mathlib.Data.Finset.Basic
import Mathlib.Data.List.FinRange
import Mathlib.Data.Fin.Basic
import Mathlib.Tactic.Common

/-! # The uthreads library

The data and the functions of `uthreads.cpp`. Records live in a heap of fresh
addresses; a deleted record keeps an address but reads as arbitrary data.
A call that ends in `switchThread` hands over a context: the point of the program
where it goes on once the thread is dispatched again. Timer expiry is an event; the timer
itself and the memory of the stacks are added in modules of their own. -/
namespace ThreadLibrary

abbrev maxThreadNum : ℕ := 100

instance : NeZero maxThreadNum := ⟨by decide⟩

abbrev mainThreadTid : ℤ := 0

/-- Address of a `Thread` record. Addresses are not reused. -/
abbrev ThreadRef := ℕ

inductive Status where
  | ready
  | running
  | blocked
  deriving DecidableEq, Repr

/-- The contents of `env`: where a jump to the saved context continues. -/
inductive Context where
  | mainInit
  | entryPoint (pc : ℕ)
  | signalHandler
  | selfBlock
  | sleepCall
  | selfTerminate (tid : ℤ)
  deriving DecidableEq, Repr

structure Thread where
  id : ℤ
  status : Status
  env : Context
  duplicate : ℤ
  quantum : ℤ
  isSleep : Bool
  waitingTime : ℤ
  deriving DecidableEq, Repr

/-- The globals, the members of the scheduler object, the signal mask and the heap.
`deleted` is a ghost: no branch of the library reads it. -/
@[ext] structure State where
  heap : ThreadRef → Thread
  nextRef : ThreadRef
  deleted : ThreadRef → Bool
  blockedID : Finset ThreadRef
  readyQueue : List ThreadRef
  allThreads : Fin maxThreadNum → Option ThreadRef
  countReady : ℤ
  curRunning : Option ThreadRef
  totalQuantum : ℤ
  masked : Bool

/-- Steps the language leaves undefined, and a timer event while SIGVTALRM is blocked. -/
inductive Fault where
  | outOfRange (index : ℤ)
  | nullThread
  | deletedContext
  | signalMasked
  deriving DecidableEq, Repr

inductive CallError where
  | tidOutOfRange
  | emptyCell
  | blockMain
  | quantumNotPositive
  | maxNumber
  | nullEntryPoint
  | sleepNotPositive
  | mainSleeps
  deriving DecidableEq, Repr

/-- The line that a failing call prints to `stderr`. -/
def CallError.message (e : CallError) : String :=
  "thread library error: " ++
    match e with
    | .tidOutOfRange => "the thread id is invalid (it needs to be  between 0 to 99)\n"
    | .emptyCell => "the thread id's cell is empty in the threadsArr\n"
    | .blockMain => "it's illegal to block the main thread\n"
    | .quantumNotPositive => "quantum_usecs must be positive\n"
    | .maxNumber => "reached the max number\n"
    | .nullEntryPoint => "spawn can't get null entry point\n"
    | .sleepNotPositive => "the num_quantums need to be non negative\n"
    | .mainSleeps => "main thread can't sleep\n"

/-- How an event ends: the call returned to its caller, it failed with -1 and a message,
or `next` was dispatched, with the value that the pending call of `next` returns. -/
inductive Outcome where
  | returned (value : ℤ)
  | failed (error : CallError)
  | dispatched (next : ThreadRef) (value : Option ℤ)
  | exited
  deriving DecidableEq, Repr

/-- A call either comes back or ends in `switchThread`. -/
inductive Control where
  | returns (outcome : Outcome) (s : State)
  | switches (ctx : Context) (s : State)

/-- The functions in which two schedulers of this family may differ, and what a
deleted record reads as, given its address and last contents. -/
structure Variant where
  nextAvailableReady : State → Option ThreadRef × State
  blockThread : ℤ → State → Except Fault (Bool × State)
  remains : ThreadRef → Thread → Thread

def State.modifyThread (s : State) (r : ThreadRef) (f : Thread → Thread) : State :=
  { s with heap := Function.update s.heap r (f (s.heap r)) }

def State.cell (s : State) (i : ℤ) : Except Fault (Option ThreadRef) :=
  if h : 0 ≤ i ∧ i < maxThreadNum then .ok (s.allThreads ⟨i.toNat, by omega⟩)
  else .error (.outOfRange i)

def State.setCell (s : State) (i : ℤ) (c : Option ThreadRef) : Except Fault State :=
  if h : 0 ≤ i ∧ i < maxThreadNum then
    .ok { s with allThreads := Function.update s.allThreads ⟨i.toNat, by omega⟩ c }
  else .error (.outOfRange i)

def deref : Option ThreadRef → Except Fault ThreadRef
  | some r => .ok r
  | none => .error .nullThread

/-- The record behind `allThreads[tid]`, about to be dereferenced. -/
def State.threadAt (s : State) (tid : ℤ) : Except Fault ThreadRef := do
  deref (← s.cell tid)

def State.newThread (s : State) (t : Thread) : ThreadRef × State :=
  (s.nextRef, { s with heap := Function.update s.heap s.nextRef t, nextRef := s.nextRef + 1 })

def State.deleteThread (V : Variant) (s : State) (r : ThreadRef) : State :=
  { s with
    heap := Function.update s.heap r (V.remains r (s.heap r))
    deleted := Function.update s.deleted r true }

def State.pushBack (s : State) (r : ThreadRef) : State :=
  { s with readyQueue := s.readyQueue ++ [r] }

def maskSignals (s : State) : State := { s with masked := true }

def unmaskSignals (s : State) : State := { s with masked := false }

/-- `setitimer` restarts the quantum; only the mask is visible here. -/
def launchTimer (s : State) : State := maskSignals s

def initTimer (s : State) : State := launchTimer s

/-- The loop of `nextAvailableReady`: pop, count down, test. `curRunning` is the exit
for a queue that is used up. -/
def pickLoop (curRunning : Option ThreadRef) (heap : ThreadRef → Thread) :
    List ThreadRef → Option ThreadRef × List ThreadRef × (ThreadRef → Thread)
  | [] => (curRunning, [], heap)
  | candidate :: queue =>
    let heap' := Function.update heap candidate
      { heap candidate with duplicate := (heap candidate).duplicate - 1 }
    if (heap' candidate).status ≠ .ready ∨ (heap' candidate).duplicate = 1 then
      pickLoop curRunning heap' queue
    else (some candidate, queue, heap')

def nextAvailableReady (s : State) : Option ThreadRef × State :=
  match s.readyQueue with
  | [] => (s.allThreads 0, s)
  | queue@(_ :: _) =>
    let picked := pickLoop s.curRunning s.heap queue
    (picked.1, { s with readyQueue := picked.2.1, heap := picked.2.2 })

def blockThread (tid : ℤ) (s : State) : Except Fault (Bool × State) := do
  let thread ← s.threadAt tid
  let s := s.modifyThread thread fun t => { t with status := .blocked }
  return (decide (thread ∉ s.blockedID), { s with blockedID := insert thread s.blockedID })

def preemptedThread (s : State) : Except Fault State := do
  let thread ← deref s.curRunning
  let s := s.modifyThread thread fun t => { t with status := .ready }
  let s := s.pushBack thread
  return s.modifyThread thread fun t => { t with duplicate := t.duplicate + 1 }

def resumeThread (tid : ℤ) (s : State) : Except Fault (ℤ × State) := do
  let thread ← s.threadAt tid
  if (s.heap thread).status = .blocked then
    let s := { s with blockedID := s.blockedID.erase thread }
    let s := s.modifyThread thread fun t => { t with status := .ready }
    if (s.heap thread).isSleep = false then
      let s := s.pushBack thread
      return (0, s.modifyThread thread fun t => { t with duplicate := t.duplicate + 1 })
    else return (0, s)
  else return (-1, s)

/-- The write after the loop is to `allThreads[MAX_THREAD_NUM]`. -/
def terminateProcess (V : Variant) (s : State) : Except Fault State := do
  let s := (List.finRange maxThreadNum).foldl (fun s i =>
    match s.allThreads i with
    | none => s
    | some thread => s.deleteThread V thread) s
  let s ← s.setCell maxThreadNum none
  return { s with blockedID := ∅, readyQueue := [] }

def terminateThread (V : Variant) (tid : ℤ) (s : State) : Except Fault (ℤ × State) := do
  match ← s.cell tid with
  | none => return (-1, s)
  | some thread =>
    let s := { s with readyQueue := s.readyQueue.filter (· ≠ thread) }
    let s ← s.setCell tid none
    let s := s.deleteThread V thread
    return (0, { s with countReady := s.countReady - 1 })

/-- The conversion of `int` to `unsigned long`. -/
def count (s : State) : ℕ := (s.countReady % 2 ^ 64).toNat

/-- The body of the loop of `updateWaitingTime`. -/
def wakeCell (s : State) (i : Fin maxThreadNum) : State :=
  match s.allThreads i with
  | none => s
  | some thread =>
    let s := if (s.heap thread).isSleep then
        s.modifyThread thread fun t => { t with waitingTime := t.waitingTime - 1 }
      else s
    if (s.heap thread).waitingTime = 0 then
      let s := s.modifyThread thread fun t => { t with isSleep := false }
      let s := if (s.heap thread).status = .ready then
          (s.pushBack thread).modifyThread thread fun t => { t with duplicate := t.duplicate + 1 }
        else s
      s.modifyThread thread fun t => { t with waitingTime := -1 }
    else s

def updateWaitingTime (s : State) : State :=
  (List.finRange maxThreadNum).foldl wakeCell s

def findId (s : State) : ℤ :=
  match (List.finRange maxThreadNum).find? (fun i => i ≠ 0 ∧ s.allThreads i = none) with
  | some i => i
  | none => -1

/-- `new Thread()` zeroes the record, so a new thread starts with quantum 0. -/
def addThread (entryPoint : ℕ) (s : State) : Except Fault (ℤ × State) := do
  let id := findId s
  let (newThread, s) := s.newThread
    { id := id, status := .ready, env := .entryPoint entryPoint, duplicate := 0, quantum := 0,
      isSleep := false, waitingTime := -1 }
  let s := { s with countReady := s.countReady + 1 }
  let s ← s.setCell id (some newThread)
  let s := s.pushBack newThread
  return (id, s.modifyThread newThread fun t => { t with duplicate := 1 })

def setRunning (thread : ThreadRef) (s : State) : State :=
  { s.modifyThread thread fun t => { t with status := .running } with curRunning := some thread }

/-- The jump and what runs before control is back in user code: a new thread starts with
the empty mask, every other context is inside `switchThread` or `initMainThread`.
After a self-terminate the code falls through to a second `terminateThread`. -/
def siglongjmp (V : Variant) (next : ThreadRef) (s : State) : Except Fault (Outcome × State) :=
  if s.deleted next then .error .deletedContext
  else
    match (s.heap next).env with
    | .entryPoint _ => .ok (.dispatched next none, unmaskSignals s)
    | .signalHandler => .ok (.dispatched next none, unmaskSignals s)
    | .selfBlock => .ok (.dispatched next (some 0), unmaskSignals (unmaskSignals s))
    | .sleepCall => .ok (.dispatched next (some 0), unmaskSignals s)
    | .mainInit => .ok (.dispatched next (some 0), unmaskSignals s)
    | .selfTerminate tid => do
      let (failed, s) ← terminateThread V tid (unmaskSignals s)
      if failed ≠ 0 then return (.dispatched next (some (-1)), s)
      else return (.dispatched next (some 0), unmaskSignals s)

def switchThread (V : Variant) (ctx : Context) (s : State) : Except Fault (Outcome × State) := do
  let s := maskSignals s
  let cur ← deref s.curRunning
  let s := s.modifyThread cur fun t => { t with env := ctx }
  let s ← if (s.heap cur).status = .running ∧ (s.heap cur).isSleep = false then preemptedThread s
    else pure s
  let (candidate, s) := V.nextAvailableReady s
  let nextThread ← deref candidate
  let s := setRunning nextThread s
  let s := { s with totalQuantum := s.totalQuantum + 1 }
  let s := updateWaitingTime s
  let cur ← deref s.curRunning
  let s := s.modifyThread cur fun t => { t with quantum := t.quantum + 1 }
  siglongjmp V nextThread s

def checkValidTid (tid : ℤ) (s : State) : Except Fault (Option CallError) :=
  if tid < 0 ∨ tid > 99 then return some .tidOutOfRange
  else do
    match ← s.cell tid with
    | none => return some .emptyCell
    | some _ => return none

def uthreadTerminate (V : Variant) (tid : ℤ) (s : State) : Except Fault Control := do
  let s := maskSignals s
  match ← checkValidTid tid s with
  | some e => return .returns (.failed e) s
  | none =>
    if tid = mainThreadTid then
      let s ← terminateProcess V s
      return .returns .exited s
    let cur ← deref s.curRunning
    if (s.heap cur).id = tid then
      let (failed, s) ← terminateThread V tid s
      if failed ≠ 0 then return .returns (.returned (-1)) s
      return .switches (.selfTerminate tid) (launchTimer s)
    let (failed, s) ← terminateThread V tid s
    if failed ≠ 0 then return .returns (.returned (-1)) s
    return .returns (.returned 0) (unmaskSignals s)

def uthreadBlock (V : Variant) (tid : ℤ) (s : State) : Except Fault Control := do
  let s := maskSignals s
  match ← checkValidTid tid s with
  | some e => return .returns (.failed e) s
  | none =>
    if tid = mainThreadTid then return .returns (.failed .blockMain) s
    let (_, s) ← V.blockThread tid s
    let cur ← deref s.curRunning
    if (s.heap cur).id = tid then return .switches .selfBlock (launchTimer s)
    return .returns (.returned 0) (unmaskSignals s)

def uthreadResume (tid : ℤ) (s : State) : Except Fault Control := do
  let s := maskSignals s
  match ← checkValidTid tid s with
  | some e => return .returns (.failed e) s
  | none =>
    let thread ← s.threadAt tid
    let s ← if (s.heap thread).isSleep = false then
        (do let (_, s) ← resumeThread tid s; pure s)
      else pure s
    let thread ← s.threadAt tid
    let s := s.modifyThread thread fun t => { t with status := .ready }
    return .returns (.returned 0) (unmaskSignals s)

def uthreadGetTid (s : State) : Except Fault Control := do
  let cur ← deref s.curRunning
  return .returns (.returned (s.heap cur).id) s

def uthreadGetTotalQuantums (s : State) : Control := .returns (.returned s.totalQuantum) s

/-- The access of `uthread_get_quantums` after its check. -/
def readQuantum (tid : ℤ) (s : State) : Except Fault Control := do
  let thread ← s.threadAt tid
  return .returns (.returned (s.heap thread).quantum) s

def uthreadGetQuantums (tid : ℤ) (s : State) : Except Fault Control := do
  match ← checkValidTid tid s with
  | some e => return .returns (.failed e) s
  | none => readQuantum tid s

/-- The checks of `uthread_spawn`, made before the signal is masked. -/
def spawnCheck (entryPoint : Option ℕ) (s : State) : CallError ⊕ ℕ :=
  if maxThreadNum ≤ count s then .inl .maxNumber
  else
    match entryPoint with
    | none => .inl .nullEntryPoint
    | some pc => .inr pc

/-- The masked part of `uthread_spawn`. -/
def spawnMasked (pc : ℕ) (s : State) : Except Fault Control := do
  let (curId, s) ← addThread pc (maskSignals s)
  return .returns (.returned curId) (unmaskSignals s)

def uthreadSpawn (entryPoint : Option ℕ) (s : State) : Except Fault Control :=
  match spawnCheck entryPoint s with
  | .inl e => .ok (.returns (.failed e) s)
  | .inr pc => spawnMasked pc s

def uthreadSleep (numQuantums : ℤ) (s : State) : Except Fault Control := do
  let s := maskSignals s
  if numQuantums ≤ 0 then return .returns (.failed .sleepNotPositive) s
  let cur ← deref s.curRunning
  if (s.heap cur).id = mainThreadTid then return .returns (.failed .mainSleeps) s
  let s := s.modifyThread cur fun t =>
    { t with isSleep := true, waitingTime := numQuantums, status := .ready }
  return .switches .sleepCall (launchTimer s)

/-- The constructor of the scheduler object. -/
def newScheduler (s : State) : State :=
  { s with
    countReady := 1
    curRunning := none
    blockedID := ∅
    readyQueue := []
    allThreads := fun _ => none }

def dispatcherInit (s : State) : State := { s with totalQuantum := 1 }

def mainThread : Thread :=
  { id := mainThreadTid, status := .running, env := .mainInit, duplicate := 0, quantum := 1,
    isSleep := false, waitingTime := -1 }

def initMainThread (s : State) : Except Fault State := do
  let (main, s) := s.newThread mainThread
  let s ← s.setCell (s.heap main).id (some main)
  return { s with curRunning := some main }

def uthreadInit (quantumUsecs : ℤ) (s : State) : Except Fault (Outcome × State) := do
  let s := dispatcherInit (newScheduler s)
  if quantumUsecs ≤ 0 then return (.failed .quantumNotPositive, s)
  let s ← initMainThread (initTimer s)
  return (.returned 0, unmaskSignals s)

/-- The public calls after `uthread_init`, which callers make exactly once. -/
inductive Call where
  | spawn (entryPoint : Option ℕ)
  | terminate (tid : ℤ)
  | block (tid : ℤ)
  | resume (tid : ℤ)
  | sleep (numQuantums : ℤ)
  | getTid
  | getTotalQuantums
  | getQuantums (tid : ℤ)
  deriving DecidableEq, Repr

inductive Event where
  | call (c : Call)
  | timer
  deriving DecidableEq, Repr

def request (V : Variant) (s : State) : Call → Except Fault Control
  | .spawn entryPoint => uthreadSpawn entryPoint s
  | .terminate tid => uthreadTerminate V tid s
  | .block tid => uthreadBlock V tid s
  | .resume tid => uthreadResume tid s
  | .sleep n => uthreadSleep n s
  | .getTid => uthreadGetTid s
  | .getTotalQuantums => .ok (uthreadGetTotalQuantums s)
  | .getQuantums tid => uthreadGetQuantums tid s

/-- One event of the running thread: a whole public call, or the timer signal between
calls, which the kernel holds back while it is masked. -/
def step (V : Variant) (s : State) : Event → Except Fault (Outcome × State)
  | .timer => if s.masked then .error .signalMasked else switchThread V .signalHandler s
  | .call c => do
    match ← request V s c with
    | .returns o s => return (o, s)
    | .switches ctx s => switchThread V ctx s

/-- The library of `uthreads.cpp`. -/
def uthreads (remains : ThreadRef → Thread → Thread) : Variant :=
  ⟨nextAvailableReady, blockThread, remains⟩

/-- The static data before the first call. -/
def programStart : State where
  heap := fun _ => mainThread
  nextRef := 0
  deleted := fun _ => false
  blockedID := ∅
  readyQueue := []
  allThreads := fun _ => none
  countReady := 0
  curRunning := none
  totalQuantum := 1
  masked := false

/-- The state after a successful `uthread_init`. -/
def initial : State where
  heap := fun _ => mainThread
  nextRef := 1
  deleted := fun _ => false
  blockedID := ∅
  readyQueue := []
  allThreads := Function.update (fun _ => none) 0 (some 0)
  countReady := 1
  curRunning := some 0
  totalQuantum := 1
  masked := false

@[simp] theorem ok_bind {α β : Type} (a : α) (f : α → Except Fault β) :
    (Except.ok a >>= f) = f a := rfl

@[simp] theorem error_bind {α β : Type} (e : Fault) (f : α → Except Fault β) :
    (Except.error e >>= f) = .error e := rfl

@[simp] theorem pure_ok {α : Type} (a : α) : (pure a : Except Fault α) = .ok a := rfl

@[simp] theorem deref_some (r : ThreadRef) : deref (some r) = .ok r := rfl

@[simp] theorem cell_index (s : State) (i : Fin maxThreadNum) :
    s.cell (i : ℕ) = .ok (s.allThreads i) := by
  have hi : ((i : ℕ) : ℤ) < 100 := by have : (i : ℕ) < 100 := i.isLt; omega
  simp [State.cell, hi]

@[simp] theorem setCell_index (s : State) (i : Fin maxThreadNum) (c : Option ThreadRef) :
    s.setCell (i : ℕ) c = .ok { s with allThreads := Function.update s.allThreads i c } := by
  have hi : ((i : ℕ) : ℤ) < 100 := by have : (i : ℕ) < 100 := i.isLt; omega
  simp [State.setCell, hi]

/-- `r` is the record in cell `tid` of the thread table. -/
def State.At (s : State) (tid : ℤ) (r : ThreadRef) : Prop :=
  ∃ i : Fin maxThreadNum, ((i : ℕ) : ℤ) = tid ∧ s.allThreads i = some r

def State.Live (s : State) (r : ThreadRef) : Prop := ∃ i, s.allThreads i = some r

instance (s : State) (r : ThreadRef) : Decidable (s.Live r) :=
  inferInstanceAs (Decidable (∃ i, s.allThreads i = some r))

instance (s : State) (tid : ℤ) (r : ThreadRef) : Decidable (s.At tid r) :=
  inferInstanceAs (Decidable (∃ _ : Fin maxThreadNum, _ ∧ _))

theorem At.live {s : State} {tid : ℤ} {r : ThreadRef} (h : s.At tid r) : s.Live r := by
  obtain ⟨i, _, hi⟩ := h
  exact ⟨i, hi⟩

theorem At.unique {s : State} {tid : ℤ} {r q : ThreadRef} (h : s.At tid r) (k : s.At tid q) :
    r = q := by
  obtain ⟨i, hi, hr⟩ := h
  obtain ⟨j, hj, hq⟩ := k
  have : i = j := Fin.ext (by omega)
  subst this
  exact Option.some.inj (hr.symm.trans hq)

theorem threadAt_ok {s : State} {tid : ℤ} {r : ThreadRef} (h : s.At tid r) :
    s.threadAt tid = .ok r := by
  obtain ⟨i, rfl, hr⟩ := h
  simp [State.threadAt, hr]

theorem checkValidTid_ok {s : State} {tid : ℤ} {r : ThreadRef} (h : s.At tid r) :
    checkValidTid tid s = .ok none := by
  obtain ⟨i, rfl, hr⟩ := h
  have hlt : (i : ℕ) < 100 := i.isLt
  have hi : ¬ (((i : ℕ) : ℤ) < 0 ∨ ((i : ℕ) : ℤ) > 99) := by omega
  simp only [checkValidTid, if_neg hi, cell_index, hr, ok_bind, pure_ok]

/-- `checkValidTid` never indexes outside the table and accepts exactly the used cells. -/
theorem checkValidTid_cases (s : State) (tid : ℤ) :
    (∃ r, s.At tid r) ∨ ((∀ r, ¬ s.At tid r) ∧ ∃ e, checkValidTid tid s = .ok (some e)) := by
  by_cases ht : tid < 0 ∨ tid > 99
  · refine Or.inr ⟨?_, .tidOutOfRange, by simp [checkValidTid, ht]⟩
    rintro r ⟨i, hi, _⟩
    have hlt : (i : ℕ) < 100 := i.isLt
    omega
  · have hlt : tid.toNat < 100 := by omega
    have hi : (((⟨tid.toNat, hlt⟩ : Fin maxThreadNum) : ℕ) : ℤ) = tid := by simp; omega
    cases hc : s.allThreads ⟨tid.toNat, hlt⟩ with
    | some r => exact Or.inl ⟨r, _, hi, hc⟩
    | none =>
      have hcell : s.cell tid = .ok none := by rw [← hi, cell_index, hc]
      refine Or.inr ⟨?_, .emptyCell, by simp [checkValidTid, ht, hcell]⟩
      rintro r ⟨j, hj, hr⟩
      have : j = ⟨tid.toNat, hlt⟩ := Fin.ext (by simp; omega)
      rw [this, hc] at hr
      cases hr

theorem uthreadInit_initial {q : ℤ} (h : 0 < q) :
    uthreadInit q programStart = .ok (.returned 0, initial) := by
  have hq : ¬ q ≤ 0 := by omega
  have hh : Function.update (fun _ : ThreadRef => mainThread) 0 mainThread =
      fun _ => mainThread := Function.update_eq_self 0 _
  simp only [uthreadInit, hq, if_false, initMainThread, State.newThread, State.setCell,
    dispatcherInit, newScheduler, initTimer, launchTimer, maskSignals, programStart, hh]
  rfl

end ThreadLibrary
