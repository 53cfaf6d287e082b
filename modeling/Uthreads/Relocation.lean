import Uthreads.FallibleCode
import Uthreads.CallEffects
import Mathlib.Algebra.Group.Embedding
import Mathlib.Data.Finset.Image

/-! # The library does not look at addresses

A library whose records were all allocated after others does what the library does whose
records come first: each function commutes with the change of addresses. -/
namespace Relocation

open ThreadLibrary SwitchSemantics CallEffects FallibleCode

/-- The records of `s`, allocated after those of `b`, the rest of `s` as it is. -/
def relocate (b s : State) : State where
  heap := place b.nextRef b.heap s.heap
  nextRef := b.nextRef + s.nextRef
  deleted := place b.nextRef b.deleted s.deleted
  blockedID := s.blockedID.map (addLeftEmbedding b.nextRef)
  readyQueue := s.readyQueue.map (b.nextRef + ·)
  allThreads i := (s.allThreads i).map (b.nextRef + ·)
  countReady := s.countReady
  curRunning := s.curRunning.map (b.nextRef + ·)
  totalQuantum := s.totalQuantum
  masked := s.masked

def relocateOutcome (k : ℕ) : Outcome → Outcome
  | .dispatched next value => .dispatched (k + next) value
  | o => o

def relocateControl (b : State) : Control → Control
  | .returns o s => .returns (relocateOutcome b.nextRef o) (relocate b s)
  | .switches ctx s => .switches ctx (relocate b s)

/-- What deleted records read as, for the library whose records come first. -/
def later (k : ℕ) (remains : ThreadRef → Thread → Thread) : ThreadRef → Thread → Thread :=
  fun r => remains (k + r)

section Functions

variable (b s : State) (r : ThreadRef) (tid : ℤ) (remains : ThreadRef → Thread → Thread)

@[simp] theorem relocate_heap : (relocate b s).heap (b.nextRef + r) = s.heap r :=
  place_apply ..

@[simp] theorem relocate_deleted : (relocate b s).deleted (b.nextRef + r) = s.deleted r :=
  place_apply ..

@[simp] theorem relocate_allThreads (i : Fin maxThreadNum) :
    (relocate b s).allThreads i = (s.allThreads i).map (b.nextRef + ·) := rfl

@[simp] theorem relocate_curRunning :
    (relocate b s).curRunning = s.curRunning.map (b.nextRef + ·) := rfl

@[simp] theorem relocate_maskSignals :
    maskSignals (relocate b s) = relocate b (maskSignals s) := rfl

@[simp] theorem relocate_modifyThread (f : Thread → Thread) :
    (relocate b s).modifyThread (b.nextRef + r) f = relocate b (s.modifyThread r f) := by
  simp only [State.modifyThread, relocate_heap]
  simp only [relocate, update_place]

@[simp] theorem relocate_pushBack :
    (relocate b s).pushBack (b.nextRef + r) = relocate b (s.pushBack r) := by
  simp [State.pushBack, relocate]

@[simp] theorem relocate_deleteThread :
    (relocate b s).deleteThread (uthreads remains) (b.nextRef + r) =
      relocate b (s.deleteThread (uthreads (later b.nextRef remains)) r) := by
  simp only [State.deleteThread, relocate_heap]
  simp only [relocate, update_place]
  rfl

@[simp] theorem relocate_newThread (t : Thread) : (relocate b s).newThread t =
    (b.nextRef + (s.newThread t).1, relocate b (s.newThread t).2) := by
  simp only [State.newThread, relocate, update_place, Nat.add_assoc]

theorem relocate_cell (i : ℤ) :
    (relocate b s).cell i = (s.cell i).map (Option.map (b.nextRef + ·)) := by
  unfold State.cell
  split <;> rfl

theorem relocate_setCell (i : ℤ) (c : Option ThreadRef) :
    (relocate b s).setCell i (c.map (b.nextRef + ·)) = (s.setCell i c).map (relocate b) := by
  unfold State.setCell
  split
  · refine congrArg Except.ok (State.ext rfl rfl rfl rfl rfl ?_ rfl rfl rfl rfl)
    funext j
    simp only [relocate, Function.update_apply]
    split <;> rfl
  · rfl

theorem relocate_deref (c : Option ThreadRef) :
    deref (c.map (b.nextRef + ·)) = (deref c).map (b.nextRef + ·) := by cases c <;> rfl

theorem relocate_threadAt :
    (relocate b s).threadAt tid = (s.threadAt tid).map (b.nextRef + ·) :=
  bind_image (relocate_cell b s tid) fun c => relocate_deref b c

theorem relocate_pickLoop (cur : Option ThreadRef) (heap : ThreadRef → Thread)
    (queue : List ThreadRef) :
    pickLoop (cur.map (b.nextRef + ·)) (place b.nextRef b.heap heap)
        (queue.map (b.nextRef + ·)) =
      ((pickLoop cur heap queue).1.map (b.nextRef + ·),
        (pickLoop cur heap queue).2.1.map (b.nextRef + ·),
        place b.nextRef b.heap (pickLoop cur heap queue).2.2) := by
  induction queue generalizing heap with
  | nil => rfl
  | cons candidate queue ih =>
    simp only [List.map_cons, pickLoop, place_apply, update_place]
    split
    · exact ih _
    · rfl

theorem relocate_nextAvailableReady : nextAvailableReady (relocate b s) =
    ((nextAvailableReady s).1.map (b.nextRef + ·), relocate b (nextAvailableReady s).2) := by
  cases hq : s.readyQueue with
  | nil =>
    have hq' : (relocate b s).readyQueue = [] := by simp [relocate, hq]
    simp only [nextAvailableReady, hq, hq', relocate_allThreads]
  | cons candidate queue =>
    have hq' : (relocate b s).readyQueue =
        (b.nextRef + candidate) :: queue.map (b.nextRef + ·) := by simp [relocate, hq]
    have hpick := relocate_pickLoop b s.curRunning s.heap (candidate :: queue)
    rw [List.map_cons] at hpick
    simp only [nextAvailableReady, hq, hq']
    rw [show (relocate b s).heap = place b.nextRef b.heap s.heap from rfl,
      relocate_curRunning, hpick]
    rfl

@[simp] theorem relocate_mem_blockedID :
    b.nextRef + r ∈ (relocate b s).blockedID ↔ r ∈ s.blockedID := by
  simp [relocate]

theorem relocate_blockThread : blockThread tid (relocate b s) =
    (blockThread tid s).map fun x => (x.1, relocate b x.2) := by
  refine bind_image (relocate_threadAt b s tid) fun thread => ?_
  simp only [relocate_modifyThread, relocate_mem_blockedID, pure_ok, Except.map]
  refine congrArg Except.ok (Prod.ext rfl (State.ext rfl rfl rfl ?_ rfl rfl rfl rfl rfl rfl))
  simp [relocate, Finset.map_insert]

theorem relocate_resumeThread : resumeThread tid (relocate b s) =
    (resumeThread tid s).map fun x => (x.1, relocate b x.2) := by
  refine bind_image (relocate_threadAt b s tid) fun thread => ?_
  have herase : ({ relocate b s with
      blockedID := (relocate b s).blockedID.erase (b.nextRef + thread) } : State) =
      relocate b { s with blockedID := s.blockedID.erase thread } := by
    refine State.ext rfl rfl rfl ?_ rfl rfl rfl rfl rfl rfl
    exact (Finset.map_erase (addLeftEmbedding b.nextRef) s.blockedID thread).symm
  rw [relocate_heap]
  split
  · rw [herase]
    simp only [relocate_modifyThread, relocate_heap, relocate_pushBack]
    split <;> rfl
  · rfl

theorem relocate_terminateThread : terminateThread (uthreads remains) tid (relocate b s) =
    (terminateThread (uthreads (later b.nextRef remains)) tid s).map
      fun x => (x.1, relocate b x.2) := by
  refine bind_image (relocate_cell b s tid) fun c => ?_
  cases c with
  | none => rfl
  | some thread =>
    have hqueue : ({ relocate b s with
        readyQueue := (relocate b s).readyQueue.filter (· ≠ b.nextRef + thread) } : State) =
        relocate b { s with readyQueue := s.readyQueue.filter (· ≠ thread) } := by
      refine State.ext rfl rfl rfl rfl ?_ rfl rfl rfl rfl rfl
      simp [relocate, List.filter_map, Function.comp_def]
    simp only [Option.map_some]
    rw [hqueue]
    refine bind_image (relocate_setCell b _ tid none) fun s' => ?_
    simp only [relocate_deleteThread]
    rfl

theorem relocate_terminateProcess : terminateProcess (uthreads remains) (relocate b s) =
    (terminateProcess (uthreads (later b.nextRef remains)) s).map (relocate b) := by
  rw [terminateProcess_faults, terminateProcess_faults]
  rfl

theorem relocate_wakeCell (i : Fin maxThreadNum) :
    wakeCell (relocate b s) i = relocate b (wakeCell s i) := by
  simp only [wakeCell, relocate_allThreads]
  cases s.allThreads i with
  | none => rfl
  | some thread =>
    simp only [Option.map_some, relocate_heap, relocate_modifyThread, relocate_pushBack,
      ← apply_ite (relocate b)]

theorem relocate_updateWaitingTime :
    updateWaitingTime (relocate b s) = relocate b (updateWaitingTime s) := by
  have hfold : ∀ (cells : List (Fin maxThreadNum)) (s : State),
      cells.foldl wakeCell (relocate b s) = relocate b (cells.foldl wakeCell s) := by
    intro cells
    induction cells with
    | nil => exact fun _ => rfl
    | cons i cells ih =>
      intro s
      simp only [List.foldl_cons, relocate_wakeCell, ih]
  exact hfold _ s

theorem relocate_findId : findId (relocate b s) = findId s := by
  simp [findId]

theorem relocate_addThread (pc : ℕ) : addThread pc (relocate b s) =
    (addThread pc s).map fun x => (x.1, relocate b x.2) := by
  unfold addThread
  simp only [relocate_findId, relocate_newThread]
  refine bind_image (relocate_setCell b
    { (s.newThread _).2 with countReady := (s.newThread _).2.countReady + 1 } _
    (some (s.newThread _).1)) fun s' => ?_
  simp only [relocate_pushBack, relocate_modifyThread, pure_ok, Except.map]

@[simp] theorem relocate_setRunning :
    setRunning (b.nextRef + r) (relocate b s) = relocate b (setRunning r s) := by
  unfold setRunning
  rw [relocate_modifyThread]
  rfl

theorem relocate_siglongjmp : siglongjmp (uthreads remains) (b.nextRef + r) (relocate b s) =
    (siglongjmp (uthreads (later b.nextRef remains)) r s).map
      fun x => (relocateOutcome b.nextRef x.1, relocate b x.2) := by
  unfold siglongjmp
  rw [relocate_deleted, relocate_heap]
  split
  · rfl
  · split
    case h_6 tid _ =>
      refine bind_image (relocate_terminateThread b (unmaskSignals s) tid remains) fun x => ?_
      simp only
      split <;> rfl
    all_goals rfl

theorem relocate_preempts : Preempts (relocate b s) (b.nextRef + r) ↔ Preempts s r := by
  simp only [Preempts, relocate_heap]

theorem relocate_yielded (ctx : Context) :
    yielded ctx (b.nextRef + r) (relocate b s) = relocate b (yielded ctx r s) := by
  have hthread : yieldedThread ctx (b.nextRef + r) (relocate b s) = yieldedThread ctx r s := by
    funext t
    simp only [yieldedThread, relocate_preempts]
  have hqueue : queueAtPick (relocate b s) (b.nextRef + r) =
      (queueAtPick s r).map (b.nextRef + ·) := by
    simp only [queueAtPick, relocate_preempts, List.map_append]
    split <;> rfl
  simp only [yielded, hthread, hqueue, relocate_modifyThread]
  rfl

theorem relocate_startQuantum :
    startQuantum (b.nextRef + r) (relocate b s) = relocate b (startQuantum r s) := by
  have hbefore : beforePass (b.nextRef + r) (relocate b s) = relocate b (beforePass r s) := by
    simp only [beforePass, relocate_setRunning]
    rfl
  simp only [startQuantum, hbefore, relocate_updateWaitingTime, relocate_modifyThread]

theorem relocate_switchThread (ctx : Context) :
    switchThread (uthreads remains) ctx (relocate b s) =
      (switchThread (uthreads (later b.nextRef remains)) ctx s).map
        fun x => (relocateOutcome b.nextRef x.1, relocate b x.2) := by
  cases hc : s.curRunning with
  | none =>
    have hc' : (relocate b s).curRunning = none := by rw [relocate_curRunning, hc]; rfl
    simp only [switchThread, maskSignals, hc, hc', deref, error_bind, Except.map]
  | some c =>
    have hc' : (relocate b s).curRunning = some (b.nextRef + c) := by
      rw [relocate_curRunning, hc]
      rfl
    rw [switchThread_eq _ ctx hc, switchThread_eq _ ctx hc', relocate_yielded]
    simp only [uthreads, relocate_nextAvailableReady]
    cases (nextAvailableReady (yielded ctx c s)).1 with
    | none => rfl
    | some next =>
      simp only [Option.map_some, relocate_startQuantum]
      exact relocate_siglongjmp ..

theorem relocate_checkValidTid : checkValidTid tid (relocate b s) =
    (checkValidTid tid s).map id := by
  unfold checkValidTid
  split
  · rfl
  · refine bind_image (relocate_cell b s tid) fun c => ?_
    cases c <;> rfl

theorem relocate_uthreadTerminate : uthreadTerminate (uthreads remains) tid (relocate b s) =
    (uthreadTerminate (uthreads (later b.nextRef remains)) tid s).map (relocateControl b) := by
  unfold uthreadTerminate
  refine bind_image (relocate_checkValidTid b (maskSignals s) tid) fun e => ?_
  cases e with
  | some e => rfl
  | none =>
    simp only [id]
    split
    · exact bind_image (relocate_terminateProcess b (maskSignals s) remains) fun s' => rfl
    · refine bind_image (relocate_deref b s.curRunning) fun cur => ?_
      simp only [relocate_maskSignals, relocate_heap]
      split
      all_goals
        refine bind_image (relocate_terminateThread b (maskSignals s) tid remains) fun x => ?_
        simp only
        split <;> rfl

theorem relocate_uthreadBlock : uthreadBlock (uthreads remains) tid (relocate b s) =
    (uthreadBlock (uthreads (later b.nextRef remains)) tid s).map (relocateControl b) := by
  unfold uthreadBlock
  refine bind_image (relocate_checkValidTid b (maskSignals s) tid) fun e => ?_
  cases e with
  | some e => rfl
  | none =>
    simp only [id]
    split
    · rfl
    · refine bind_image (relocate_blockThread b (maskSignals s) tid) fun x => ?_
      refine bind_image (relocate_deref b x.2.curRunning) fun cur => ?_
      simp only [relocate_heap]
      split <;> rfl

theorem relocate_uthreadResume : uthreadResume tid (relocate b s) =
    (uthreadResume tid s).map (relocateControl b) := by
  unfold uthreadResume
  refine bind_image (relocate_checkValidTid b (maskSignals s) tid) fun e => ?_
  cases e with
  | some e => rfl
  | none =>
    refine bind_image (relocate_threadAt b (maskSignals s) tid) fun thread => ?_
    have hrest : ∀ s' : State, (do
        let thread ← (relocate b s').threadAt tid
        pure (Control.returns (.returned 0) (unmaskSignals
          ((relocate b s').modifyThread thread fun t => { t with status := .ready })))) =
        (do
          let thread ← s'.threadAt tid
          pure (Control.returns (.returned 0) (unmaskSignals
            (s'.modifyThread thread fun t => { t with status := .ready })))
          : Except Fault Control).map (relocateControl b) := by
      intro s'
      refine bind_image (relocate_threadAt b s' tid) fun thread => ?_
      rw [relocate_modifyThread]
      rfl
    simp only [relocate_maskSignals, relocate_heap]
    split
    · refine bind_image ?_ fun s' => hrest s'
      exact bind_image (relocate_resumeThread b (maskSignals s) tid) fun x => rfl
    · exact hrest _

theorem relocate_uthreadGetTid : uthreadGetTid (relocate b s) =
    (uthreadGetTid s).map (relocateControl b) := by
  refine bind_image (relocate_deref b s.curRunning) fun cur => ?_
  rw [relocate_heap]
  rfl

theorem relocate_uthreadGetQuantums : uthreadGetQuantums tid (relocate b s) =
    (uthreadGetQuantums tid s).map (relocateControl b) := by
  refine bind_image (relocate_checkValidTid b s tid) fun e => ?_
  cases e with
  | some e => rfl
  | none =>
    refine bind_image (relocate_threadAt b s tid) fun thread => ?_
    rw [relocate_heap]
    rfl

theorem relocate_uthreadSpawn (entryPoint : Option ℕ) : uthreadSpawn entryPoint (relocate b s) =
    (uthreadSpawn entryPoint s).map (relocateControl b) := by
  have hcheck : spawnCheck entryPoint (relocate b s) = spawnCheck entryPoint s := rfl
  unfold uthreadSpawn
  rw [hcheck]
  split
  · rfl
  · exact bind_image (relocate_addThread b (maskSignals s) _) fun x => rfl

theorem relocate_uthreadSleep (n : ℤ) : uthreadSleep n (relocate b s) =
    (uthreadSleep n s).map (relocateControl b) := by
  unfold uthreadSleep
  simp only
  split
  · rfl
  · refine bind_image (relocate_deref b s.curRunning) fun cur => ?_
    simp only [relocate_maskSignals, relocate_heap, relocate_modifyThread]
    split <;> rfl

theorem relocate_request (c : Call) : request (uthreads remains) (relocate b s) c =
    (request (uthreads (later b.nextRef remains)) s c).map (relocateControl b) := by
  cases c with
  | spawn entryPoint => exact relocate_uthreadSpawn b s entryPoint
  | terminate tid => exact relocate_uthreadTerminate b s tid remains
  | block tid => exact relocate_uthreadBlock b s tid remains
  | resume tid => exact relocate_uthreadResume b s tid
  | sleep n => exact relocate_uthreadSleep b s n
  | getTid => exact relocate_uthreadGetTid b s
  | getTotalQuantums => rfl
  | getQuantums tid => exact relocate_uthreadGetQuantums b s tid

theorem relocate_step (e : Event) : step (uthreads remains) (relocate b s) e =
    (step (uthreads (later b.nextRef remains)) s e).map
      fun x => (relocateOutcome b.nextRef x.1, relocate b x.2) := by
  cases e with
  | timer =>
    have hmasked : (relocate b s).masked = s.masked := rfl
    simp only [step, hmasked]
    split
    · rfl
    · exact relocate_switchThread b s remains .signalHandler
  | call c =>
    refine bind_image (relocate_request b s remains c) fun control => ?_
    cases control with
    | returns o s' => rfl
    | switches ctx s' => exact relocate_switchThread b s' remains ctx

end Functions

end Relocation
