import Uthreads.Commutation
import Uthreads.LocalUpdates

/-! # Batches of operations

The running thread blocks, resumes and terminates other threads, in any number. However the
operations on different threads are interleaved, only the entries that the batch itself
appends can come in another order. -/
namespace OperationBatches

open ThreadLibrary SwitchSemantics CallEffects EventRuns ThreadInvariant Commutation LocalUpdates

/-- A batch: cells with the operation on their thread. -/
abbrev Batch := List (Fin maxThreadNum × Operation)

/-- The calls, each of which succeeds. -/
def Batch.calls (xs : Batch) : List (Event × Outcome) :=
  xs.map fun x => (.call (x.2.call (x.1 : ℕ)), .returned 0)

/-- The thread in a cell of the state that the batch starts from. -/
def threadIn (s : State) (i : Fin maxThreadNum) : ThreadRef := (s.allThreads i).getD 0

def update (remains : ThreadRef → Thread → Thread) (ref : Fin maxThreadNum → ThreadRef)
    (x : Fin maxThreadNum × Operation) (s : State) : State :=
  unmaskSignals (x.2.effect remains x.1 (ref x.1) s)

/-- Nothing is asked of main or of the running thread, or of a thread after its end. -/
structure Batch.Valid (s : State) (xs : Batch) : Prop where
  others : ∀ x ∈ xs, x.1 ≠ 0 ∧ ∃ r, s.allThreads x.1 = some r ∧ s.curRunning ≠ some r
  ended : xs.Pairwise fun x y => x.2 = .terminate → x.1 ≠ y.1

variable {remains : ThreadRef → Thread → Thread} {s t : State} {i : Fin maxThreadNum}
  {q r : ThreadRef} {xs ys : Batch} {ref : Fin maxThreadNum → ThreadRef}
  {tr : List (Event × Outcome)}

section Run

theorem update_cell {x : Fin maxThreadNum × Operation} (h : x.2 = .terminate → x.1 ≠ i) :
    (update remains ref x s).allThreads i = s.allThreads i := by
  change (x.2.effect remains x.1 (ref x.1) s).allThreads i = _
  rw [effect_allThreads]
  split
  · rw [Function.update_of_ne (Ne.symm (h ‹_›))]
  · rfl

theorem update_curRunning (x : Fin maxThreadNum × Operation) :
    (update remains ref x s).curRunning = s.curRunning := effect_curRunning ..

variable (remains) in
theorem batch_run (hi : Invariant s)
    (h : ∀ x ∈ xs, x.1 ≠ 0 ∧ s.allThreads x.1 = some (ref x.1) ∧ s.curRunning ≠ some (ref x.1))
    (hended : xs.Pairwise fun x y => x.2 = .terminate → x.1 ≠ y.1) :
    Exec (step (uthreads remains)) s xs.calls (applyAll (update remains ref) xs s) := by
  induction xs generalizing s with
  | nil => exact .nil s
  | cons x xs ih =>
    obtain ⟨h0, hr, hcur⟩ := h x List.mem_cons_self
    obtain ⟨hx, hrest⟩ := List.pairwise_cons.mp hended
    have hstep := operation_step remains x.2 hi hr h0 hcur
    refine .cons hstep (ih (step_preserves_invariant hi hstep) (fun y hy => ?_) hrest)
    obtain ⟨hy0, hyr, hycur⟩ := h y (List.mem_cons_of_mem x hy)
    refine ⟨hy0, (update_cell (hx y hy)).trans hyr, ?_⟩
    exact fun hc => hycur ((update_curRunning x).symm.trans hc)

end Run

section Components

/-- A record and the number of its entries. -/
def recordView (s : State) (r : ThreadRef) : (Thread × Bool × Bool) × ℕ :=
  (view s r, s.readyQueue.count r)

theorem pushed_subset {op : Operation} (h : q ∈ op.pushed s r) : q = r := by
  cases op with
  | resume =>
    simp only [Operation.pushed] at h
    split at h
    · exact List.mem_singleton.mp h
    · cases h
  | block => cases h
  | terminate => cases h

theorem effect_count_of_ne (op : Operation) (h : q ≠ r) :
    (op.effect remains i r s).readyQueue.count q = s.readyQueue.count q := by
  have hkeeps : op.keeps r q = true := by cases op <;> simp [Operation.keeps, h]
  have hpushed : (op.pushed s r).count q = 0 :=
    List.count_eq_zero.mpr fun hq => h (pushed_subset hq)
  rw [effect_readyQueue, List.count_append, List.count_filter hkeeps, hpushed, Nat.add_zero]

theorem effect_count_self (op : Operation) (hv : view s r = view t r)
    (hq : s.readyQueue.count r = t.readyQueue.count r) :
    (op.effect remains i r s).readyQueue.count r =
      (op.effect remains i r t).readyQueue.count r := by
  rw [effect_readyQueue, effect_readyQueue, List.count_append, List.count_append,
    pushed_congr t r op hv]
  congr 1
  by_cases hkeeps : op.keeps r r = true
  · rw [List.count_filter hkeeps, List.count_filter hkeeps, hq]
  · have hgone : ∀ l : List ThreadRef, (l.filter (op.keeps r)).count r = 0 := fun l =>
      List.count_eq_zero.mpr fun hr => hkeeps (List.mem_filter.mp hr).2
    rw [hgone, hgone]

theorem record_local (remains : ThreadRef → Thread → Thread)
    (ref : Fin maxThreadNum → ThreadRef) :
    Local (fun x : Fin maxThreadNum × Operation => ref x.1) recordView (update remains ref) where
  other x s q hq :=
    Prod.ext (effect_view_of_ne remains s x.1 (ref x.1) x.2 hq) (effect_count_of_ne x.2 hq)
  own x s t h := by
    obtain ⟨hv, hq⟩ := Prod.mk.inj h
    exact Prod.ext (effect_view_self remains t x.1 (ref x.1) x.2 hv) (effect_count_self x.2 hv hq)

theorem cell_local (remains : ThreadRef → Thread → Thread) (ref : Fin maxThreadNum → ThreadRef) :
    Local (fun x : Fin maxThreadNum × Operation => x.1) State.allThreads (update remains ref) := by
  constructor
  case other =>
    intro x s j hj
    exact update_cell fun _ => Ne.symm hj
  case own =>
    intro x s t h
    change (x.2.effect remains x.1 (ref x.1) s).allThreads x.1 =
      (x.2.effect remains x.1 (ref x.1) t).allThreads x.1
    rw [effect_allThreads, effect_allThreads]
    split
    · rw [Function.update_self, Function.update_self]
    · exact h

end Components

section Queue

/-- The thread is terminated in the batch. -/
def Batch.Ends (ref : Fin maxThreadNum → ThreadRef) (xs : Batch) (q : ThreadRef) : Prop :=
  ∃ x ∈ xs, x.2 = .terminate ∧ ref x.1 = q

instance (ref : Fin maxThreadNum → ThreadRef) (xs : Batch) : DecidablePred (xs.Ends ref) :=
  fun _ => inferInstanceAs (Decidable (∃ x ∈ xs, _))

theorem keeps_iff {op : Operation} : op.keeps r q = true ↔ ¬ (op = .terminate ∧ r = q) := by
  cases op with
  | terminate => simp [Operation.keeps, eq_comm (a := r)]
  | block => simp [Operation.keeps]
  | resume => simp [Operation.keeps]

theorem ends_cons {x : Fin maxThreadNum × Operation} :
    Batch.Ends ref (x :: xs) q ↔ (x.2 = .terminate ∧ ref x.1 = q) ∨ xs.Ends ref q := by
  simp [Batch.Ends]

theorem batch_queue (remains : ThreadRef → Thread → Thread) (ref : Fin maxThreadNum → ThreadRef)
    (s : State) (xs : Batch) :
    ∃ tail, (applyAll (update remains ref) xs s).readyQueue =
      s.readyQueue.filter (fun q => ¬ xs.Ends ref q) ++ tail := by
  induction xs generalizing s with
  | nil => exact ⟨[], by simp [applyAll, Batch.Ends]⟩
  | cons x xs ih =>
    obtain ⟨tail, htail⟩ := ih (update remains ref x s)
    have hqueue : (update remains ref x s).readyQueue =
        s.readyQueue.filter (x.2.keeps (ref x.1)) ++ x.2.pushed s (ref x.1) :=
      effect_readyQueue ..
    rw [hqueue, List.filter_append, List.filter_filter, List.append_assoc] at htail
    refine ⟨_, htail.trans (congrArg (· ++ _) (List.filter_congr fun q _ => ?_))⟩
    rw [Bool.eq_iff_iff, Bool.and_eq_true, keeps_iff, decide_eq_true_eq, decide_eq_true_eq,
      ends_cons, not_or, and_comm]

end Queue

section Interleavings

theorem Batch.Valid.cells (h : xs.Valid s) {x : Fin maxThreadNum × Operation} (hx : x ∈ xs) :
    x.1 ≠ 0 ∧ s.allThreads x.1 = some (threadIn s x.1) ∧
      s.curRunning ≠ some (threadIn s x.1) := by
  obtain ⟨h0, r, hr, hcur⟩ := h.others x hx
  have href : threadIn s x.1 = r := by rw [threadIn, hr, Option.getD_some]
  exact ⟨h0, href ▸ hr, href ▸ hcur⟩

theorem Batch.Valid.interleave (h : xs.Valid s)
    (hsame : ∀ i, updatesOf Prod.fst i xs = updatesOf Prod.fst i ys) : ys.Valid s where
  others x hx := h.others x ((mem_of_updatesOf hsame).mpr hx)
  ended := pairwise_of_updatesOf (fun _ _ hne _ => hne) hsame h.ended

theorem batch_frame (remains : ThreadRef → Thread → Thread) (ref : Fin maxThreadNum → ThreadRef)
    (s : State) (xs : Batch) :
    (applyAll (update remains ref) xs s).nextRef = s.nextRef ∧
      (applyAll (update remains ref) xs s).curRunning = s.curRunning ∧
        (applyAll (update remains ref) xs s).totalQuantum = s.totalQuantum := by
  refine applyAll_invariant
    (P := fun t : State => t.nextRef = s.nextRef ∧ t.curRunning = s.curRunning ∧
      t.totalQuantum = s.totalQuantum) ⟨rfl, rfl, rfl⟩ (fun x t ht => ?_) xs
  obtain ⟨hnext, hcur, htotal⟩ := ht
  obtain ⟨i, op⟩ := x
  cases op <;> exact ⟨hnext, hcur, htotal⟩

theorem batch_masked (remains : ThreadRef → Thread → Thread) (s : State)
    (x : Fin maxThreadNum × Operation) (xs : Batch) :
    (applyAll (update remains ref) (x :: xs) s).masked = false :=
  applyAll_invariant (P := fun t : State => t.masked = false) rfl (fun _ _ _ => rfl) xs

theorem batch_masked_eq (s : State)
    (hsame : ∀ i, updatesOf Prod.fst i xs = updatesOf Prod.fst i ys) :
    (applyAll (update remains ref) xs s).masked = (applyAll (update remains ref) ys s).masked := by
  cases xs with
  | nil =>
    have hnil : ys = [] := List.eq_nil_iff_forall_not_mem.mpr fun x hx => by
      cases (mem_of_updatesOf hsame).mpr hx
    rw [hnil]
  | cons x xs =>
    cases ys with
    | nil => cases (mem_of_updatesOf hsame).mp List.mem_cons_self
    | cons y ys => rw [batch_masked, batch_masked]

/-- Two interleavings of the same operations: both run, with the same answers, and they end in
the same state but for the order of the entries that they have appended. -/
theorem batches_interleave (h : Runs remains tr s) (hx : xs.Valid s)
    (hsame : ∀ i, updatesOf Prod.fst i xs = updatesOf Prod.fst i ys) :
    ∃ t u tail tail',
      Exec (step (uthreads remains)) s xs.calls t ∧
      Exec (step (uthreads remains)) s ys.calls u ∧
      t.readyQueue = s.readyQueue.filter (fun q => ¬ xs.Ends (threadIn s) q) ++ tail ∧
      u = { t with readyQueue :=
        s.readyQueue.filter (fun q => ¬ xs.Ends (threadIn s) q) ++ tail' } ∧
      tail.Perm tail' := by
  have hi := reachable_invariant h
  have hy := hx.interleave hsame
  have hxrun := batch_run remains hi (fun _ hz => hx.cells hz) hx.ended
  have hyrun := batch_run remains hi (fun _ hz => hy.cells hz) hy.ended
  obtain ⟨tail, htail⟩ := batch_queue remains (threadIn s) s xs
  obtain ⟨tail', htail'⟩ := batch_queue remains (threadIn s) s ys
  have hends : ∀ q, ys.Ends (threadIn s) q ↔ xs.Ends (threadIn s) q := fun q =>
    exists_congr fun x => and_congr_left fun _ => (mem_of_updatesOf hsame).symm
  simp only [hends] at htail'
  have hrename : ∀ x ∈ xs, ∀ y ∈ xs, threadIn s x.1 = threadIn s y.1 → x.1 = y.1 := by
    intro x hxs y hys heq
    exact hi.distinct _ _ _ (hx.cells hxs).2.1 (heq ▸ (hx.cells hys).2.1)
  have hrecord : ∀ q, recordView (applyAll (update remains (threadIn s)) xs s) q =
      recordView (applyAll (update remains (threadIn s)) ys s) q := fun q =>
    (record_local remains (threadIn s)).interleave s (updatesOf_rename hrename hsame q)
  have hcells : (applyAll (update remains (threadIn s)) xs s).allThreads =
      (applyAll (update remains (threadIn s)) ys s).allThreads :=
    funext fun i => (cell_local remains (threadIn s)).interleave s (hsame i)
  refine ⟨_, _, tail, tail', hxrun, hyrun, htail, ?_, ?_⟩
  · obtain ⟨hnext, hcur, htotal⟩ := batch_frame remains (threadIn s) s xs
    obtain ⟨hnext', hcur', htotal'⟩ := batch_frame remains (threadIn s) s ys
    have hxi := hxrun.invariant hi fun _ _ _ _ => step_preserves_invariant
    have hyi := hyrun.invariant hi fun _ _ _ _ => step_preserves_invariant
    apply State.ext
    case heap => exact funext fun q => (congrArg (fun v => v.1.1) (hrecord q)).symm
    case nextRef => exact hnext'.trans hnext.symm
    case deleted => exact funext fun q => (congrArg (fun v => v.1.2.1) (hrecord q)).symm
    case blockedID =>
      ext q
      have hset := congrArg (fun v => v.1.2.2) (hrecord q)
      simpa only [recordView, view, decide_eq_decide] using hset.symm
    case readyQueue => exact htail'
    case allThreads => exact hcells.symm
    case countReady =>
      refine hyi.count_cells.trans (Eq.trans ?_ hxi.count_cells.symm)
      rw [hcells]
    case curRunning => exact hcur'.trans hcur.symm
    case totalQuantum => exact htotal'.trans htotal.symm
    case masked => exact (batch_masked_eq s hsame).symm
  · apply (List.perm_append_left_iff _).mp
    rw [← htail, ← htail']
    exact List.perm_iff_count.mpr fun q => congrArg Prod.snd (hrecord q)

/-- Thread 2 ends, and the others are requeued in either order. -/
theorem batches_interleave_two_resumes :
    let s := after freedRecord initial
      [.call (.spawn (some 7)), .call (.spawn (some 8)), .call (.spawn (some 9))]
    let xs : Batch := [(1, .block), (2, .terminate), (1, .resume), (3, .block), (3, .resume)]
    let ys : Batch := [(3, .block), (1, .block), (3, .resume), (1, .resume), (2, .terminate)]
    ∃ t u tail tail',
      Exec (step (uthreads freedRecord)) s xs.calls t ∧
      Exec (step (uthreads freedRecord)) s ys.calls u ∧
      t.readyQueue = [1, 3] ++ tail ∧ u = { t with readyQueue := [1, 3] ++ tail' } ∧
      tail.Perm tail' := by
  intro s xs ys
  have hothers : ∀ x ∈ xs, x.1 ≠ 0 ∧ s.allThreads x.1 = some (threadIn s x.1) ∧
      s.curRunning ≠ some (threadIn s x.1) := by decide +kernel
  have hvalid : xs.Valid s :=
    ⟨fun x hx => ⟨(hothers x hx).1, _, (hothers x hx).2⟩, by decide +kernel⟩
  have hkept : s.readyQueue.filter (fun q => ¬ xs.Ends (threadIn s) q) = [1, 3] := by
    decide +kernel
  have hsame : ∀ i, updatesOf Prod.fst i xs = updatesOf Prod.fst i ys := by decide +kernel
  have h := batches_interleave (runs_history freedRecord _ (by decide +kernel)) hvalid hsame
  rw [hkept] at h
  exact h

end Interleavings

end OperationBatches
