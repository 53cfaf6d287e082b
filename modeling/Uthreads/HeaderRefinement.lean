import Uthreads.EagerScheduler
import Uthreads.HeaderSpec
import Uthreads.Progress

/-! # The library refines its header

In runs whose switches pick plainly and that keep one thread running, every answer of the
library is one that the header permits. A cell of the table becomes a task, and the entries
that an eager scheduler would have kept become the READY list. -/
namespace HeaderRefinement

open ThreadLibrary SwitchSemantics CallEffects EventRuns ThreadInvariant ThreadTable
  CallContract ThreadConservation EagerScheduler Progress HeaderSpec LazyQueue

def taskOf (t : Thread) : Task :=
  ⟨decide (t.status = .blocked), if t.isSleep then some t.waitingTime else none, t.quantum⟩

/-- The caller reads a number or a failure, and sees which thread runs now. A call in which
that thread was switched out answers it 0, the success of the header. -/
inductive Reads (t : State) : Outcome → Answer → Prop where
  | returned (v) : Reads t (.returned v) (.returned v)
  | failed (e) : Reads t (.failed e) .failed
  | switched {next v i} : t.allThreads i = some next → v = none ∨ v = some 0 →
      Reads t (.dispatched next v) (.switched i)

structure Abstracts (s : State) (a : Board) : Prop where
  task : ∀ i, a.task i = (s.allThreads i).map fun r => taskOf (s.heap r)
  running : s.allThreads a.running = s.curRunning
  ready : a.ready.map s.allThreads = (standing (Ready s) s.readyQueue).map some
  total : a.total = s.totalQuantum

/-- Both conditions under which the code does what it is meant to do. -/
def Orderly (remains : ThreadRef → Thread → Thread) (s : State) (e : Event) : Prop :=
  PicksPlainly remains s e ∧ KeepsOneRunning s e

variable {remains : ThreadRef → Thread → Thread} {s s' t : State} {a : Board} {c r : ThreadRef}
  {e : Event} {o : Outcome} {i j : Tid} {tr : List (Event × Outcome)}

section Cells

theorem Abstracts.task_some (h : Abstracts s a) (hi : s.allThreads i = some r) :
    a.task i = some (taskOf (s.heap r)) := by rw [h.task, hi]; rfl

theorem Abstracts.task_none (h : Abstracts s a) : a.task i = none ↔ s.allThreads i = none := by
  rw [h.task, Option.map_eq_none_iff]

theorem Abstracts.absent (h : Abstracts s a) {tid : ℤ} (ht : ∀ r, ¬ s.At tid r) :
    a.Absent tid := by
  intro i hi
  rw [h.task_none]
  cases hc : s.allThreads i with
  | none => rfl
  | some r => exact (ht r ⟨i, hi, hc⟩).elim

theorem Abstracts.running_iff (h : Abstracts s a) (hi : Invariant s) (hc : s.curRunning = some c)
    (hr : s.allThreads i = some r) : i = a.running ↔ r = c := by
  have hcell : s.allThreads a.running = some c := h.running.trans hc
  constructor
  · rintro rfl
    exact Option.some.inj (hr.symm.trans hcell)
  · rintro rfl
    exact hi.distinct i a.running r hr hcell

theorem Abstracts.mem_ready (h : Abstracts s a) (hi : Invariant s)
    (hr : s.allThreads i = some r) : i ∈ a.ready ↔ r ∈ standing (Ready s) s.readyQueue := by
  have hmap : some r ∈ a.ready.map s.allThreads ↔ r ∈ standing (Ready s) s.readyQueue := by
    rw [h.ready]
    simp
  rw [← hmap, List.mem_map]
  constructor
  · exact fun hm => ⟨i, hm, hr⟩
  · rintro ⟨j, hj, hjr⟩
    rwa [hi.distinct i j r hr hjr]

/-- One record changes and the table does not. -/
theorem Abstracts.set_task (h : Abstracts s a) (hi : Invariant s)
    (hr : s.allThreads i = some r) (htable : t.allThreads = s.allThreads)
    (hheap : ∀ q, q ≠ r → t.heap q = s.heap q) {k : Task} (hk : taskOf (t.heap r) = k) (j : Tid) :
    (a.set i (some k)).task j = (t.allThreads j).map fun q => taskOf (t.heap q) := by
  rw [htable]
  by_cases hj : j = i
  · subst hj
    rw [set_task_self, hr, ← hk]
    rfl
  · rw [set_task_of_ne a _ hj, h.task]
    cases hq : s.allThreads j with
    | none => rfl
    | some q =>
      have hqr : q ≠ r := by
        rintro rfl
        exact hj (hi.distinct j i q hq hr)
      simp only [Option.map_some, hheap q hqr]

/-- The READY list without one identifier is the queue without one record. -/
theorem map_filter_ne {ready : List Tid} {queue : List ThreadRef} {cell : Tid → Option ThreadRef}
    (hmap : ready.map cell = queue.map some) (hcell : ∀ j, cell j = some r ↔ j = i) :
    (ready.filter (· ≠ i)).map cell = (queue.filter (· ≠ r)).map some := by
  induction ready generalizing queue with
  | nil =>
    cases queue with
    | nil => rfl
    | cons q queue => cases hmap
  | cons j ready ih =>
    cases queue with
    | nil => cases hmap
    | cons q queue =>
      obtain ⟨hq, hrest⟩ := List.cons.inj hmap
      have hiff : q = r ↔ j = i := by
        rw [← hcell, hq, Option.some.injEq]
      by_cases hj : j = i
      · rw [List.filter_cons_of_neg (by simpa using hj),
          List.filter_cons_of_neg (by simpa using hiff.mpr hj)]
        exact ih hrest
      · rw [List.filter_cons_of_pos (by simpa using hj),
          List.filter_cons_of_pos (by simpa using fun hqr => hj (hiff.mp hqr)), List.map_cons,
          List.map_cons, hq, ih hrest]

/-- Every list of live records is a list of cells. -/
theorem exists_cells {l : List ThreadRef} (h : ∀ r ∈ l, s.Live r) :
    ∃ tids : List Tid, tids.map s.allThreads = l.map some := by
  induction l with
  | nil => exact ⟨[], rfl⟩
  | cons r l ih =>
    obtain ⟨i, hi⟩ := h r List.mem_cons_self
    obtain ⟨tids, ht⟩ := ih fun q hq => h q (List.mem_cons_of_mem r hq)
    exact ⟨i :: tids, by rw [List.map_cons, List.map_cons, hi, ht]⟩

theorem mem_cells {tids : List Tid} {l : List ThreadRef} (hd : State.Distinct s)
    (h : tids.map s.allThreads = l.map some) :
    j ∈ tids ↔ ∃ r, s.allThreads j = some r ∧ r ∈ l := by
  have hmem : ∀ r, some r ∈ tids.map s.allThreads ↔ r ∈ l := by
    intro r
    rw [h]
    simp
  constructor
  · intro hj
    have hcell : s.allThreads j ∈ l.map some := h ▸ List.mem_map_of_mem hj
    obtain ⟨r, hr, hjr⟩ := List.mem_map.mp hcell
    exact ⟨r, hjr.symm, hr⟩
  · rintro ⟨r, hj, hr⟩
    obtain ⟨k, hk, hkr⟩ := List.mem_map.mp ((hmem r).mpr hr)
    exact hd j k r hj hkr ▸ hk

theorem nodup_cells {tids : List Tid} {l : List ThreadRef}
    (h : tids.map s.allThreads = l.map some) (hl : l.Nodup) : tids.Nodup := by
  have hcells : (tids.map s.allThreads).Nodup := by
    rw [h]
    exact hl.map (Option.some_injective _)
  exact hcells.of_map

end Cells

section Returning

/-- What is known about a state of such a run. -/
structure Good (s : State) : Prop where
  inv : Invariant s
  queue_live : QueueLive s
  one_runs : OneRuns s
  plain : ∃ s', Matches s s'

theorem Good.tidy (h : Good s) : Tidy s := by
  obtain ⟨s', hm⟩ := h.plain
  exact hm.tidy

theorem abstracts_mask (h : Abstracts s a) (b : Bool) : Abstracts { s with masked := b } a :=
  ⟨h.task, h.running, h.ready, h.total⟩

theorem outcome_eq {call : Call} {o' : Outcome} {t' : State}
    (hs : step (uthreads remains) s (.call call) = .ok (o, t))
    (hs' : step (uthreads remains) s (.call call) = .ok (o', t')) : o' = o :=
  congrArg Prod.fst (Except.ok.inj (hs'.symm.trans hs))

/-- A call that changes nothing is an error of the header or a question about the state. -/
theorem idle_permits (hi : Invariant s) (h : Abstracts s a) {call : Call}
    (hidle : Idle s call) (hs : step (uthreads remains) s (.call call) = .ok (o, t)) :
    ∃ x, Reads t o x ∧ Permits a (.call call) x a := by
  obtain ⟨c, hc, hlive⟩ := hi.current_live
  have hrejected : Rejected s call → a.Error call → ∃ x, Reads t o x ∧
      Permits a (.call call) x a := by
    intro hr he
    obtain ⟨err, hs'⟩ := rejected_step remains hi hr
    rw [← outcome_eq hs hs']
    exact ⟨_, .failed err, .error he⟩
  cases call with
  | spawn entryPoint =>
    have hr : Refuses s entryPoint := hidle.imp_right hi.count_full.mp
    obtain ⟨err, hs'⟩ := spawn_refused remains hi.toTable hr
    rw [← outcome_eq hs hs']
    refine ⟨_, .failed err, .error (hr.imp_right fun hfull i hnone => ?_)⟩
    exact hfull i (h.task_none.mp hnone)
  | getTid =>
    have hs' : step (uthreads remains) s (.call .getTid) = .ok (.returned (s.heap c).id, s) := by
      simp only [step, request, uthreadGetTid, hc, deref_some, ok_bind, pure_ok]
    rw [← outcome_eq hs hs', hi.cell_id _ c (h.running.trans hc)]
    exact ⟨_, .returned _, .getTid⟩
  | getTotalQuantums =>
    have hs' : step (uthreads remains) s (.call .getTotalQuantums) =
        .ok (.returned s.totalQuantum, s) := rfl
    rw [← outcome_eq hs hs', ← h.total]
    exact ⟨_, .returned _, .getTotalQuantums⟩
  | getQuantums tid =>
    rcases checkValidTid_cases s tid with ⟨r, hr⟩ | ⟨hnone, err, he⟩
    · obtain ⟨i, rfl, hir⟩ := hr
      have hs' : step (uthreads remains) s (.call (.getQuantums (i : ℕ))) =
          .ok (.returned (s.heap r).quantum, s) := by
        simp only [step, request, uthreadGetQuantums_ok ⟨i, rfl, hir⟩, ok_bind, pure_ok]
      rw [← outcome_eq hs hs']
      exact ⟨_, .returned _, .getQuantums (h.task_some hir)⟩
    · have hs' : step (uthreads remains) s (.call (.getQuantums tid)) = .ok (.failed err, s) := by
        simp only [step, request, uthreadGetQuantums_invalid he, ok_bind, pure_ok]
      rw [← outcome_eq hs hs']
      exact ⟨_, .failed err, .error (h.absent hnone)⟩
  | terminate tid => exact hrejected hidle (h.absent hidle)
  | resume tid => exact hrejected hidle (h.absent hidle)
  | block tid => exact hrejected hidle (hidle.imp_right h.absent)
  | sleep n =>
    refine hrejected hidle (hidle.imp_right ?_)
    rintro ⟨d, hd, hid⟩
    have hcell := h.running.trans hd
    rw [hi.cell_id _ d hcell] at hid
    exact Fin.ext (by simpa using hid)

theorem spawn_permits (hg : Good s) (h : Abstracts s a) (hfree : FirstFree s i) (pc : ℕ) :
    Permits a (.call (.spawn (some pc))) (.returned (i : ℕ))
        ((a.set i (some (Task.start 0))).enqueue i) ∧
      Abstracts (unmaskSignals (spawned i pc s)) ((a.set i (some (Task.start 0))).enqueue i) := by
  refine ⟨.spawn (h.task_none.mpr hfree.2.1), abstracts_mask (s := spawned i pc s) ?_ false⟩
  obtain ⟨s', hm⟩ := hg.plain
  have hother : ∀ {j}, s.allThreads j ≠ none → (spawned i pc s).allThreads j = s.allThreads j := by
    intro j hj
    refine spawned_cell_of_ne pc s ?_
    rintro rfl
    exact hj hfree.2.1
  constructor
  case task =>
    intro j
    change (a.set i (some (Task.start 0))).task j = _
    by_cases hj : j = i
    · subst hj
      rw [set_task_self, spawned_cell, Option.map_some, spawned_self]
      rfl
    · rw [set_task_of_ne a _ hj, spawned_cell_of_ne pc s hj, h.task]
      cases hq : s.allThreads j with
      | none => rfl
      | some q => simp only [Option.map_some, spawned_of_ne (hg.inv.ne_fresh ⟨j, hq⟩)]
  case running =>
    obtain ⟨c, hc, _⟩ := hg.inv.current_live
    have hrun : s.allThreads a.running ≠ none := by
      rw [h.running, hc]
      simp
    exact (hother hrun).trans h.running
  case ready =>
    have hqueue : s'.readyQueue ++ [s'.nextRef] =
        standing (Ready (spawned i pc s)) (spawned i pc s).readyQueue :=
      (matches_spawned hm hg.inv i pc).queue
    rw [← hqueue, hm.queue, hm.alike.nextRef, List.map_append, ← h.ready]
    change (a.ready ++ [i]).map _ = _
    rw [List.map_append, List.map_singleton, List.map_singleton, spawned_cell]
    congr 1
    apply List.map_congr_left
    intro j hj
    apply hother
    have hmem : s.allThreads j ∈ a.ready.map s.allThreads := List.mem_map_of_mem hj
    rw [h.ready] at hmem
    intro hnone
    rw [hnone] at hmem
    simp at hmem
  case total => exact h.total

theorem block_permits (hg : Good s) (h : Abstracts s a) (hc : s.curRunning = some c)
    (hr : s.allThreads i = some r) (h0 : i ≠ 0) (hrc : r ≠ c) :
    ∃ b, Permits a (.call (.block (i : ℕ))) (.returned 0) b ∧
      Abstracts (unmaskSignals (blocked r s)) b := by
  obtain ⟨s', hm⟩ := hg.plain
  have hne : i ≠ a.running := fun hi => hrc ((h.running_iff hg.inv hc hr).mp hi)
  refine ⟨_, .block (h.task_some hr) h0 hne, abstracts_mask (s := blocked r s) ?_ false⟩
  constructor
  case task =>
    intro j
    refine h.set_task (t := blocked r s) hg.inv hr rfl (fun q hq => blocked_of_ne hq) ?_ j
    rw [blocked_self]
    rfl
  case running => exact h.running
  case ready =>
    have hqueue : s'.readyQueue.filter (· ≠ r) =
        standing (Ready (blocked r s)) (blocked r s).readyQueue := (matches_blocked hm r).queue
    rw [← hqueue, hm.queue]
    apply map_filter_ne h.ready
    exact fun j => ⟨fun hj => hg.inv.distinct j i r hj hr, fun hj => hj ▸ hr⟩
  case total => exact h.total

variable (remains) in
theorem terminate_permits (hg : Good s) (h : Abstracts s a) (hc : s.curRunning = some c)
    (hr : s.allThreads i = some r) (h0 : i ≠ 0) (hrc : r ≠ c) :
    ∃ b, Permits a (.call (.terminate (i : ℕ))) (.returned 0) b ∧
      Abstracts (unmaskSignals (terminated remains i r s)) b := by
  obtain ⟨s', hm⟩ := hg.plain
  have hne : i ≠ a.running := fun hi => hrc ((h.running_iff hg.inv hc hr).mp hi)
  refine ⟨_, .terminate (h.task_some hr) h0 hne,
    abstracts_mask (s := terminated remains i r s) ?_ false⟩
  have hcell : ∀ j, s.allThreads j = some r ↔ j = i :=
    fun j => ⟨fun hj => hg.inv.distinct j i r hj hr, fun hj => hj ▸ hr⟩
  constructor
  case task =>
    intro j
    change (a.set i none).task j = _
    by_cases hj : j = i
    · subst hj
      rw [set_task_self, terminated_cell]
      rfl
    · rw [set_task_of_ne a _ hj, terminated_cell_of_ne remains r s hj, h.task]
      cases hq : s.allThreads j with
      | none => rfl
      | some q =>
        have hqr : q ≠ r := by
          rintro rfl
          exact hj ((hcell j).mp hq)
        have hheap : (terminated remains i r s).heap q = s.heap q := terminated_of_ne hqr
        simp only [Option.map_some, hheap]
  case running => exact (terminated_cell_of_ne remains r s (Ne.symm hne)).trans h.running
  case ready =>
    have hqueue : s'.readyQueue.filter (· ≠ r) =
        standing (Ready (terminated remains i r s)) (terminated remains i r s).readyQueue :=
      (matches_terminated remains hm i r).queue
    rw [← hqueue, hm.queue, ← map_filter_ne h.ready hcell]
    apply List.map_congr_left
    intro j hj
    exact terminated_cell_of_ne remains r s (by simpa using (List.mem_filter.mp hj).2)
  case total => exact h.total

theorem resumed_standing (hg : Good s) (hr : s.Live r) :
    standing (Ready (resumed r s)) (resumed r s).readyQueue =
      standing (Ready s) s.readyQueue ++ if Requeues s r then [r] else [] := by
  obtain ⟨s', hm⟩ := hg.plain
  have hd := hg.inv.live_not_deleted r hr
  rw [← (matches_resumed hm hg.inv hr).queue, resumed_readyQueue, hm.queue]
  simp only [hm.alike.requeues hd]

theorem resume_permits (hg : Good s) (h : Abstracts s a) (hr : s.allThreads i = some r) :
    ∃ b, Permits a (.call (.resume (i : ℕ))) (.returned 0) b ∧
      Abstracts (unmaskSignals (resumed r s)) b := by
  have hset : ∀ k, taskOf ((resumed r s).heap r) = k → ∀ j,
      (a.set i (some k)).task j =
        ((resumed r s).allThreads j).map fun q => taskOf ((resumed r s).heap q) :=
    fun k hk => h.set_task (t := resumed r s) hg.inv hr rfl (fun q hq => resumed_of_ne hq) hk
  have hready := resumed_standing hg ⟨i, hr⟩
  have hk := h.task_some hr
  have hafter : taskOf ((resumed r s).heap r) = { taskOf (s.heap r) with blocked := false } := by
    rw [resumed_self]
    rfl
  by_cases hb : (s.heap r).status = .blocked
  · have hblocked : (taskOf (s.heap r)).blocked = true := by simp [taskOf, hb]
    cases hs : (s.heap r).isSleep with
    | false =>
      have hsleep : (taskOf (s.heap r)).sleep = none := by simp [taskOf, hs]
      refine ⟨_, .resume hk hblocked hsleep, abstracts_mask (s := resumed r s) ?_ false⟩
      refine ⟨hset _ hafter, h.running, ?_, h.total⟩
      rw [hready, if_pos ⟨hs, hb⟩, List.map_append, ← h.ready]
      change (a.ready ++ [i]).map s.allThreads = _
      rw [List.map_append, List.map_singleton, hr]
      rfl
    | true =>
      have hsleep : (taskOf (s.heap r)).sleep = some (s.heap r).waitingTime := by
        simp [taskOf, hs]
      have hq : ¬ Requeues s r := by
        rintro ⟨hawake, _⟩
        rw [hs] at hawake
        cases hawake
      refine ⟨_, .resumeAsleep hk hblocked hsleep, abstracts_mask (s := resumed r s) ?_ false⟩
      refine ⟨hset _ hafter, h.running, ?_, h.total⟩
      rw [hready, if_neg hq, List.append_nil]
      exact h.ready
  · have hblocked : (taskOf (s.heap r)).blocked = false := by simp [taskOf, hb]
    have hq : ¬ Requeues s r := fun hq => hb hq.2
    have hself : (a.set i (some (taskOf (s.heap r)))).task = a.task := by
      rw [← hk]
      exact Function.update_eq_self i a.task
    refine ⟨_, .resumeIdle hk hblocked, abstracts_mask (s := resumed r s) ?_ false⟩
    refine ⟨?_, h.running, ?_, h.total⟩
    · rw [← hself]
      apply hset
      rw [hafter, ← hblocked]
    · rw [hready, if_neg hq, List.append_nil]
      exact h.ready

/-- Every call that comes back is permitted. -/
theorem quiet_permits (hg : Good s) (h : Abstracts s a) {call : Call}
    (hs : step (uthreads remains) s (.call call) = .ok (o, t)) (hq : Quiet remains s call o t) :
    ∃ x b, Reads t o x ∧ Permits a (.call call) x b ∧ Abstracts t b := by
  obtain ⟨c, hc, _⟩ := hg.inv.current_live
  have hcur : ∀ {d}, s.curRunning = some d → d = c := fun hd =>
    Option.some.inj (hd.symm.trans hc)
  cases hq with
  | idle b hidle =>
    obtain ⟨x, hread, hpermit⟩ := idle_permits hg.inv h hidle hs
    exact ⟨x, a, hread, hpermit, abstracts_mask h b⟩
  | @spawn pc i hfree =>
    obtain ⟨hpermit, habs⟩ := spawn_permits hg h hfree pc
    exact ⟨_, _, .returned _, hpermit, habs⟩
  | @block tid r d hr h0 hd hne =>
    obtain ⟨i, rfl, hir⟩ := hr
    have hrc : r ≠ c := fun hrc => hne (hrc.trans (hcur hd).symm)
    obtain ⟨b, hpermit, habs⟩ := block_permits hg h hc hir (by rintro rfl; exact h0 rfl) hrc
    exact ⟨_, b, .returned 0, hpermit, habs⟩
  | @resume tid r hr =>
    obtain ⟨i, rfl, hir⟩ := hr
    obtain ⟨b, hpermit, habs⟩ := resume_permits hg h hir
    exact ⟨_, b, .returned 0, hpermit, habs⟩
  | @terminate i r d hr h0 hd hne =>
    have hrc : r ≠ c := fun hrc => hne (hrc.trans (hcur hd).symm)
    obtain ⟨b, hpermit, habs⟩ := terminate_permits remains hg h hc hr h0 hrc
    exact ⟨_, b, .returned 0, hpermit, habs⟩

end Returning

section Deciding

/-- The board of the header between the leave of the caller and the decision. -/
structure Leaves (s : State) (c : ThreadRef) (a : Board) : Prop where
  task : ∀ i, a.task i = (s.allThreads i).map fun r => taskOf (s.heap r)
  ready : a.ready.map s.allThreads =
    (standing (fun r => statusAtPick s c r = .ready) (queueAtPick s c)).map some
  total : a.total = s.totalQuantum

/-- What a switch makes of the queue, seen without the stale entries. -/
theorem switch_standing {ctx : Context} {next : ThreadRef} (hs : Consistent s) (ht : Tidy s)
    (hlive : ∀ r ∈ queueAtPick s c, s.Live r) (hplain : PlainPick s c)
    (hpop : ∃ r ∈ queueAtPick s c, statusAtPick s c r = .ready) (hsw : Switch s c ctx next t) :
    ∃ rest woke,
      standing (fun r => statusAtPick s c r = .ready) (queueAtPick s c) = next :: rest ∧
      standing (Ready t) t.readyQueue = rest ++ woke ∧ woke.Nodup ∧
      ∀ r, r ∈ woke ↔ s.Live r ∧ Due (s.heap r) ∧ (t.heap r).status = .ready := by
  obtain ⟨rest, woke, hp, hq, hnodup, hwoke⟩ := hsw.queue
  obtain ⟨hnext, hstanding⟩ := picks_standing hs hlive hplain hp
  have hhead := hstanding.resolve_right fun ⟨hnil, _⟩ => by
    obtain ⟨r, hr, hst⟩ := hpop
    have hmem : r ∈ standing (fun r => statusAtPick s c r = .ready) (queueAtPick s c) :=
      mem_standing.mpr ⟨hst, hr⟩
    rw [hnil] at hmem
    cases hmem
  refine ⟨_, woke, hhead, ?_, hnodup, hwoke⟩
  rw [hq, standing_append_nodup]
  · congr 1
    apply standing_congr
    intro r hr
    have hne : r ≠ next := by rintro rfl; exact hnext hr
    rw [Ready, hsw.status, if_neg hne]
  · exact fun r hr => ((hwoke r).mp hr).2.2
  · exact hnodup
  · -- a thread that wakes was asleep, and queued threads are awake
    intro r hr hrest
    obtain ⟨hl, hdue, _⟩ := (hwoke r).mp hr
    have hawake := (tidy_queueAtPick ht (picks_rest_subset hp hrest)).2
    simp only [Due, hawake, hs.awake_clock r hl hawake] at hdue
    omega

theorem taskOf_switch {ctx : Context} {next : ThreadRef} (hs : Consistent s)
    (hsw : Switch s c ctx next t) (hr : s.Live r)
    (hnext : (s.heap next).status ≠ .blocked) {mine : Bool} (hmine : mine = true ↔ r = next) :
    taskOf (t.heap r) = (taskOf (s.heap r)).tick mine := by
  obtain ⟨hf, hw⟩ := hsw.clock r hr
  have hblocked : (t.heap r).status = .blocked ↔ (s.heap r).status = .blocked := by
    rw [hsw.status]
    by_cases hrn : r = next
    · subst hrn
      rw [if_pos rfl]
      exact iff_of_false (by simp) hnext
    · rw [if_neg hrn, statusAtPick_blocked]
  have hquantum : (t.heap r).quantum = (s.heap r).quantum + if mine = true then 1 else 0 := by
    rw [hsw.quantum]
    simp only [hmine]
  have hsleep : (if (t.heap r).isSleep = true then some (t.heap r).waitingTime else none) =
      ((taskOf (s.heap r)).tick mine).sleep := by
    cases hb : (s.heap r).isSleep with
    | false =>
      rw [hf, tick_awake hb (hs.awake_clock r hr hb), hb]
      simp [taskOf, Task.tick, hb]
    | true =>
      rw [hf, hw, (tick_sleeping hb).1, (tick_sleeping hb).2]
      by_cases h1 : (s.heap r).waitingTime = 1 <;> simp [taskOf, Task.tick, hb, h1]
  simp only [taskOf] at hsleep ⊢
  simp only [Task.tick] at hsleep ⊢
  rw [hsleep, hquantum]
  simp only [hblocked]

theorem task_sleep_one (hs : Consistent s) (hr : s.Live r) :
    (taskOf (s.heap r)).sleep = some 1 ↔ Due (s.heap r) := by
  cases hb : (s.heap r).isSleep with
  | false => simp [taskOf, Due, hb, hs.awake_clock r hr hb]
  | true =>
    simp only [taskOf, Due, hb, if_true, Option.some.injEq]
    omega

theorem tasks_switch {ctx : Context} {next : ThreadRef} (hs : Consistent s)
    (hsw : Switch s c ctx next t) (h : Leaves s c a) (hi : s.allThreads i = some next)
    (hnext : (s.heap next).status ≠ .blocked) (j : Tid) :
    (a.task j).map (fun k => k.tick (decide (j = i))) =
      (t.allThreads j).map fun r => taskOf (t.heap r) := by
  rw [hsw.allThreads, h.task]
  cases hj : s.allThreads j with
  | none => rfl
  | some r =>
    have hmine : decide (j = i) = true ↔ r = next := by
      rw [decide_eq_true_eq]
      constructor
      · rintro rfl
        exact Option.some.inj (hj.symm.trans hi)
      · rintro rfl
        exact hs.distinct j i r hj hi
    exact congrArg some (taskOf_switch hs hsw ⟨j, hj⟩ hnext hmine).symm

/-- The sleepers that the switch puts back are those that the header wakes. -/
theorem wakes_iff {ctx : Context} {next : ThreadRef} (hs : Consistent s)
    (hsw : Switch s c ctx next t) (hr : s.Live r) (hstop : statusAtPick s c r ≠ .running)
    (hnext : (s.heap next).status ≠ .blocked) (hawake : ¬ Due (s.heap next)) :
    Due (s.heap r) ∧ (t.heap r).status = .ready ↔
      (taskOf (s.heap r)).sleep = some 1 ∧ (taskOf (s.heap r)).blocked = false := by
  rw [task_sleep_one hs hr]
  refine and_congr_right fun hdue => ?_
  have hne : r ≠ next := by
    rintro rfl
    exact hawake hdue
  have hblocked := statusAtPick_blocked s c r
  rw [hsw.status, if_neg hne]
  cases hst : statusAtPick s c r with
  | ready =>
    have hb : (s.heap r).status ≠ .blocked := fun hb => by cases hst.symm.trans (hblocked.mpr hb)
    exact iff_of_true rfl (by simp [taskOf, hb])
  | running => exact (hstop hst).elim
  | blocked => exact iff_of_false (by simp) (by simp [taskOf, hblocked.mp hst])

/-- A switch is a decision that the header permits. -/
theorem dispatch_starts {ctx : Context} {next : ThreadRef} (hs : Consistent s) (ht : Tidy s)
    (hlive : ∀ r ∈ queueAtPick s c, s.Live r) (hplain : PlainPick s c)
    (hpop : ∃ r ∈ queueAtPick s c, statusAtPick s c r = .ready)
    (hstop : ∀ r, s.Live r → statusAtPick s c r ≠ .running) (h : Leaves s c a)
    (hsw : Switch s c ctx next t) :
    ∃ i b, t.allThreads i = some next ∧ Starts a i b ∧ Abstracts t b := by
  obtain ⟨rest, woke, hhead, hqueue, hnodup, hwoke⟩ := switch_standing hs ht hlive hplain hpop hsw
  have hstanding : next ∈ standing (fun r => statusAtPick s c r = .ready) (queueAtPick s c) := by
    rw [hhead]
    exact List.mem_cons_self
  obtain ⟨hready, hqueued⟩ := mem_standing.mp hstanding
  have hnext : (s.heap next).status ≠ .blocked := by
    rw [ne_eq, ← statusAtPick_blocked s c, hready]
    simp
  have hawake : ¬ Due (s.heap next) := by
    have hsleep := (tidy_queueAtPick ht hqueued).2
    simp only [Due, hsleep, hs.awake_clock next (hlive next hqueued) hsleep]
    omega
  have hmap := h.ready
  rw [hhead, List.map_cons] at hmap
  obtain ⟨i, tids, hlist, hi, htids⟩ := List.map_eq_cons_iff.mp hmap
  obtain ⟨wtids, hwtids⟩ := exists_cells fun r hr => ((hwoke r).mp hr).1
  have hwakes : ∀ j, j ∈ wtids ↔ ∃ k, a.task j = some k ∧ k.sleep = some 1 ∧
      k.blocked = false := by
    intro j
    rw [mem_cells hs.distinct hwtids, h.task]
    simp only [Option.map_eq_some_iff, exists_exists_and_eq_and]
    refine exists_congr fun r => and_congr_right fun hj => ?_
    have hr : s.Live r := ⟨j, hj⟩
    rw [hwoke, ← wakes_iff hs hsw hr (hstop r hr) hnext hawake]
    exact and_iff_right hr
  refine ⟨i, ⟨fun j => (a.task j).map fun k => k.tick (decide (j = i)), i, tids ++ wtids,
    a.total + 1⟩, by rw [hsw.allThreads]; exact hi, ?_, ?_⟩
  · exact ⟨⟨tids, wtids, hlist, rfl, nodup_cells hwtids hnodup, hwakes⟩, fun _ => rfl, rfl, rfl⟩
  · constructor
    case task => exact tasks_switch hs hsw h hi hnext
    case running =>
      rw [hsw.allThreads, hsw.curRunning]
      exact hi
    case ready =>
      rw [hsw.allThreads, hqueue, List.map_append, List.map_append, ← htids, ← hwtids]
    case total =>
      rw [hsw.totalQuantum]
      exact congrArg (· + 1) h.total

end Deciding

section Leaving

/-- The queue of the decision, when the caller is not put back. -/
theorem standing_stays (h : ¬ Preempts s c) :
    standing (fun r => statusAtPick s c r = .ready) (queueAtPick s c) =
      standing (Ready s) s.readyQueue := by
  rw [queueAtPick_of_stays h]
  apply standing_congr
  intro r _
  rw [statusAtPick_of_stays h, Ready]

theorem standing_preempts (ht : Tidy s) (hc : s.curRunning = some c) (h : Preempts s c) :
    standing (fun r => statusAtPick s c r = .ready) (queueAtPick s c) =
      standing (Ready s) s.readyQueue ++ [c] := by
  have hcq : c ∉ s.readyQueue := fun hq => (ht c hq).2.2 hc
  have hst : statusAtPick s c c = .ready := if_pos ⟨rfl, h⟩
  rw [queueAtPick, if_pos h, standing_append_new (by exact hst) hcq]
  congr 1
  apply standing_congr
  intro r hr
  rw [statusAtPick_of_ne (by rintro rfl; exact hcq hr), Ready]

theorem leaves_timer (hg : Good s) (h : Abstracts s a) (hc : s.curRunning = some c)
    (hp : Preempts s c) : Leaves s c (a.enqueue a.running) := by
  refine ⟨h.task, ?_, h.total⟩
  rw [standing_preempts hg.tidy hc hp, List.map_append, ← h.ready]
  change (a.ready ++ [a.running]).map _ = _
  rw [List.map_append, List.map_singleton, h.running, hc]
  rfl

theorem running_not_queued (hg : Good s) (hc : s.curRunning = some c) :
    (standing (Ready s) s.readyQueue).filter (· ≠ c) = standing (Ready s) s.readyQueue := by
  apply List.filter_eq_self.mpr
  intro r hr
  have hne : r ≠ c := by
    rintro rfl
    exact (hg.tidy r (mem_standing.mp hr).2).2.2 hc
  simpa using hne

theorem leaves_blocked (hg : Good s) (h : Abstracts s a) (hc : s.curRunning = some c) :
    Leaves (blocked c s) c
      (a.set a.running (some { taskOf (s.heap c) with blocked := true })) := by
  obtain ⟨s', hm⟩ := hg.plain
  refine ⟨?_, ?_, h.total⟩
  · apply h.set_task (t := blocked c s) hg.inv (h.running.trans hc) rfl
      (fun q hq => blocked_of_ne hq)
    rw [blocked_self]
    rfl
  · have hqueue : s'.readyQueue.filter (· ≠ c) =
        standing (Ready (blocked c s)) (blocked c s).readyQueue := (matches_blocked hm c).queue
    rw [standing_stays blocked_stays, ← hqueue, hm.queue, running_not_queued hg hc]
    exact h.ready

theorem leaves_asleep (hg : Good s) (h : Abstracts s a) (hc : s.curRunning = some c) (n : ℤ) :
    Leaves (asleep n c s) c
      (a.set a.running (some { taskOf (s.heap c) with sleep := some n })) := by
  obtain ⟨s', hm⟩ := hg.plain
  refine ⟨?_, ?_, h.total⟩
  · apply h.set_task (t := asleep n c s) hg.inv (h.running.trans hc) rfl
      (fun q hq => asleep_of_ne hq)
    have hb := hg.inv.current_unblocked c hc
    rw [asleep_self]
    simp [taskOf, hb]
  · have hqueue : s'.readyQueue = standing (Ready (asleep n c s)) (asleep n c s).readyQueue :=
      (matches_asleep hm hc n).queue
    rw [standing_stays asleep_stays, ← hqueue, hm.queue]
    exact h.ready

theorem leaves_terminated (hn : NeverRunning remains) (hg : Good s) (h : Abstracts s a)
    (hi : s.allThreads i = some c) (hc : s.curRunning = some c) :
    Leaves (terminated remains i c s) c (a.set a.running none) := by
  obtain ⟨s', hm⟩ := hg.plain
  have hrun : a.running = i := ((h.running_iff hg.inv hc hi).mpr rfl).symm
  refine ⟨fun j => ?_, ?_, h.total⟩
  · rw [hrun]
    by_cases hj : j = i
    · subst hj
      rw [set_task_self, terminated_cell]
      rfl
    · rw [set_task_of_ne a _ hj, terminated_cell_of_ne remains c s hj, h.task]
      cases hq : s.allThreads j with
      | none => rfl
      | some q =>
        have hqc : q ≠ c := by
          rintro rfl
          exact hj (hg.inv.distinct j i q hq hi)
        have hheap : (terminated remains i c s).heap q = s.heap q := terminated_of_ne hqc
        simp only [Option.map_some, hheap]
  · have hqueue : s'.readyQueue.filter (· ≠ c) =
        standing (Ready (terminated remains i c s)) (terminated remains i c s).readyQueue :=
      (matches_terminated remains hm i c).queue
    rw [standing_stays (exit_stays hn i c s), ← hqueue, hm.queue, running_not_queued hg hc,
      ← h.ready]
    apply List.map_congr_left
    intro j hj
    refine terminated_cell_of_ne remains c s ?_
    rintro rfl
    have hmem := (h.mem_ready hg.inv hi).mp hj
    exact (hg.tidy c (mem_standing.mp hmem).2).2.2 hc

/-- In a run that keeps one thread running, a timer signal finds the thread awake: main is
READY in the queue otherwise. -/
theorem timer_preempts (hg : Good s) (hc : s.curRunning = some c)
    (hk : KeepsOneRunning s .timer) : Preempts s c := by
  obtain ⟨d, hd, _, hrun⟩ := hg.one_runs.current
  obtain rfl : c = d := Option.some.inj (hc.symm.trans hd)
  obtain ⟨m, hm⟩ := hg.inv.main_cell
  by_cases hmc : s.curRunning = some m
  · obtain rfl : c = m := Option.some.inj (hc.symm.trans hmc)
    exact ⟨hrun, hg.inv.main_awake c hm⟩
  · refine ⟨hrun, (hk c hc).resolve_right ?_⟩
    rintro ⟨_, hnone⟩
    rcases (hg.one_runs.others m ⟨0, hm⟩ hmc).found with hb | hsleep | ⟨hready, hq⟩
    · exact hg.inv.main_unblocked m hm hb
    · rw [hg.inv.main_awake m hm] at hsleep
      cases hsleep
    · exact hnone m hq hready

theorem enters_leaves (hn : NeverRunning remains) (hg : Good s) (h : Abstracts s a)
    (hk : KeepsOneRunning s e) {ctx : Context} (he : Enters remains s e c ctx s') :
    ∃ b, Leaves s' c b ∧ ∀ next b', Starts b next b' → Permits a e (.switched next) b' := by
  have hself : ∀ {i : Tid}, s.allThreads i = some c → s.curRunning = some c → i = a.running :=
    fun hi hc => (h.running_iff hg.inv hc hi).mpr rfl
  cases he with
  | timer _ hc =>
    exact ⟨_, leaves_timer hg h hc (timer_preempts hg hc hk), fun _ _ hs => .timer hs⟩
  | blockSelf hr h0 hc =>
    obtain ⟨i, rfl, hi⟩ := hr
    obtain rfl := hself hi hc
    refine ⟨_, leaves_blocked hg h hc, fun _ _ hs => .blockSelf (h.task_some hi) ?_ hs⟩
    intro hz
    exact h0 (by rw [hz]; rfl)
  | sleep hpos hc hid =>
    have hi := h.running.trans hc
    refine ⟨_, leaves_asleep hg h hc _, fun _ _ hs => .sleep hpos (h.task_some hi) ?_ hs⟩
    intro hz
    exact hid (by rw [hg.inv.cell_id _ c hi, hz]; rfl)
  | exit hi h0 hc =>
    obtain rfl := hself hi hc
    exact ⟨_, leaves_terminated hn hg h hi hc, fun _ _ hs => .exit h0 hs⟩

theorem enters_tidy (hg : Good s) {ctx : Context} (he : Enters remains s e c ctx s') :
    Tidy s' := by
  obtain ⟨u, hm⟩ := hg.plain
  cases he with
  | timer => exact hm.tidy
  | blockSelf => exact (matches_blocked hm c).tidy
  | @sleep n _ _ hc => exact (matches_asleep hm hc n).tidy
  | @exit i _ => exact (matches_terminated remains hm i c).tidy

/-- At the decision nobody runs any more. -/
theorem enters_stopped (hg : Good s) (hk : KeepsOneRunning s e) {ctx : Context}
    (he : Enters remains s e c ctx s') (hr : s'.Live r) : statusAtPick s' c r ≠ .running := by
  by_cases hrc : r = c
  · subst hrc
    cases he with
    | timer _ hc =>
      have hst : statusAtPick s r r = .ready := if_pos ⟨rfl, timer_preempts hg hc hk⟩
      rw [hst]
      simp
    | blockSelf =>
      rw [statusAtPick_of_stays blocked_stays, blocked_self]
      simp
    | sleep =>
      rw [statusAtPick_of_stays asleep_stays, asleep_self]
      simp
    | exit hi => exact (((terminated_live hg.inv.toTable remains hi r).mp hr).2 rfl).elim
  · exact (enters_others hg.inv hg.one_runs he hr hrc).1

theorem enters_entry (hi : Invariant s) {ctx : Context} (he : Enters remains s e c ctx s') :
    SwitchEntry (uthreads remains) s e s' ∨
      SwitchEntry (uthreads remains) s e (maskSignals s') := by
  cases he with
  | timer => exact Or.inl (Or.inl ⟨rfl, rfl⟩)
  | @blockSelf tid _ hr h0 hc =>
    have hm : (maskSignals s).At tid c := hr
    have hblock := uthreadBlock_ok (V := uthreads remains) (blocked c) hr h0
      (blockThread_ok hm) hc
    have hid : ((blocked c (maskSignals s)).heap c).id = tid := by
      rw [blocked_self]
      exact (hi.at_iff (At.live hr) tid).mp hr
    rw [if_pos hid] at hblock
    exact Or.inr (Or.inr ⟨_, _, rfl, hblock⟩)
  | sleep hn hc h0 => exact Or.inr (Or.inr ⟨_, _, rfl, uthreadSleep_ok hn hc h0⟩)
  | @exit i _ hcell h0 hc =>
    exact Or.inr (Or.inr ⟨_, _, rfl, uthreadTerminate_self hcell h0 hc (hi.cell_id i c hcell)⟩)

theorem enters_plainPick (hi : Invariant s) {ctx : Context} (he : Enters remains s e c ctx s')
    (hk : PicksPlainly remains s e) : PlainPick s' c := by
  have hc := enters_curRunning he
  rcases enters_entry hi he with h | h
  · exact hk s' c h hc
  · exact hk (maskSignals s') c h hc

end Leaving

theorem initial_good : Good initial :=
  ⟨initial_invariant, fun _ hr => (List.not_mem_nil hr).elim, initial_one_runs, initial,
    initial_matches⟩

theorem initial_abstracts : Abstracts initial Board.start := by
  refine ⟨fun i => ?_, rfl, rfl, rfl⟩
  by_cases hi : i = 0
  · subst hi
    rfl
  · simp [Board.start, initial, Function.update_of_ne hi]

theorem step_good (hn : NeverRunning remains) (hg : Good s) (hk : Orderly remains s e)
    (hs : step (uthreads remains) s e = .ok (o, t)) : Good t := by
  obtain ⟨s', hm⟩ := hg.plain
  obtain ⟨t', _, hm'⟩ := step_matches hn hg.inv hg.queue_live hm hk.1 hs
  refine ⟨step_preserves_invariant hg.inv hs, step_queue_live hn hg.inv hg.queue_live hs, ?_,
    t', hm'⟩
  cases step_effect hg.inv hs with
  | quiet hq => exact (quiet_one_runs_iff hg.inv hg.one_runs hq).mpr hk.2
  | switch he hd =>
    exact (switch_one_runs_iff hn hg.inv hg.queue_live hg.one_runs he hd).mpr hk.2

/-- One event of the library is one step that the header permits. -/
theorem step_permits (hn : NeverRunning remains) (hg : Good s) (h : Abstracts s a)
    (hk : Orderly remains s e) (hs : step (uthreads remains) s e = .ok (o, t)) :
    ∃ x b, Reads t o x ∧ Permits a e x b ∧ Abstracts t b := by
  cases step_effect hg.inv hs with
  | quiet hq => exact quiet_permits hg h hs hq
  | @switch _ c ctx s' next v _ he hd =>
    obtain ⟨hcons, _⟩ := enters_consistent hg.inv he
    obtain ⟨b, hleave, hpermit⟩ := enters_leaves hn hg h hk.2 he
    obtain ⟨m, _, hst, hq⟩ := main_atPick hg.inv hg.one_runs he
    obtain ⟨i, b', hi, hstart, habs⟩ := dispatch_starts hcons (enters_tidy hg he)
      (enters_queue_live (Or.inl hn) hg.inv hg.queue_live he) (enters_plainPick hg.inv he hk.1)
      ⟨m, hq, hst⟩ (fun r hr => enters_stopped hg hk.2 he hr) hleave hd.toSwitch
    exact ⟨_, b', .switched hi hd.result, hpermit i b' hstart, habs⟩

/-- Every orderly run answers as the header permits, and ends in a state whose board lists
each thread that could run exactly once. -/
theorem refines_header (hn : NeverRunning remains) (h : Runs remains tr s)
    (hk : EachStep (step (uthreads remains)) (Orderly remains) initial tr) :
    ∃ answers board, ReadAs (step (uthreads remains)) Reads initial tr answers s ∧
      Permitted Permits Board.start answers board ∧ Abstracts s board ∧ Sound board := by
  obtain ⟨answers, board, hread, hpermit, _, habs⟩ := h.refines
    (R := fun s a => Good s ∧ Abstracts s a) hk ⟨initial_good, initial_abstracts⟩
    fun s a e o t ⟨hg, habs⟩ hke hs => by
      obtain ⟨x, b, hread, hpermit, habs'⟩ := step_permits hn hg habs hke hs
      exact ⟨x, b, hread, hpermit, step_good hn hg hke hs, habs'⟩
  exact ⟨answers, board, hread, hpermit, habs,
    hpermit.invariant start_sound fun _ _ _ _ hs hp => permits_sound hs hp⟩

/-- Thread 1 runs after it was blocked and resumed while it was queued. -/
theorem refines_header_one_stale_entry :
    let tr : List (Event × Outcome) := [(.call (.spawn (some 7)), .returned 1),
      (.call (.block 1), .returned 0), (.call (.resume 1), .returned 0),
      (.timer, .dispatched 1 none)]
    ∃ s answers board, ReadAs (step (uthreads freedRecord)) Reads initial tr answers s ∧
      Permitted Permits Board.start answers board ∧ Abstracts s board ∧ Sound board := by
  intro tr
  have h₁ := step_after freedRecord (s := initial) (e := .call (.spawn (some 7)))
    (o := .returned 1) (by decide +kernel)
  let s₁ := after freedRecord initial [.call (.spawn (some 7))]
  have h₂ := step_after freedRecord (s := s₁) (e := .call (.block 1)) (o := .returned 0)
    (by decide +kernel)
  let s₂ := after freedRecord s₁ [.call (.block 1)]
  have h₃ := step_after freedRecord (s := s₂) (e := .call (.resume 1)) (o := .returned 0)
    (by decide +kernel)
  let s₃ := after freedRecord s₂ [.call (.resume 1)]
  have h₄ := step_after freedRecord (s := s₃) (e := .timer) (o := .dispatched 1 none)
    (by decide +kernel)
  have i₁ : Invariant s₁ := step_preserves_invariant initial_invariant h₁
  have i₂ : Invariant s₂ := step_preserves_invariant i₁ h₂
  have hmain : s₃.curRunning = some 0 := by decide +kernel
  have hplain : PicksPlainly freedRecord s₃ .timer := by
    rintro s' c (⟨_, rfl⟩ | ⟨_, _, he, _⟩) hc
    · obtain rfl : 0 = c := Option.some.inj (hmain.symm.trans hc)
      decide +kernel
    · cases he
  have hresume : KeepsOneRunning s₂ (.call (.resume 1)) := by
    intro c hc
    have hcur : s₂.curRunning = some 0 := by decide +kernel
    obtain rfl : 0 = c := Option.some.inj (hcur.symm.trans hc)
    decide +kernel
  have hawake : KeepsOneRunning s₃ .timer := by
    intro c hc
    obtain rfl : 0 = c := Option.some.inj (hmain.symm.trans hc)
    exact Or.inl (by decide +kernel)
  exact ⟨_, refines_header (fun r t => by simp [freedRecord])
    (.cons h₁ (.cons h₂ (.cons h₃ (.single h₄))))
    (.cons ⟨picksPlainly_returned initial_invariant h₁ (by simp), trivial⟩ h₁
      (.cons ⟨picksPlainly_returned i₁ h₂ (by simp), trivial⟩ h₂
        (.cons ⟨picksPlainly_returned i₂ h₃ (by simp), hresume⟩ h₃
          (.cons ⟨hplain, hawake⟩ h₄ (.nil _)))))⟩

end HeaderRefinement
