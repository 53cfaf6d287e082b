import Uthreads.RoundRobin
import Uthreads.Commutation
import Mathlib.Data.Finset.Card

/-! # How long the queue gets

Only spawns, resumes and sleeps lengthen the queue: a switch pops at least what it pushes,
and a sleeper is put back once. The table is no bound, since every block and resume of a
READY thread leaves one more entry, and with it one more quantum a lap. -/
namespace QueueGrowth

open ThreadLibrary SwitchSemantics CallEffects EventRuns ThreadInvariant LazyQueue RoundRobin
open Commutation

variable {remains : ThreadRef → Thread → Thread} {s t : State} {c r q : ThreadRef} {e : Event}
  {o : Outcome} {i : Fin maxThreadNum} {k n : ℕ} {tr : List (Event × Outcome)}

section Bound

/-- The cells whose thread is asleep: the entries that are still to come. -/
def sleepers (s : State) : Finset (Fin maxThreadNum) :=
  Finset.univ.filter fun i => (s.allThreads i).any fun r => (s.heap r).isSleep

/-- The calls that queue an entry, now or at a wake-up. -/
def queues : Event × Outcome → Bool
  | (.call (.spawn _), .returned _) => true
  | (.call (.resume _), .returned _) => true
  | (.call (.sleep _), .dispatched _ _) => true
  | _ => false

def entries (s : State) : ℕ := s.readyQueue.length + (sleepers s).card

theorem mem_sleepers :
    i ∈ sleepers s ↔ ∃ r, s.allThreads i = some r ∧ (s.heap r).isSleep = true := by
  simp [sleepers, Option.any_eq_true]

theorem sleepers_subset
    (h : ∀ j q, t.allThreads j = some q → (t.heap q).isSleep = true →
      s.allThreads j = some q ∧ (s.heap q).isSleep = true) : sleepers t ⊆ sleepers s := by
  intro j hj
  obtain ⟨q, hq, hsleep⟩ := mem_sleepers.mp hj
  exact mem_sleepers.mpr ⟨q, h j q hq hsleep⟩

theorem sleepers_spawned (hs : Consistent s) (pc : ℕ) :
    sleepers (spawned i pc s) ⊆ sleepers s := by
  apply sleepers_subset
  intro j q hj hsleep
  by_cases hji : j = i
  · subst hji
    obtain rfl : s.nextRef = q := Option.some.inj ((spawned_cell j pc s).symm.trans hj)
    rw [spawned_self] at hsleep
    cases hsleep
  · rw [spawned_cell_of_ne pc s hji] at hj
    rw [spawned_of_ne (hs.ne_fresh ⟨j, hj⟩)] at hsleep
    exact ⟨hj, hsleep⟩

theorem sleepers_modifyThread (f : Thread → Thread) (hcells : t.allThreads = s.allThreads)
    (hheap : t.heap = (s.modifyThread r f).heap) (hf : ∀ x, (f x).isSleep = x.isSleep) :
    sleepers t ⊆ sleepers s := by
  apply sleepers_subset
  intro j q hj hsleep
  refine ⟨hcells ▸ hj, ?_⟩
  rw [hheap] at hsleep
  by_cases hq : q = r
  · subst hq
    rwa [modifyThread_self, hf] at hsleep
  · rwa [modifyThread_of_ne s f hq] at hsleep

theorem sleepers_blocked : sleepers (blocked r s) ⊆ sleepers s :=
  sleepers_modifyThread (fun t => { t with status := .blocked }) rfl rfl fun _ => rfl

theorem sleepers_resumed : sleepers (resumed r s) ⊆ sleepers s :=
  sleepers_modifyThread (fun t => { t with
    status := .ready
    duplicate := t.duplicate + if Requeues s r then 1 else 0 }) rfl rfl fun _ => rfl

theorem sleepers_terminated (hs : Consistent s) (hr : s.allThreads i = some r) :
    sleepers (terminated remains i r s) ⊆ sleepers s := by
  apply sleepers_subset
  intro j q hj hsleep
  have hji : j ≠ i := by
    rintro rfl
    rw [terminated_cell] at hj
    cases hj
  rw [terminated_cell_of_ne remains r s hji] at hj
  have hq : q ≠ r := by
    rintro rfl
    exact hji (hs.distinct j i q hj hr)
  rw [terminated_of_ne hq] at hsleep
  exact ⟨hj, hsleep⟩

theorem sleepers_asleep (hs : Consistent s) (hc : s.Live c) (n : ℤ) :
    (sleepers (asleep n c s)).card ≤ (sleepers s).card + 1 := by
  obtain ⟨i, hi⟩ := hc
  have hsub : sleepers (asleep n c s) ⊆ insert i (sleepers s) := by
    intro j hj
    obtain ⟨q, hq, hsleep⟩ := mem_sleepers.mp hj
    apply Finset.mem_insert.mpr
    by_cases hqc : q = c
    · subst hqc
      exact Or.inl (hs.distinct j i q hq hi)
    · rw [asleep_of_ne hqc] at hsleep
      exact Or.inr (mem_sleepers.mpr ⟨q, hq, hsleep⟩)
  exact (Finset.card_le_card hsub).trans (Finset.card_insert_le ..)

/-- Threads that wake up in a step are sleepers no more. -/
theorem woken_card {woke : List ThreadRef} (hn : woke.Nodup) (hsub : sleepers t ⊆ sleepers s)
    (hcells : t.allThreads = s.allThreads)
    (hwoke : ∀ r ∈ woke, s.Live r ∧ (s.heap r).isSleep = true ∧ (t.heap r).isSleep = false) :
    woke.length + (sleepers t).card ≤ (sleepers s).card := by
  have hcard : woke.length ≤ (sleepers s \ sleepers t).card := by
    rw [← List.toFinset_card_of_nodup hn]
    apply Finset.card_le_card_of_surjOn fun j => (s.allThreads j).getD 0
    intro r hr
    obtain ⟨⟨j, hj⟩, hasleep, hawake⟩ := hwoke r (List.mem_toFinset.mp hr)
    refine ⟨j, ?_, by simp [hj]⟩
    rw [Finset.mem_coe, Finset.mem_sdiff]
    refine ⟨mem_sleepers.mpr ⟨r, hj, hasleep⟩, fun hjt => ?_⟩
    obtain ⟨q, hq, hsleep⟩ := mem_sleepers.mp hjt
    obtain rfl : r = q := Option.some.inj (hj.symm.trans (hcells ▸ hq))
    rw [hawake] at hsleep
    cases hsleep
  have hsplit := Finset.card_sdiff_add_card_eq_card hsub
  omega

/-- The switch pops what it pushes. -/
theorem picks_length {next : ThreadRef} {rest : List ThreadRef} (h : Picks s c next rest) :
    rest.length ≤ s.readyQueue.length := by
  cases h with
  | entry hsweep =>
    obtain ⟨_, dropped, hsplit⟩ := sweep_split hsweep
    have hlen := congrArg List.length hsplit
    simp only [queueAtPick, List.length_append, List.length_cons] at hlen
    split at hlen
    · simp only [List.length_singleton] at hlen
      omega
    · simp only [List.length_nil] at hlen
      omega
  | main => exact Nat.zero_le _
  | current => exact Nat.zero_le _

theorem entries_switch {ctx : Context} {next : ThreadRef} (hs : Consistent s)
    (hsw : Switch s c ctx next t) : entries t ≤ entries s := by
  obtain ⟨rest, woke, hpick, hqueue, hnodup, hwoke⟩ := hsw.queue
  have hasleep : ∀ r, s.Live r → (s.heap r).isSleep = false → (t.heap r).isSleep = false := by
    intro r hr hawake
    rw [(hsw.clock r hr).1, tick_awake hawake (hs.awake_clock r hr hawake), hawake]
  have hsub : sleepers t ⊆ sleepers s := by
    apply sleepers_subset
    intro j q hj hsleep
    rw [hsw.allThreads] at hj
    refine ⟨hj, Bool.of_not_eq_false fun hawake => ?_⟩
    rw [hasleep q ⟨j, hj⟩ hawake] at hsleep
    cases hsleep
  have hcard := woken_card hnodup hsub hsw.allThreads fun r hr => by
    obtain ⟨hlive, hdue, _⟩ := (hwoke r).mp hr
    have hsleep : (s.heap r).isSleep = true := by
      refine Bool.of_not_eq_false fun hawake => ?_
      simp only [Due, hawake, hs.awake_clock r hlive hawake] at hdue
      omega
    refine ⟨hlive, hsleep, ?_⟩
    simp only [Due, hsleep, if_true] at hdue
    rw [(hsw.clock r hlive).1, (tick_sleeping hsleep).1]
    simp only [decide_eq_false_iff_not, ne_eq, not_not]
    omega
  have hlen := picks_length hpick
  rw [entries, hqueue, List.length_append, entries]
  omega

theorem entries_of_subset (hq : t.readyQueue.length ≤ s.readyQueue.length + n)
    (hsub : sleepers t ⊆ sleepers s) : entries t ≤ entries s + n := by
  have hcard := Finset.card_le_card hsub
  rw [entries, entries]
  omega

theorem entries_quiet {call : Call} (hi : Invariant s) (h : Quiet remains s call o t) :
    entries t ≤ entries s + if queues (.call call, o) then 1 else 0 := by
  cases h with
  | idle => exact Nat.le_add_right ..
  | @spawn pc j hfree =>
    exact entries_of_subset (by simp [spawned, unmaskSignals, queues])
      (sleepers_spawned hi.toConsistent pc)
  | block => exact entries_of_subset (Nat.le_add_right ..) sleepers_blocked
  | @resume tid r hr =>
    refine entries_of_subset ?_ sleepers_resumed
    change (resumed r s).readyQueue.length ≤ _
    rw [resumed_readyQueue, List.length_append]
    split <;> simp [queues]
  | terminate hr h0 hc hne =>
    refine entries_of_subset ?_ (sleepers_terminated hi.toConsistent hr)
    exact (List.length_filter_le ..).trans (Nat.le_add_right ..)

theorem entries_enters {ctx : Context} {s' : State} {next : ThreadRef} {v : Option ℤ}
    (hi : Invariant s) (h : Enters remains s e c ctx s') :
    entries s' ≤ entries s + if queues (e, .dispatched next v) then 1 else 0 := by
  have hlive := (enters_consistent hi h).2.2.2.1
  cases h with
  | timer => exact Nat.le_add_right ..
  | blockSelf => exact entries_of_subset (Nat.le_add_right ..) sleepers_blocked
  | @sleep n _ =>
    have hcard := sleepers_asleep hi.toConsistent hlive n
    rw [entries, entries, Nat.add_assoc]
    exact Nat.add_le_add_left hcard _
  | exit hr =>
    refine entries_of_subset ?_ (sleepers_terminated hi.toConsistent hr)
    exact (List.length_filter_le ..).trans (Nat.le_add_right ..)

theorem entries_step (hi : Invariant s) (h : step (uthreads remains) s e = .ok (o, t)) :
    entries t ≤ entries s + if queues (e, o) then 1 else 0 := by
  cases step_effect hi h with
  | quiet hq => exact entries_quiet hi hq
  | switch he hd =>
    exact (entries_switch (enters_consistent hi he).1 hd.toSwitch).trans (entries_enters hi he)

/-- The queue, with the wake-ups to come, is no longer than the number of calls that queue. -/
theorem queue_bounded (h : Runs remains tr s) :
    s.readyQueue.length + (sleepers s).card ≤ tr.countP queues := by
  have hrun := h.potential_le initial_invariant fun s e o t hi hs =>
    ⟨step_preserves_invariant hi hs, entries_step hi hs⟩
  have hzero : entries initial = 0 := by decide +kernel
  rwa [hzero, Nat.zero_add] at hrun

/-- Two threads, three entries: the bound is reached. -/
theorem queue_bounded_two_threads :
    let es : List Event := [.call (.spawn (some 7)), .call (.block 1), .call (.resume 1),
      .call (.block 1), .call (.resume 1)]
    let s := after freedRecord initial es
    s.readyQueue = [1, 1, 1] ∧ (history freedRecord initial es).countP queues = 3 ∧
      s.readyQueue.length + (sleepers s).card ≤
        (history freedRecord initial es).countP queues := by
  intro es s
  have hrun : Runs freedRecord (history freedRecord initial es) s :=
    runs_history freedRecord es (by decide +kernel)
  exact ⟨by decide +kernel, by decide +kernel, queue_bounded hrun⟩

end Bound

section Boost

/-- Calls that block and resume the thread of a cell, with their answers. -/
def boosts (i : Fin maxThreadNum) (k : ℕ) : List (Event × Outcome) :=
  (List.replicate k [(.call (.block (i : ℕ)), .returned 0),
    (.call (.resume (i : ℕ)), .returned 0)]).flatten

/-- `k` more entries of `r`; of the records only counters have changed. -/
structure Boosted (s t : State) (r : ThreadRef) (k : ℕ) : Prop where
  queue : t.readyQueue = s.readyQueue ++ List.replicate k r
  cells : t.allThreads = s.allThreads
  current : t.curRunning = s.curRunning
  unmasked : s.masked = false → t.masked = false
  record : ∀ q, t.heap q = { s.heap q with duplicate := (t.heap q).duplicate }

theorem Boosted.refl (s : State) (r : ThreadRef) : Boosted s s r 0 :=
  ⟨(List.append_nil _).symm, rfl, rfl, id, fun _ => rfl⟩

theorem Boosted.cons {u : State} (h : Boosted s t r 1) (h' : Boosted t u r k) :
    Boosted s u r (k + 1) where
  queue := by
    rw [h'.queue, h.queue, List.append_assoc, List.replicate_succ]
    rfl
  cells := h'.cells.trans h.cells
  current := h'.current.trans h.current
  unmasked := h'.unmasked ∘ h.unmasked
  record q := by rw [h'.record q, h.record q]

theorem Boosted.status (h : Boosted s t r k) (q : ThreadRef) :
    (t.heap q).status = (s.heap q).status := by rw [h.record q]

theorem Boosted.isSleep (h : Boosted s t r k) (q : ThreadRef) :
    (t.heap q).isSleep = (s.heap q).isSleep := by rw [h.record q]

variable (remains) in
theorem boost_step (hi : Invariant s) (hr : s.allThreads i = some r) (h0 : i ≠ 0)
    (hcur : s.curRunning ≠ some r) (hready : (s.heap r).status = .ready)
    (hawake : (s.heap r).isSleep = false) :
    ∃ t, Exec (step (uthreads remains)) s (boosts i 1) t ∧ Boosted s t r 1 := by
  have hblock := operation_step remains .block hi hr h0 hcur
  have hinv := step_preserves_invariant hi hblock
  have hresume := operation_step remains .resume hinv hr h0 hcur
  have hreq : Requeues (unmaskSignals (blocked r s)) r := by
    refine ⟨?_, ?_⟩
    · exact (congrArg Thread.isSleep blocked_self).trans hawake
    · exact congrArg Thread.status blocked_self
  refine ⟨_, .cons hblock (.cons hresume (.nil _)), ?_, rfl, rfl, fun _ => rfl, fun q => ?_⟩
  · change (resumed r (unmaskSignals (blocked r s))).readyQueue = _
    rw [resumed_readyQueue, if_pos hreq]
    rfl
  · change (resumed r (unmaskSignals (blocked r s))).heap q =
      { s.heap q with duplicate := ((resumed r (unmaskSignals (blocked r s))).heap q).duplicate }
    have hblocked : (unmaskSignals (blocked r s)).heap = (blocked r s).heap := rfl
    by_cases hq : q = r
    · subst hq
      rw [resumed_self, hblocked, blocked_self, ← hready]
    · rw [resumed_of_ne hq, hblocked, blocked_of_ne hq]

theorem boost_run (hi : Invariant s) (hr : s.allThreads i = some r) (h0 : i ≠ 0)
    (hcur : s.curRunning ≠ some r) (hready : (s.heap r).status = .ready)
    (hawake : (s.heap r).isSleep = false) (k : ℕ) :
    ∃ t, Exec (step (uthreads remains)) s (boosts i k) t ∧ Boosted s t r k := by
  induction k generalizing s with
  | zero => exact ⟨s, .nil s, .refl s r⟩
  | succ k ih =>
    obtain ⟨t, hrun, ht⟩ := boost_step remains hi hr h0 hcur hready hawake
    have hti := hrun.invariant hi fun _ _ _ _ => step_preserves_invariant
    obtain ⟨u, hrest, hu⟩ := ih hti (ht.cells ▸ hr) (ht.current ▸ hcur)
      ((ht.status r).trans hready) ((ht.isSleep r).trans hawake)
    refine ⟨u, ?_, ht.cons hu⟩
    rw [boosts, List.replicate_succ, List.flatten_cons]
    exact hrun.append hrest

variable (hb : Boosted s t r k)
include hb

theorem Boosted.preempts : Preempts t c ↔ Preempts s c := by
  rw [Preempts, Preempts, hb.status, hb.isSleep]

theorem Boosted.readyAtPick (q : ThreadRef) : ReadyAtPick t c q ↔ ReadyAtPick s c q := by
  simp only [ReadyAtPick, statusAtPick, hb.preempts, hb.status]

theorem Boosted.wheel_count (q : ThreadRef) :
    (wheel t c).count q = (wheel s c).count q + if q = r then k else 0 := by
  rw [wheel, wheel, hb.queue]
  simp only [List.count_append, List.count_replicate, beq_iff_eq, eq_comm (a := r)]
  omega

theorem Boosted.turning (hs : Turning s c n) (hawake : (s.heap r).isSleep = false) :
    Turning t c n where
  current := hb.current.trans hs.current
  preempts := hb.preempts.mpr hs.preempts
  unmasked := hb.unmasked hs.unmasked
  sleepers q hq hsleep := by
    rw [hb.isSleep] at hsleep
    have hlive : s.Live q := by simpa only [State.Live, hb.cells] using hq
    obtain ⟨hlate, hqueue⟩ := hs.sleepers q hlive hsleep
    constructor
    · rw [hb.record q]
      exact hlate
    · rw [hb.queue, List.mem_append, List.mem_replicate]
      rintro (hmem | ⟨_, rfl⟩)
      · exact hqueue hmem
      · rw [hawake] at hsleep
        cases hsleep

/-- One share is raised, and no other is touched. -/
theorem Boosted.share_eq (hrc : r ≠ c) (hready : (s.heap r).status = .ready) (q : ThreadRef) :
    share (ReadyAtPick t c) (wheel t c) q =
      if q = r then
        if s.readyQueue.count r + k = 2 then 1 else s.readyQueue.count r + k
      else share (ReadyAtPick s c) (wheel s c) q := by
  simp only [share, hb.readyAtPick, hb.wheel_count]
  by_cases hq : q = r
  · subst hq
    have hpick : ReadyAtPick s c q := (statusAtPick_of_ne hrc).trans hready
    have hother : [c].count q = 0 := List.count_eq_zero.mpr (by simpa using hrc)
    have hcount : (wheel s c).count q = s.readyQueue.count q := by
      rw [wheel, List.count_append, hother, Nat.add_zero]
    simp only [if_pos hpick, if_true, hcount]
  · simp only [if_neg hq, Nat.add_zero]

end Boost

/-- The running thread raises the share of another as far as it likes: with `k` blocks and
resumes it puts `k` entries into the queue, and in every later lap the other gets a quantum
for each entry it then has (two count as one). -/
theorem share_raised (hn : NeverRunning remains) (h : Runs remains tr s) (hs : Turning s c n)
    (hr : s.allThreads i = some r) (h0 : i ≠ 0) (hrc : r ≠ c)
    (hready : (s.heap r).status = .ready) (hawake : (s.heap r).isSleep = false) (k : ℕ) :
    ∃ t, Exec (step (uthreads remains)) s (boosts i k) t ∧
      t.readyQueue = s.readyQueue ++ List.replicate k r ∧
      ∀ m, m * (lap (Spares (ReadyAtPick t c)) (wheel t c)).length ≤ n →
        ∃ u, TimerRun remains t
            (List.replicate m (lap (Spares (ReadyAtPick t c)) (wheel t c))).flatten u ∧
          ∀ q, (u.heap q).quantum = (s.heap q).quantum + m * ((if q = r then
              if s.readyQueue.count r + k = 2 then 1 else s.readyQueue.count r + k
            else share (ReadyAtPick s c) (wheel s c) q : ℕ) : ℤ) := by
  obtain ⟨hi, hq⟩ := reachable_queue_live hn h
  have hcur : s.curRunning ≠ some r := by
    rw [hs.current]
    exact fun hc => hrc (Option.some.inj hc).symm
  obtain ⟨t, hrun, ht⟩ := boost_run hi hr h0 hcur hready hawake k
  refine ⟨t, hrun, ht.queue, fun m hm => ?_⟩
  obtain ⟨hti, htq⟩ := hrun.invariant (I := fun s => Invariant s ∧ QueueLive s) ⟨hi, hq⟩
    fun _ _ _ _ hx hstep =>
      ⟨step_preserves_invariant hx.1 hstep, step_queue_live hn hx.1 hx.2 hstep⟩
  obtain ⟨u, d, hlaps, _, _, hquantum⟩ := laps_run hti htq (ht.turning hs hawake) m hm
  refine ⟨u, hlaps, fun q => ?_⟩
  rw [hquantum, ht.share_eq hrc hready, ht.record q]

/-- Main blocks and resumes thread 2 three times. -/
theorem share_raised_three_blocks :
    let s := after freedRecord initial [.call (.spawn (some 7)), .call (.spawn (some 8))]
    ∃ t, Exec (step (uthreads freedRecord)) s (boosts 2 3) t ∧
      t.readyQueue = [1, 2, 2, 2, 2] ∧
      ∃ u, TimerRun freedRecord t [1, 2, 2, 2, 2, 0, 1, 2, 2, 2, 2, 0] u ∧
        (u.heap 1).quantum = 2 ∧ (u.heap 2).quantum = 8 := by
  intro s
  have hasleep : ∀ i, ∀ r ∈ s.allThreads i, (s.heap r).isSleep = false := by decide +kernel
  have hs : Turning s 0 12 := by
    refine ⟨by decide +kernel, by decide +kernel, by decide +kernel, ?_⟩
    rintro r ⟨i, hi⟩ hsleep
    rw [hasleep i r hi] at hsleep
    cases hsleep
  have hreach : Runs freedRecord _ s := runs_history freedRecord _ (by decide +kernel)
  obtain ⟨t, hrun, hqueue, hlaps⟩ :=
    share_raised (r := 2) (i := 2) (fun r t => by simp [freedRecord]) hreach hs (by decide +kernel)
      (by decide) (by decide) (by decide +kernel) (by decide +kernel) 3
  let es : List Event := (List.replicate 3 [.call (.block 2), .call (.resume 2)]).flatten
  have hboosts : history freedRecord s es = boosts 2 3 := by decide +kernel
  have hexec := exec_history freedRecord s es (by decide +kernel)
  rw [hboosts] at hexec
  obtain rfl : t = after freedRecord s es := hrun.deterministic hexec
  have hlap : lap (Spares (ReadyAtPick (after freedRecord s es) 0))
      (wheel (after freedRecord s es) 0) = [1, 2, 2, 2, 2, 0] := by decide +kernel
  obtain ⟨u, hu, hquantum⟩ := hlaps 2 (by rw [hlap]; decide)
  rw [hlap] at hu
  refine ⟨_, hrun, hqueue.trans (by decide +kernel), u, hu, ?_, ?_⟩
  · exact (hquantum 1).trans (by decide +kernel)
  · exact (hquantum 2).trans (by decide +kernel)

end QueueGrowth
