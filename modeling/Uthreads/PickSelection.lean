import Uthreads.ThreadInvariant

/-! # What the pick loop selects

In every reachable state `duplicate` counts the entries of a live thread. Where it does
for all queued threads, the loop of `nextAvailableReady` has a closed form: it stops at
the first entry of a READY thread that is not followed by exactly one more. -/
namespace PickSelection

open ThreadLibrary SwitchSemantics LazyQueue EventRuns ThreadInvariant

variable {remains : ThreadRef → Thread → Thread} {s : State} {tr : List (Event × Outcome)}

theorem exact_duplicate (h : Consistent s) {r : ThreadRef} (hr : s.Live r) :
    (s.heap r).duplicate = s.readyQueue.count r := by
  have hexact := h.exact_count r hr
  unfold surplusOf at hexact
  omega

theorem duplicate_counts_entries (h : Runs remains tr s) {r : ThreadRef} (hr : s.Live r) :
    (s.heap r).duplicate = s.readyQueue.count r ∧ 0 ≤ (s.heap r).duplicate := by
  have hexact := exact_duplicate (reachable_invariant h).toConsistent hr
  exact ⟨hexact, by omega⟩

/-- Thread 1 is blocked and resumed twice, so it has three entries; the timer then pops one,
and the terminate of thread 2 removes the entry between the others. -/
theorem duplicate_counts_entries_repeated :
    let es : List Event := [.call (.spawn (some 7)), .call (.spawn (some 8)), .call (.block 1),
      .call (.resume 1), .call (.block 1), .call (.resume 1), .timer, .call (.terminate 2)]
    (after freedRecord initial es).readyQueue = [1, 1, 0] ∧
      ((after freedRecord initial es).heap 1).duplicate =
        (after freedRecord initial es).readyQueue.count 1 ∧
      0 ≤ ((after freedRecord initial es).heap 1).duplicate := by
  intro es
  have h := duplicate_counts_entries (r := 1) (runs_history freedRecord es (by decide +kernel))
    (by decide +kernel)
  exact ⟨by decide +kernel, h⟩

/-- The counters are exact for the queued threads. -/
def CountsEntries (s : State) : Prop :=
  ∀ r ∈ s.readyQueue, (s.heap r).duplicate = s.readyQueue.count r

theorem reachable_countsEntries (hn : NeverRunning remains) (h : Runs remains tr s) :
    CountsEntries s := by
  intro r hr
  obtain ⟨hi, hlive⟩ := reachable_queue_live hn h
  exact exact_duplicate hi.toConsistent (hlive r hr)

/-- Position `i` holds an entry of a READY thread that does not have exactly one later entry. -/
def Selects (s : State) (i : ℕ) : Prop :=
  ∃ r, s.readyQueue[i]? = some r ∧ (s.heap r).status = .ready ∧
    (s.readyQueue.drop (i + 1)).count r ≠ 1

/-- The first `n` entries are popped, each counted down once. -/
def popped (n : ℕ) (s : State) : State :=
  { s with
    readyQueue := s.readyQueue.drop n
    heap := fun r => { s.heap r with
      duplicate := (s.heap r).duplicate - (s.readyQueue.take n).count r } }

theorem count_split (s : State) (n : ℕ) (r : ThreadRef) : s.readyQueue.count r =
    (s.readyQueue.take n).count r + (s.readyQueue.drop n).count r := by
  rw [← List.count_append, List.take_append_drop]

theorem popped_counts (h : CountsEntries s) (n : ℕ) :
    ∀ r ∈ s.readyQueue, ((popped n s).heap r).duplicate = (popped n s).readyQueue.count r := by
  intro r hr
  have hexact := h r hr
  have hsplit := count_split s n r
  change (s.heap r).duplicate - (s.readyQueue.take n).count r = (s.readyQueue.drop n).count r
  omega

theorem drained_drop (s : State) (n : ℕ) :
    drained s.heap s.readyQueue (s.readyQueue.drop n) = (popped n s).heap := by
  funext r
  have hsplit := count_split s n r
  simp only [drained, popped, hsplit, Thread.mk.injEq, true_and, and_true]
  omega

/-- With exact counters the test of the loop looks at the queue alone. -/
theorem selects_iff_takenAt (h : CountsEntries s) (i : ℕ) :
    Selects s i ↔ TakenAt (takes (fun r => (s.heap r).status) (surplusOf s.heap s.readyQueue))
      s.readyQueue i := by
  have hsurplus : ∀ r, s.readyQueue[i]? = some r → surplusOf s.heap s.readyQueue r = 0 := by
    intro r hr
    rw [surplusOf, h r (List.mem_of_getElem? hr)]
    omega
  unfold Selects TakenAt takes
  constructor
  · rintro ⟨r, hr, hready, hcount⟩
    refine ⟨r, hr, hready, ?_⟩
    rw [hsurplus r hr]
    omega
  · rintro ⟨r, hr, hready, hcount⟩
    rw [hsurplus r hr] at hcount
    refine ⟨r, hr, hready, ?_⟩
    omega

theorem pick_of_nonempty (h : s.readyQueue ≠ []) :
    nextAvailableReady s =
      ((pickLoop s.curRunning s.heap s.readyQueue).1, { s with
        readyQueue := (pickLoop s.curRunning s.heap s.readyQueue).2.1
        heap := (pickLoop s.curRunning s.heap s.readyQueue).2.2 }) := by
  cases hq : s.readyQueue with
  | nil => exact (h hq).elim
  | cons r queue => simp only [nextAvailableReady, hq]

theorem pick_entry (h : CountsEntries s) {i : ℕ} (hi : Selects s i)
    (hfirst : ∀ j < i, ¬ Selects s j) :
    ∃ r, s.readyQueue[i]? = some r ∧ nextAvailableReady s = (some r, popped (i + 1) s) := by
  have htaken := (selects_iff_takenAt h i).mp hi
  obtain ⟨r, hr, hsweep⟩ := sweep_of_first htaken
    (fun j hj hq => hfirst j hj ((selects_iff_takenAt h j).mpr hq))
  have hne : s.readyQueue ≠ [] := List.ne_nil_of_mem (List.mem_of_getElem? hr)
  refine ⟨r, hr, ?_⟩
  rw [pick_of_nonempty hne, pickLoop_eq, hsweep]
  simp only [drained_drop]
  rfl

theorem pick_none (h : CountsEntries s) (hne : s.readyQueue ≠ []) (hi : ∀ i, ¬ Selects s i) :
    nextAvailableReady s = (s.curRunning, popped s.readyQueue.length s) := by
  have hsweep := sweep_none_of_no_position
    (fun i hq => hi i ((selects_iff_takenAt h i).mpr hq))
  have hdrop : s.readyQueue.drop s.readyQueue.length = [] := List.drop_length
  rw [pick_of_nonempty hne, pickLoop_eq, hsweep, ← hdrop]
  simp only [drained_drop]
  rfl

theorem pick_counts (h : CountsEntries s) : ∀ r ∈ s.readyQueue,
    ((nextAvailableReady s).2.heap r).duplicate = (nextAvailableReady s).2.readyQueue.count r := by
  classical
  intro r hr
  have hne : s.readyQueue ≠ [] := List.ne_nil_of_mem hr
  by_cases hex : ∃ i, Selects s i
  · obtain ⟨_, _, hpick⟩ := pick_entry h (Nat.find_spec hex) (fun _ hj => Nat.find_min hex hj)
    rw [hpick]
    exact popped_counts h _ r hr
  · have hpick := pick_none h hne (fun i hi => hex ⟨i, hi⟩)
    rw [hpick]
    exact popped_counts h _ r hr

/-- The closed form of `nextAvailableReady`: its three exits, for any queue and any records
whose counters are exact on entry; they are exact again on exit. -/
theorem pick_loop_selects (s : State) (h : CountsEntries s) :
    (s.readyQueue = [] → nextAvailableReady s = (s.allThreads 0, s)) ∧
      (∀ i, Selects s i → (∀ j < i, ¬ Selects s j) →
        ∃ r, s.readyQueue[i]? = some r ∧ nextAvailableReady s = (some r, popped (i + 1) s)) ∧
      (s.readyQueue ≠ [] → (∀ i, ¬ Selects s i) →
        nextAvailableReady s = (s.curRunning, popped s.readyQueue.length s) ∧
          (nextAvailableReady s).2.readyQueue = [] ∧
          ∀ r ∈ s.readyQueue, ((nextAvailableReady s).2.heap r).duplicate = 0) ∧
      ∀ r ∈ s.readyQueue, ((nextAvailableReady s).2.heap r).duplicate =
        (nextAvailableReady s).2.readyQueue.count r := by
  refine ⟨?_, fun i hi hfirst => pick_entry h hi hfirst, ?_, pick_counts h⟩
  · intro hnil
    simp only [nextAvailableReady, hnil]
  · intro hne hi
    have hpick := pick_none h hne hi
    have hqueue : (nextAvailableReady s).2.readyQueue = [] := by
      rw [hpick]
      exact List.drop_length
    refine ⟨hpick, hqueue, ?_⟩
    intro r hr
    have hcount := pick_counts h r hr
    rw [hqueue] at hcount
    exact hcount

/-- A blocked and resumed thread: its stale first entry is dropped and thread 2 is selected. -/
theorem pick_loop_selects_stale_entry :
    let s := after freedRecord initial [.call (.spawn (some 7)), .call (.spawn (some 8)),
      .call (.block 1), .call (.resume 1)]
    s.readyQueue = [1, 2, 1] ∧
      ∃ r, s.readyQueue[1]? = some r ∧ nextAvailableReady s = (some r, popped 2 s) := by
  intro s
  have hqueue : s.readyQueue = [1, 2, 1] := by decide +kernel
  have hnever : NeverRunning freedRecord := by
    intro r t
    simp [freedRecord]
  have hcounts : CountsEntries s :=
    reachable_countsEntries hnever (runs_history freedRecord _ (by decide +kernel))
  have hsecond : Selects s 1 := ⟨2, by rw [hqueue]; rfl, by decide +kernel, by decide +kernel⟩
  have hfirst : ∀ j < 1, ¬ Selects s j := by
    intro j hj
    obtain rfl : j = 0 := by omega
    rintro ⟨r, hr, _, hone⟩
    rw [hqueue] at hr hone
    obtain rfl : 1 = r := Option.some.inj hr
    exact hone rfl
  exact ⟨hqueue, (pick_loop_selects s hcounts).2.1 1 hsecond hfirst⟩

end PickSelection
