import Uthreads.SwitchSemantics
import Mathlib.Data.Finset.Card
import Mathlib.Data.Fintype.Card

/-! # Effects of the public calls

One specification for each exit of each public function, and `step_cases`, which lists
everything an event can do. -/
namespace CallEffects

open ThreadLibrary SwitchSemantics

def blocked (r : ThreadRef) (s : State) : State :=
  { s.modifyThread r fun t => { t with status := .blocked } with
    blockedID := insert r s.blockedID }

/-- The queue is touched only for a record that is blocked and awake. -/
def Requeues (s : State) (r : ThreadRef) : Prop :=
  (s.heap r).isSleep = false ∧ (s.heap r).status = .blocked

instance (s : State) (r : ThreadRef) : Decidable (Requeues s r) :=
  inferInstanceAs (Decidable (_ ∧ _))

def resumed (r : ThreadRef) (s : State) : State :=
  { s.modifyThread r fun t => { t with
      status := .ready
      duplicate := t.duplicate + if Requeues s r then 1 else 0 } with
    blockedID := if Requeues s r then s.blockedID.erase r else s.blockedID
    readyQueue := s.readyQueue ++ if Requeues s r then [r] else [] }

def terminated (remains : ThreadRef → Thread → Thread) (i : Fin maxThreadNum) (r : ThreadRef)
    (s : State) : State :=
  { s with
    heap := Function.update s.heap r (remains r (s.heap r))
    deleted := Function.update s.deleted r true
    readyQueue := s.readyQueue.filter (· ≠ r)
    allThreads := Function.update s.allThreads i none
    countReady := s.countReady - 1 }

def asleep (n : ℤ) (r : ThreadRef) (s : State) : State :=
  s.modifyThread r fun t => { t with isSleep := true, waitingTime := n, status := .ready }

def spawnedThread (i : Fin maxThreadNum) (pc : ℕ) : Thread :=
  { id := (i : ℕ), status := .ready, env := .entryPoint pc, duplicate := 1, quantum := 0,
    isSleep := false, waitingTime := -1 }

def spawned (i : Fin maxThreadNum) (pc : ℕ) (s : State) : State :=
  { s with
    heap := Function.update s.heap s.nextRef (spawnedThread i pc)
    nextRef := s.nextRef + 1
    readyQueue := s.readyQueue ++ [s.nextRef]
    allThreads := Function.update s.allThreads i (some s.nextRef)
    countReady := s.countReady + 1 }

section Records

variable {s : State} {r q : ThreadRef}

theorem blocked_self : (blocked r s).heap r = { s.heap r with status := .blocked } :=
  Function.update_self ..

theorem blocked_of_ne (h : q ≠ r) : (blocked r s).heap q = s.heap q := Function.update_of_ne h ..

theorem resumed_self : (resumed r s).heap r = { s.heap r with
    status := .ready
    duplicate := (s.heap r).duplicate + if Requeues s r then 1 else 0 } :=
  Function.update_self ..

theorem resumed_of_ne (h : q ≠ r) : (resumed r s).heap q = s.heap q := Function.update_of_ne h ..

theorem terminated_of_ne {remains : ThreadRef → Thread → Thread} {i : Fin maxThreadNum}
    (h : q ≠ r) : (terminated remains i r s).heap q = s.heap q := Function.update_of_ne h ..

theorem asleep_self {n : ℤ} : (asleep n r s).heap r =
    { s.heap r with isSleep := true, waitingTime := n, status := .ready } :=
  Function.update_self ..

theorem asleep_of_ne {n : ℤ} (h : q ≠ r) : (asleep n r s).heap q = s.heap q :=
  Function.update_of_ne h ..

theorem blocked_stays : ¬ Preempts (blocked r s) r := by
  rintro ⟨hrun, _⟩
  rw [blocked_self] at hrun
  cases hrun

theorem asleep_stays {n : ℤ} : ¬ Preempts (asleep n r s) r := by
  rintro ⟨_, hawake⟩
  rw [asleep_self] at hawake
  cases hawake

theorem spawned_self {i : Fin maxThreadNum} {pc : ℕ} :
    (spawned i pc s).heap s.nextRef = spawnedThread i pc := Function.update_self ..

theorem spawned_of_ne {i : Fin maxThreadNum} {pc : ℕ} (h : q ≠ s.nextRef) :
    (spawned i pc s).heap q = s.heap q := Function.update_of_ne h ..

end Records

/-- The first free cell after cell 0. -/
def FirstFree (s : State) (i : Fin maxThreadNum) : Prop :=
  i ≠ 0 ∧ s.allThreads i = none ∧ ∀ j, j < i → j ≠ 0 → s.allThreads j ≠ none

theorem findId_cases (s : State) :
    (∃ i : Fin maxThreadNum, FirstFree s i ∧ findId s = (i : ℕ)) ∨
      (findId s = -1 ∧ ∀ i, i ≠ 0 → s.allThreads i ≠ none) := by
  cases hf : (List.finRange maxThreadNum).find? fun i => i ≠ 0 ∧ s.allThreads i = none with
  | none =>
    refine Or.inr ⟨by simp only [findId, hf], ?_⟩
    intro i hi hnone
    have := List.find?_eq_none.mp hf i (List.mem_finRange i)
    exact this (by simpa using ⟨hi, hnone⟩)
  | some i =>
    obtain ⟨hi, before, after, hsplit, hbefore⟩ := List.find?_eq_some_iff_append.mp hf
    have hi : i ≠ 0 ∧ s.allThreads i = none := by simpa using hi
    refine Or.inl ⟨i, ⟨hi.1, hi.2, ?_⟩, by simp only [findId, hf]⟩
    intro j hj hj0 hnone
    have hsorted := List.pairwise_lt_finRange maxThreadNum
    have hmem : j ∈ before ++ i :: after := hsplit ▸ List.mem_finRange j
    rw [hsplit, List.pairwise_append, List.pairwise_cons] at hsorted
    rcases List.mem_append.mp hmem with hb | ha
    · have := hbefore j hb
      simp [hj0, hnone] at this
    · rcases List.mem_cons.mp ha with rfl | ha
      · exact (lt_irrefl _ hj).elim
      · exact (lt_asymm hj (hsorted.2.1.1 j ha)).elim

theorem addThread_ok {s : State} {i : Fin maxThreadNum} (pc : ℕ) (h : findId s = (i : ℕ)) :
    addThread pc s = .ok ((i : ℕ), spawned i pc s) := by
  simp only [addThread, h, State.newThread, setCell_index, ok_bind, pure_ok]
  simp only [Except.ok.injEq, Prod.mk.injEq, true_and]
  refine State.ext ?_ rfl rfl rfl rfl rfl rfl rfl rfl rfl
  simp [spawned, State.pushBack, State.modifyThread, spawnedThread]

theorem blockThread_ok {s : State} {tid : ℤ} {r : ThreadRef} (h : s.At tid r) :
    blockThread tid s = .ok (decide (r ∉ s.blockedID), blocked r s) := by
  simp only [blockThread, threadAt_ok h, ok_bind, pure_ok]
  rfl

theorem terminateThread_ok (V : Variant) {s : State} {i : Fin maxThreadNum} {r : ThreadRef}
    (h : s.allThreads i = some r) :
    terminateThread V (i : ℕ) s = .ok (0, terminated V.remains i r s) := by
  simp only [terminateThread, cell_index, h, ok_bind, setCell_index, pure_ok]
  rfl

theorem resumeThread_requeues {s : State} {tid : ℤ} {r : ThreadRef} (h : s.At tid r)
    (hq : Requeues s r) : resumeThread tid s = .ok (0, resumed r s) := by
  have hs : (({ s with blockedID := s.blockedID.erase r }.modifyThread r
      fun t => { t with status := .ready }).heap r).isSleep = false := by
    rw [modifyThread_self]; exact hq.1
  simp only [resumeThread, threadAt_ok h, ok_bind, if_pos hq.2]
  rw [if_pos hs, pure_ok]
  congr 2
  refine State.ext ?_ rfl rfl ?_ ?_ rfl rfl rfl rfl rfl
  · simp [resumed, hq, State.modifyThread, State.pushBack]
  · simp [resumed, hq, State.modifyThread, State.pushBack]
  · simp [resumed, hq, State.modifyThread, State.pushBack]

theorem resumeThread_keeps {s : State} {tid : ℤ} {r : ThreadRef} (h : s.At tid r)
    (hb : (s.heap r).status ≠ .blocked) : resumeThread tid s = .ok (-1, s) := by
  simp only [resumeThread, threadAt_ok h, ok_bind, if_neg hb, pure_ok]

theorem resumed_of_requeues {s : State} {r : ThreadRef} (hq : Requeues s r) :
    (resumed r s).modifyThread r (fun t => { t with status := .ready }) = resumed r s := by
  refine State.ext ?_ rfl rfl rfl rfl rfl rfl rfl rfl rfl
  simp [resumed, hq, State.modifyThread]

theorem resumed_of_not_requeues {s : State} {r : ThreadRef} (hq : ¬ Requeues s r) :
    s.modifyThread r (fun t => { t with status := .ready }) = resumed r s := by
  refine State.ext ?_ rfl rfl ?_ ?_ rfl rfl rfl rfl rfl <;>
    simp [resumed, hq, State.modifyThread]

theorem uthreadResume_ok {s : State} {tid : ℤ} {r : ThreadRef} (h : s.At tid r) :
    uthreadResume tid s = .ok (.returns (.returned 0) (unmaskSignals (resumed r s))) := by
  have hm : (maskSignals s).At tid r := h
  have hmask : ∀ t, t = resumed r (maskSignals s) →
      unmaskSignals t = unmaskSignals (resumed r s) := by rintro t rfl; rfl
  simp only [uthreadResume, checkValidTid_ok hm, ok_bind, threadAt_ok hm, pure_ok]
  by_cases hs : ((maskSignals s).heap r).isSleep = false
  · rw [if_pos hs]
    by_cases hb : ((maskSignals s).heap r).status = .blocked
    · have hq : Requeues (maskSignals s) r := ⟨hs, hb⟩
      have hat : (resumed r (maskSignals s)).At tid r := h
      simp only [resumeThread_requeues hm hq, ok_bind, threadAt_ok hat]
      rw [hmask _ (resumed_of_requeues hq)]
    · have hq : ¬ Requeues (maskSignals s) r := fun h => hb h.2
      simp only [resumeThread_keeps hm hb, ok_bind, threadAt_ok hm]
      rw [hmask _ (resumed_of_not_requeues hq)]
  · have hq : ¬ Requeues (maskSignals s) r := fun h => hs h.1
    rw [if_neg hs, hmask _ (resumed_of_not_requeues hq)]

/-- The write past the table makes the shutdown undefined. -/
theorem terminateProcess_faults (V : Variant) (s : State) :
    terminateProcess V s = .error (.outOfRange 100) := by
  simp [terminateProcess, State.setCell]

/-- The table, the identifiers and the counter agree. -/
structure Table (s : State) : Prop where
  main_cell : ∃ m, s.allThreads 0 = some m
  cell_id : ∀ i r, s.allThreads i = some r → (s.heap r).id = (i : ℕ)
  count_cells : s.countReady = ((Finset.univ.filter fun i => s.allThreads i ≠ none).card : ℤ)

theorem Table.distinct {s : State} (h : Table s) : State.Distinct s := by
  intro i j r hi hj
  have := (h.cell_id i r hi).symm.trans (h.cell_id j r hj)
  exact Fin.ext (by omega)

theorem Table.at_iff {s : State} (h : Table s) {r : ThreadRef} (hr : s.Live r)
    (tid : ℤ) : s.At tid r ↔ (s.heap r).id = tid := by
  obtain ⟨i, hi⟩ := hr
  have hid := h.cell_id i r hi
  constructor
  · rintro ⟨j, hj, hjr⟩
    rw [h.cell_id j r hjr, hj]
  · intro ht
    exact ⟨i, by omega, hi⟩

theorem Table.count_eq {s : State} (h : Table s) :
    count s = (Finset.univ.filter fun i => s.allThreads i ≠ none).card := by
  have hle : (Finset.univ.filter fun i => s.allThreads i ≠ none).card ≤ 100 := by
    have := Finset.card_filter_le (Finset.univ : Finset (Fin maxThreadNum))
      fun i => s.allThreads i ≠ none
    simpa using this
  rw [count, h.count_cells]
  omega

/-- Different identifiers belong to different records. -/
theorem Table.at_ne {s : State} (h : Table s) {i j : ℤ} {r q : ThreadRef} (hr : s.At i r)
    (hq : s.At j q) (hne : j ≠ i) : r ≠ q := by
  rintro rfl
  exact hne (((h.at_iff (At.live hq) j).mp hq).symm.trans ((h.at_iff (At.live hr) i).mp hr))

/-- The limit test of `uthread_spawn` and the scan of `findId` agree. -/
theorem Table.count_full {s : State} (h : Table s) :
    maxThreadNum ≤ count s ↔ ∀ i, s.allThreads i ≠ none := by
  rw [h.count_eq]
  constructor
  · intro hfull i
    have heq := Finset.eq_of_subset_of_card_le
      (Finset.filter_subset (fun i => s.allThreads i ≠ none) Finset.univ)
      (by simpa using hfull)
    have := Finset.mem_univ i
    rw [← heq] at this
    exact (Finset.mem_filter.mp this).2
  · intro hall
    rw [Finset.filter_true_of_mem fun i _ => hall i]
    simp

/-- Below the limit `findId` finds a cell. -/
theorem Table.findId_room {s : State} (h : Table s) (hroom : count s < maxThreadNum) :
    ∃ i : Fin maxThreadNum, FirstFree s i ∧ findId s = (i : ℕ) := by
  rcases findId_cases s with hfound | ⟨_, hnone⟩
  · exact hfound
  · refine (not_le.mpr hroom (h.count_full.mpr fun i => ?_)).elim
    by_cases h0 : i = 0
    · obtain ⟨m, hm⟩ := h.main_cell
      rw [h0, hm]
      simp
    · exact hnone i h0

theorem Table.frame {s t : State} (h : Table s) (htable : t.allThreads = s.allThreads)
    (hcount : t.countReady = s.countReady) (hid : ∀ r, s.Live r → (t.heap r).id = (s.heap r).id) :
    Table t := by
  constructor
  case main_cell => rw [htable]; exact h.main_cell
  case cell_id =>
    intro i r hr
    rw [htable] at hr
    rw [hid r ⟨i, hr⟩]
    exact h.cell_id i r hr
  case count_cells => rw [hcount, htable]; exact h.count_cells

theorem spawned_cell (i : Fin maxThreadNum) (pc : ℕ) (s : State) :
    (spawned i pc s).allThreads i = some s.nextRef := Function.update_self ..

theorem spawned_cell_of_ne {i j : Fin maxThreadNum} (pc : ℕ) (s : State) (h : j ≠ i) :
    (spawned i pc s).allThreads j = s.allThreads j := Function.update_of_ne h ..

theorem spawned_live {s : State} {i : Fin maxThreadNum} (pc : ℕ) (hi : FirstFree s i)
    (r : ThreadRef) : (spawned i pc s).Live r ↔ r = s.nextRef ∨ s.Live r := by
  constructor
  · rintro ⟨j, hj⟩
    by_cases hji : j = i
    · subst hji
      exact Or.inl (Option.some.inj (hj.symm.trans (spawned_cell j pc s)))
    · rw [spawned_cell_of_ne pc s hji] at hj
      exact Or.inr ⟨j, hj⟩
  · rintro (rfl | ⟨j, hj⟩)
    · exact ⟨i, spawned_cell i pc s⟩
    · have hji : j ≠ i := by rintro rfl; rw [hi.2.1] at hj; cases hj
      exact ⟨j, (spawned_cell_of_ne pc s hji).trans hj⟩

theorem spawned_at {s : State} {i : Fin maxThreadNum} {tid : ℤ} {r : ThreadRef} (pc : ℕ)
    (hi : FirstFree s i) (h : s.At tid r) : (spawned i pc s).At tid r := by
  obtain ⟨j, hj, hjr⟩ := h
  have hji : j ≠ i := by rintro rfl; rw [hi.2.1] at hjr; cases hjr
  exact ⟨j, hj, (spawned_cell_of_ne pc s hji).trans hjr⟩

theorem table_spawned {s : State} (h : Table s) {i : Fin maxThreadNum} (pc : ℕ)
    (hi : FirstFree s i) (hfresh : ¬ s.Live s.nextRef) : Table (spawned i pc s) := by
  constructor
  case main_cell => rw [spawned_cell_of_ne pc s (Ne.symm hi.1)]; exact h.main_cell
  case cell_id =>
    intro j r hj
    by_cases hji : j = i
    · subst hji
      obtain rfl : r = s.nextRef := Option.some.inj (hj.symm.trans (spawned_cell j pc s))
      rw [spawned_self]
      rfl
    · rw [spawned_cell_of_ne pc s hji] at hj
      have hne : r ≠ s.nextRef := by rintro rfl; exact hfresh ⟨j, hj⟩
      rw [spawned_of_ne hne]
      exact h.cell_id j r hj
  case count_cells =>
    have hset : (Finset.univ.filter fun j => (spawned i pc s).allThreads j ≠ none) =
        insert i (Finset.univ.filter fun j => s.allThreads j ≠ none) := by
      ext j
      by_cases hji : j = i
      · subst hji; simp [spawned_cell]
      · simp [spawned_cell_of_ne pc s hji, hji]
    have hnot : i ∉ Finset.univ.filter fun j => s.allThreads j ≠ none := by simp [hi.2.1]
    rw [hset, Finset.card_insert_of_notMem hnot]
    have := h.count_cells
    have hc : (spawned i pc s).countReady = s.countReady + 1 := rfl
    omega

theorem terminated_cell (remains : ThreadRef → Thread → Thread) (i : Fin maxThreadNum)
    (r : ThreadRef) (s : State) : (terminated remains i r s).allThreads i = none :=
  Function.update_self ..

theorem terminated_cell_of_ne (remains : ThreadRef → Thread → Thread) {i j : Fin maxThreadNum}
    (r : ThreadRef) (s : State) (h : j ≠ i) :
    (terminated remains i r s).allThreads j = s.allThreads j := Function.update_of_ne h ..

theorem terminated_deleted (remains : ThreadRef → Thread → Thread) (i : Fin maxThreadNum)
    (r : ThreadRef) (s : State) : (terminated remains i r s).deleted r = true :=
  Function.update_self ..

theorem terminated_deleted_of_ne (remains : ThreadRef → Thread → Thread)
    (i : Fin maxThreadNum) {r q : ThreadRef} (s : State) (h : q ≠ r) :
    (terminated remains i r s).deleted q = s.deleted q := Function.update_of_ne h ..

theorem terminated_live {s : State} (h : Table s) (remains : ThreadRef → Thread → Thread)
    {i : Fin maxThreadNum} {r : ThreadRef} (hi : s.allThreads i = some r) (q : ThreadRef) :
    (terminated remains i r s).Live q ↔ s.Live q ∧ q ≠ r := by
  constructor
  · rintro ⟨j, hj⟩
    have hji : j ≠ i := by rintro rfl; rw [terminated_cell] at hj; cases hj
    rw [terminated_cell_of_ne remains r s hji] at hj
    refine ⟨⟨j, hj⟩, ?_⟩
    rintro rfl
    exact hji (h.distinct j i q hj hi)
  · rintro ⟨⟨j, hj⟩, hne⟩
    have hji : j ≠ i := by
      rintro rfl
      exact hne (Option.some.inj (hj.symm.trans hi))
    exact ⟨j, (terminated_cell_of_ne remains r s hji).trans hj⟩

theorem terminated_at (remains : ThreadRef → Thread → Thread) {s : State} {i : Fin maxThreadNum}
    {tid : ℤ} {r q : ThreadRef} (hi : s.allThreads i = some q) (hr : s.At tid r) (hrq : r ≠ q) :
    (terminated remains i q s).At tid r := by
  obtain ⟨j, hj, hjr⟩ := hr
  have hji : j ≠ i := by
    rintro rfl
    exact hrq (Option.some.inj (hjr.symm.trans hi))
  exact ⟨j, hj, (terminated_cell_of_ne remains q s hji).trans hjr⟩

theorem table_terminated {s : State} (h : Table s) (remains : ThreadRef → Thread → Thread)
    {i : Fin maxThreadNum} {r : ThreadRef} (hi : s.allThreads i = some r) (hi0 : i ≠ 0) :
    Table (terminated remains i r s) := by
  constructor
  case main_cell =>
    rw [terminated_cell_of_ne remains r s (Ne.symm hi0)]
    exact h.main_cell
  case cell_id =>
    intro j q hj
    have hq := (terminated_live h remains hi q).mp ⟨j, hj⟩
    have hji : j ≠ i := by rintro rfl; rw [terminated_cell] at hj; cases hj
    rw [terminated_cell_of_ne remains r s hji] at hj
    rw [terminated_of_ne hq.2]
    exact h.cell_id j q hj
  case count_cells =>
    have hset : (Finset.univ.filter fun j => (terminated remains i r s).allThreads j ≠ none) =
        (Finset.univ.filter fun j => s.allThreads j ≠ none).erase i := by
      ext j
      by_cases hji : j = i
      · subst hji; simp [terminated_cell]
      · simp [terminated_cell_of_ne remains r s hji, hji]
    have hin : i ∈ Finset.univ.filter fun j => s.allThreads j ≠ none := by simp [hi]
    have hcard := Finset.card_erase_add_one hin
    rw [hset]
    have := h.count_cells
    have hc : (terminated remains i r s).countReady = s.countReady - 1 := rfl
    omega

section Exits

variable {V : Variant} {s : State} {tid : ℤ} {c r : ThreadRef} {i : Fin maxThreadNum}
  {e : CallError}

theorem uthreadTerminate_invalid (h : checkValidTid tid s = .ok (some e)) :
    uthreadTerminate V tid s = .ok (.returns (.failed e) (maskSignals s)) := by
  have hm : checkValidTid tid (maskSignals s) = .ok (some e) := h
  simp only [uthreadTerminate, hm, ok_bind, pure_ok]

theorem uthreadTerminate_main (h : s.At mainThreadTid r) :
    uthreadTerminate V mainThreadTid s = .error (.outOfRange 100) := by
  have hm : (maskSignals s).At mainThreadTid r := h
  simp only [uthreadTerminate, checkValidTid_ok hm, ok_bind, if_true, terminateProcess_faults,
    error_bind]

/-- The exit of the process is a fault, for its write behind the table. -/
theorem step_terminate_main (h : s.allThreads 0 = some r) :
    step V s (.call (.terminate mainThreadTid)) = .error (.outOfRange maxThreadNum) := by
  have hat : s.At mainThreadTid r := ⟨0, rfl, h⟩
  simp only [step, request, uthreadTerminate_main hat, error_bind]
  rfl

theorem uthreadTerminate_self (hi : s.allThreads i = some c) (h0 : i ≠ 0)
    (hc : s.curRunning = some c) (hid : (s.heap c).id = (i : ℕ)) :
    uthreadTerminate V (i : ℕ) s =
      .ok (.switches (.selfTerminate (i : ℕ)) (maskSignals (terminated V.remains i c s))) := by
  have hm : (maskSignals s).At (i : ℕ) c := ⟨i, rfl, hi⟩
  have hcm : (maskSignals s).curRunning = some c := hc
  have hidm : ((maskSignals s).heap c).id = (i : ℕ) := hid
  have h0' : ¬ ((i : ℕ) : ℤ) = mainThreadTid := fun h => h0 (Fin.ext (by simpa using h))
  have hterm := terminateThread_ok V (s := maskSignals s) hi
  simp only [uthreadTerminate, checkValidTid_ok hm, ok_bind, if_neg h0', hcm, deref_some,
    if_pos hidm, hterm, ne_eq, not_true_eq_false, if_false, pure_ok]
  rfl

theorem uthreadTerminate_other (hi : s.allThreads i = some r) (h0 : i ≠ 0)
    (hc : s.curRunning = some c) (hid : (s.heap c).id ≠ (i : ℕ)) :
    uthreadTerminate V (i : ℕ) s =
      .ok (.returns (.returned 0) (unmaskSignals (terminated V.remains i r s))) := by
  have hm : (maskSignals s).At (i : ℕ) r := ⟨i, rfl, hi⟩
  have hcm : (maskSignals s).curRunning = some c := hc
  have hidm : ¬ ((maskSignals s).heap c).id = (i : ℕ) := hid
  have h0' : ¬ ((i : ℕ) : ℤ) = mainThreadTid := fun h => h0 (Fin.ext (by simpa using h))
  have hterm := terminateThread_ok V (s := maskSignals s) hi
  simp only [uthreadTerminate, checkValidTid_ok hm, ok_bind, if_neg h0', hcm, deref_some,
    if_neg hidm, hterm, ne_eq, not_true_eq_false, if_false, pure_ok]
  rfl

theorem uthreadBlock_invalid (h : checkValidTid tid s = .ok (some e)) :
    uthreadBlock V tid s = .ok (.returns (.failed e) (maskSignals s)) := by
  have hm : checkValidTid tid (maskSignals s) = .ok (some e) := h
  simp only [uthreadBlock, hm, ok_bind, pure_ok]

theorem uthreadBlock_main (h : s.At mainThreadTid r) :
    uthreadBlock V mainThreadTid s = .ok (.returns (.failed .blockMain) (maskSignals s)) := by
  have hm : (maskSignals s).At mainThreadTid r := h
  simp only [uthreadBlock, checkValidTid_ok hm, ok_bind, if_true, pure_ok]

/-- `block` is what `V.blockThread` does to the state. -/
theorem uthreadBlock_ok (block : State → State) {b : Bool} (h : s.At tid r)
    (h0 : tid ≠ mainThreadTid)
    (hblock : V.blockThread tid (maskSignals s) = .ok (b, block (maskSignals s)))
    (hc : (block (maskSignals s)).curRunning = some c) :
    uthreadBlock V tid s = .ok (if ((block (maskSignals s)).heap c).id = tid
      then .switches .selfBlock (maskSignals (block (maskSignals s)))
      else .returns (.returned 0) (unmaskSignals (block (maskSignals s)))) := by
  have hm : (maskSignals s).At tid r := h
  simp only [uthreadBlock, checkValidTid_ok hm, ok_bind, if_neg h0, hblock, hc, deref_some]
  by_cases hself : ((block (maskSignals s)).heap c).id = tid
  · simp only [if_pos hself, launchTimer, pure_ok]
  · simp only [if_neg hself, pure_ok]

theorem uthreadResume_invalid (h : checkValidTid tid s = .ok (some e)) :
    uthreadResume tid s = .ok (.returns (.failed e) (maskSignals s)) := by
  have hm : checkValidTid tid (maskSignals s) = .ok (some e) := h
  simp only [uthreadResume, hm, ok_bind, pure_ok]

theorem uthreadSleep_nonpositive {n : ℤ} (hn : n ≤ 0) :
    uthreadSleep n s = .ok (.returns (.failed .sleepNotPositive) (maskSignals s)) := by
  simp only [uthreadSleep, if_pos hn, pure_ok]

theorem uthreadSleep_main {n : ℤ} (hn : 0 < n) (hc : s.curRunning = some c)
    (hid : (s.heap c).id = mainThreadTid) :
    uthreadSleep n s = .ok (.returns (.failed .mainSleeps) (maskSignals s)) := by
  have hcm : (maskSignals s).curRunning = some c := hc
  have hidm : ((maskSignals s).heap c).id = mainThreadTid := hid
  simp only [uthreadSleep, if_neg (not_le.mpr hn), hcm, deref_some, ok_bind, if_pos hidm,
    pure_ok]

theorem uthreadSleep_ok {n : ℤ} (hn : 0 < n) (hc : s.curRunning = some c)
    (hid : (s.heap c).id ≠ mainThreadTid) :
    uthreadSleep n s = .ok (.switches .sleepCall (maskSignals (asleep n c s))) := by
  have hcm : (maskSignals s).curRunning = some c := hc
  have hidm : ¬ ((maskSignals s).heap c).id = mainThreadTid := hid
  simp only [uthreadSleep, if_neg (not_le.mpr hn), hcm, deref_some, ok_bind, if_neg hidm,
    pure_ok]
  rfl

theorem uthreadSpawn_refused {entryPoint : Option ℕ} (h : spawnCheck entryPoint s = .inl e) :
    uthreadSpawn entryPoint s = .ok (.returns (.failed e) s) := by
  simp only [uthreadSpawn, h]

theorem uthreadSpawn_ok {pc : ℕ} (hroom : count s < maxThreadNum) (hi : findId s = (i : ℕ)) :
    uthreadSpawn (some pc) s =
      .ok (.returns (.returned (i : ℕ)) (unmaskSignals (spawned i pc s))) := by
  have him : findId (maskSignals s) = (i : ℕ) := hi
  simp only [uthreadSpawn, spawnCheck, if_neg (not_le.mpr hroom), spawnMasked,
    addThread_ok pc him, ok_bind, pure_ok]
  rfl

theorem uthreadGetQuantums_invalid (h : checkValidTid tid s = .ok (some e)) :
    uthreadGetQuantums tid s = .ok (.returns (.failed e) s) := by
  simp only [uthreadGetQuantums, h, ok_bind, pure_ok]

theorem uthreadGetQuantums_ok (h : s.At tid r) :
    uthreadGetQuantums tid s = .ok (.returns (.returned (s.heap r).quantum) s) := by
  simp only [uthreadGetQuantums, checkValidTid_ok h, readQuantum, threadAt_ok h, ok_bind,
    pure_ok]

end Exits

/-- Calls that fail after the signal has been masked. -/
def Rejected (s : State) : Call → Prop
  | .terminate tid => ∀ r, ¬ s.At tid r
  | .block tid => tid = mainThreadTid ∨ ∀ r, ¬ s.At tid r
  | .resume tid => ∀ r, ¬ s.At tid r
  | .sleep n => n ≤ 0 ∨ ∃ c, s.curRunning = some c ∧ (s.heap c).id = mainThreadTid
  | _ => False

/-- Calls that change nothing but, at most, the signal mask. -/
def Idle (s : State) : Call → Prop
  | .spawn entryPoint => entryPoint = none ∨ maxThreadNum ≤ count s
  | .getTid => True
  | .getTotalQuantums => True
  | .getQuantums _ => True
  | call => Rejected s call

/-- A call that comes back to its caller. -/
inductive Quiet (remains : ThreadRef → Thread → Thread) (s : State) :
    Call → Outcome → State → Prop where
  | idle {call o} (b : Bool) : Idle s call → (∀ next v, o ≠ .dispatched next v) →
      b = s.masked ∨ Rejected s call → Quiet remains s call o { s with masked := b }
  | spawn {pc i} : FirstFree s i →
      Quiet remains s (.spawn (some pc)) (.returned (i : ℕ)) (unmaskSignals (spawned i pc s))
  | block {tid r c} : s.At tid r → tid ≠ mainThreadTid → s.curRunning = some c → r ≠ c →
      Quiet remains s (.block tid) (.returned 0) (unmaskSignals (blocked r s))
  | resume {tid r} : s.At tid r →
      Quiet remains s (.resume tid) (.returned 0) (unmaskSignals (resumed r s))
  | terminate {i r c} : s.allThreads i = some r → i ≠ 0 → s.curRunning = some c → r ≠ c →
      Quiet remains s (.terminate (i : ℕ)) (.returned 0)
        (unmaskSignals (terminated remains i r s))

theorem Quiet.returns {remains : ThreadRef → Thread → Thread} {s t : State} {call : Call}
    {o : Outcome} (h : Quiet remains s call o t) (next : ThreadRef) (v : Option ℤ) :
    o ≠ .dispatched next v := by
  cases h with
  | idle b _ ho => exact ho next v
  | spawn => simp
  | block => simp
  | resume => simp
  | terminate => simp

/-- How `switchThread` is entered: by which thread, with which context, in which state. -/
inductive Enters (remains : ThreadRef → Thread → Thread) (s : State) :
    Event → ThreadRef → Context → State → Prop where
  | timer {c} : s.masked = false → s.curRunning = some c →
      Enters remains s .timer c .signalHandler s
  | blockSelf {tid c} : s.At tid c → tid ≠ mainThreadTid → s.curRunning = some c →
      Enters remains s (.call (.block tid)) c .selfBlock (blocked c s)
  | sleep {n c} : 0 < n → s.curRunning = some c → (s.heap c).id ≠ mainThreadTid →
      Enters remains s (.call (.sleep n)) c .sleepCall (asleep n c s)
  | exit {i c} : s.allThreads i = some c → i ≠ 0 → s.curRunning = some c →
      Enters remains s (.call (.terminate (i : ℕ))) c (.selfTerminate (i : ℕ))
        (terminated remains i c s)

/-- Process exit, and a timer signal that the kernel holds back. -/
inductive Refused (s : State) : Event → Fault → Prop where
  | exits : Refused s (.call (.terminate mainThreadTid)) (.outOfRange 100)
  | held : s.masked = true → Refused s .timer .signalMasked

section StepCases

variable {remains : ThreadRef → Thread → Thread} {s : State} {c : ThreadRef}

theorem request_spawn (ht : Table s) (entryPoint : Option ℕ) :
    ∃ o t, request (uthreads remains) s (.spawn entryPoint) = .ok (.returns o t) ∧
      Quiet remains s (.spawn entryPoint) o t := by
  by_cases hfull : maxThreadNum ≤ count s
  · have hcheck : spawnCheck entryPoint s = .inl .maxNumber := if_pos hfull
    exact ⟨_, s, uthreadSpawn_refused hcheck,
      .idle s.masked (Or.inr hfull) (by simp) (Or.inl rfl)⟩
  cases entryPoint with
  | none =>
    have hcheck : spawnCheck none s = .inl .nullEntryPoint := if_neg hfull
    exact ⟨_, s, uthreadSpawn_refused hcheck,
      .idle s.masked (Or.inl rfl) (by simp) (Or.inl rfl)⟩
  | some pc =>
    obtain ⟨i, hfree, hid⟩ := ht.findId_room (not_le.mp hfull)
    exact ⟨_, _, uthreadSpawn_ok (not_le.mp hfull) hid, .spawn hfree⟩

theorem request_block (remains : ThreadRef → Thread → Thread) (ht : Table s)
    (hc : s.curRunning = some c) (hlive : s.Live c) (tid : ℤ) :
    (∃ o t, request (uthreads remains) s (.block tid) = .ok (.returns o t) ∧
      Quiet remains s (.block tid) o t) ∨
    (∃ ctx s', request (uthreads remains) s (.block tid) = .ok (.switches ctx (maskSignals s')) ∧
      Enters remains s (.call (.block tid)) c ctx s') := by
  rcases checkValidTid_cases s tid with ⟨r, hr⟩ | ⟨hnone, e, he⟩
  · by_cases h0 : tid = mainThreadTid
    · subst h0
      exact Or.inl ⟨_, _, uthreadBlock_main hr,
        .idle true (Or.inl rfl) (by simp) (Or.inr (Or.inl rfl))⟩
    have hm : (maskSignals s).At tid r := hr
    have hblock := uthreadBlock_ok (V := uthreads remains) (blocked r) hr h0
      (blockThread_ok hm) hc
    have hid : ((blocked r (maskSignals s)).heap c).id = (s.heap c).id := by
      by_cases hcr : c = r
      · subst hcr; rw [blocked_self]; rfl
      · rw [blocked_of_ne hcr]; rfl
    rw [hid] at hblock
    by_cases hself : (s.heap c).id = tid
    · rw [if_pos hself] at hblock
      obtain rfl : r = c := At.unique hr ((ht.at_iff hlive tid).mpr hself)
      exact Or.inr ⟨.selfBlock, blocked r s, hblock, .blockSelf hr h0 hc⟩
    · rw [if_neg hself] at hblock
      refine Or.inl ⟨_, _, hblock, .block hr h0 hc ?_⟩
      rintro rfl
      exact hself ((ht.at_iff hlive tid).mp hr)
  · exact Or.inl ⟨_, _, uthreadBlock_invalid he, .idle true (Or.inr hnone) (by simp)
      (Or.inr (Or.inr hnone))⟩

theorem request_terminate (remains : ThreadRef → Thread → Thread) (ht : Table s)
    (hc : s.curRunning = some c) (hlive : s.Live c) (tid : ℤ) :
    (∃ o t, request (uthreads remains) s (.terminate tid) = .ok (.returns o t) ∧
      Quiet remains s (.terminate tid) o t) ∨
    (∃ ctx s', request (uthreads remains) s (.terminate tid) =
        .ok (.switches ctx (maskSignals s')) ∧
      Enters remains s (.call (.terminate tid)) c ctx s') ∨
    (∃ f, request (uthreads remains) s (.terminate tid) = .error f ∧
      Refused s (.call (.terminate tid)) f) := by
  rcases checkValidTid_cases s tid with ⟨r, hr⟩ | ⟨hnone, e, he⟩
  · by_cases h0 : tid = mainThreadTid
    · subst h0
      exact Or.inr (Or.inr ⟨_, uthreadTerminate_main hr, .exits⟩)
    obtain ⟨i, rfl, hcell⟩ := hr
    have hi0 : i ≠ 0 := by rintro rfl; exact h0 rfl
    by_cases hself : (s.heap c).id = (i : ℕ)
    · obtain rfl : r = c := At.unique ⟨i, rfl, hcell⟩ ((ht.at_iff hlive (i : ℕ)).mpr hself)
      exact Or.inr (Or.inl ⟨_, _, uthreadTerminate_self hcell hi0 hc hself,
        .exit hcell hi0 hc⟩)
    · refine Or.inl ⟨_, _, uthreadTerminate_other hcell hi0 hc hself,
        .terminate hcell hi0 hc ?_⟩
      rintro rfl
      exact hself (ht.cell_id i r hcell)
  · exact Or.inl ⟨_, _, uthreadTerminate_invalid he, .idle true hnone (by simp) (Or.inr hnone)⟩

/-- A public call comes back, enters a switch, or is the exit of the process. -/
theorem request_cases (remains : ThreadRef → Thread → Thread) (ht : Table s)
    (hc : s.curRunning = some c) (hlive : s.Live c) (call : Call) :
    (∃ o t, request (uthreads remains) s call = .ok (.returns o t) ∧ Quiet remains s call o t) ∨
    (∃ ctx s', request (uthreads remains) s call = .ok (.switches ctx (maskSignals s')) ∧
      Enters remains s (.call call) c ctx s') ∨
    (∃ f, request (uthreads remains) s call = .error f ∧ Refused s (.call call) f) := by
  cases call with
  | spawn entryPoint => exact Or.inl (request_spawn ht entryPoint)
  | getTid =>
    refine Or.inl ⟨.returned (s.heap c).id, s, ?_,
      .idle s.masked trivial (by simp) (Or.inl rfl)⟩
    simp only [request, uthreadGetTid, hc, deref_some, ok_bind, pure_ok]
  | getTotalQuantums => exact Or.inl ⟨_, s, rfl, .idle s.masked trivial (by simp) (Or.inl rfl)⟩
  | getQuantums tid =>
    rcases checkValidTid_cases s tid with ⟨r, hr⟩ | ⟨_, e, he⟩
    · exact Or.inl ⟨_, s, uthreadGetQuantums_ok hr,
        .idle s.masked trivial (by simp) (Or.inl rfl)⟩
    · exact Or.inl ⟨_, s, uthreadGetQuantums_invalid he,
        .idle s.masked trivial (by simp) (Or.inl rfl)⟩
  | resume tid =>
    rcases checkValidTid_cases s tid with ⟨r, hr⟩ | ⟨hnone, e, he⟩
    · exact Or.inl ⟨_, _, uthreadResume_ok hr, .resume hr⟩
    · exact Or.inl ⟨_, _, uthreadResume_invalid he, .idle true hnone (by simp) (Or.inr hnone)⟩
  | sleep n =>
    by_cases hn : n ≤ 0
    · exact Or.inl ⟨_, _, uthreadSleep_nonpositive hn,
        .idle true (Or.inl hn) (by simp) (Or.inr (Or.inl hn))⟩
    · by_cases hid : (s.heap c).id = mainThreadTid
      · exact Or.inl ⟨_, _, uthreadSleep_main (not_le.mp hn) hc hid,
          .idle true (Or.inr ⟨c, hc, hid⟩) (by simp)
            (Or.inr (Or.inr ⟨c, hc, hid⟩))⟩
      · exact Or.inr (Or.inl ⟨_, _, uthreadSleep_ok (not_le.mp hn) hc hid,
          .sleep (not_le.mp hn) hc hid⟩)
  | block tid =>
    rcases request_block remains ht hc hlive tid with hq | he
    · exact Or.inl hq
    · exact Or.inr (Or.inl he)
  | terminate tid => exact request_terminate remains ht hc hlive tid

/-- `switchThread` is called in state `s'`. -/
def SwitchEntry (V : Variant) (s : State) (e : Event) (s' : State) : Prop :=
  (e = .timer ∧ s' = s) ∨
    ∃ call ctx, e = .call call ∧ request V s call = .ok (.switches ctx s')

theorem switch_entry {remains : ThreadRef → Thread → Thread} {e : Event} {s' : State}
    (ht : Table s) (hc : s.curRunning = some c) (hlive : s.Live c)
    (hm : e = .timer → s.masked = false) (h : SwitchEntry (uthreads remains) s e s') :
    ∃ ctx s'', Enters remains s e c ctx s'' ∧ (s' = s'' ∨ s' = maskSignals s'') := by
  rcases h with ⟨rfl, rfl⟩ | ⟨call, ctx, rfl, hr⟩
  · exact ⟨_, _, .timer (hm rfl) hc, Or.inl rfl⟩
  · rcases request_cases remains ht hc hlive call with
      ⟨o, t, hr', _⟩ | ⟨ctx', s'', hr', he⟩ | ⟨f, hr', _⟩
    · rw [hr] at hr'; cases hr'
    · rw [hr] at hr'; cases hr'
      exact ⟨_, s'', he, Or.inr rfl⟩
    · rw [hr] at hr'; cases hr'

theorem step_cases (remains : ThreadRef → Thread → Thread) (ht : Table s)
    (hc : s.curRunning = some c) (hlive : s.Live c) (e : Event) :
    (∃ call o t, e = .call call ∧ step (uthreads remains) s e = .ok (o, t) ∧
      Quiet remains s call o t) ∨
    (∃ ctx s', step (uthreads remains) s e = switchThread (uthreads remains) ctx s' ∧
      Enters remains s e c ctx s') ∨
    (∃ f, step (uthreads remains) s e = .error f ∧ Refused s e f) := by
  cases e with
  | timer =>
    cases hm : s.masked with
    | true => exact Or.inr (Or.inr ⟨_, by simp [step, hm], .held hm⟩)
    | false => exact Or.inr (Or.inl ⟨_, s, by simp [step, hm], .timer hm hc⟩)
  | call call =>
    rcases request_cases remains ht hc hlive call with
      ⟨o, t, hr, hq⟩ | ⟨ctx, s', hr, he⟩ | ⟨f, hr, hf⟩
    · exact Or.inl ⟨call, o, t, rfl, by simp only [step, hr, ok_bind, pure_ok], hq⟩
    · refine Or.inr (Or.inl ⟨ctx, s', ?_, he⟩)
      simp only [step, hr, ok_bind]
      rfl
    · exact Or.inr (Or.inr ⟨f, by simp only [step, hr, error_bind], hf⟩)

end StepCases

end CallEffects
