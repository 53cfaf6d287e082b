import Uthreads.EventRuns
import Uthreads.CallEffects

/-! # The invariant of every run

`Effect` lists what an accepted event has done. `Invariant` holds in every reachable
state, whatever deleted records read as. -/
namespace ThreadInvariant

open ThreadLibrary SwitchSemantics CallEffects EventRuns LazyQueue

/-- A switch that reached user code, and what the dispatched call returns. -/
structure Dispatch (s : State) (c : ThreadRef) (ctx : Context) (next : ThreadRef)
    (value : Option ℤ) (t : State) : Prop extends Switch s c ctx next t where
  alive : s.deleted next = false
  result : value = none ∨ value = some 0

inductive Effect (remains : ThreadRef → Thread → Thread) (s : State) :
    Event → Outcome → State → Prop where
  | quiet {call o t} : Quiet remains s call o t → Effect remains s (.call call) o t
  | switch {e c ctx s' next v t} : Enters remains s e c ctx s' →
      Dispatch s' c ctx next v t → Effect remains s e (.dispatched next v) t

/-- What holds in every state, also while `curRunning` dangles on entry to a switch. -/
structure Consistent (s : State) : Prop extends Table s where
  live_allocated : ∀ r, s.Live r → r < s.nextRef
  live_not_deleted : ∀ r, s.Live r → s.deleted r = false
  deleted_allocated : ∀ r, s.deleted r = true → r < s.nextRef
  queue_known : ∀ r ∈ s.readyQueue, s.Live r ∨ s.deleted r = true
  blocked_known : ∀ r ∈ s.blockedID, r < s.nextRef
  exact_count : ∀ r, s.Live r → surplusOf s.heap s.readyQueue r = 0
  sleep_clock : ∀ r, s.Live r → (s.heap r).isSleep = true → 0 < (s.heap r).waitingTime
  awake_clock : ∀ r, s.Live r → (s.heap r).isSleep = false → (s.heap r).waitingTime = -1
  main_awake : ∀ m, s.allThreads 0 = some m → (s.heap m).isSleep = false
  main_unblocked : ∀ m, s.allThreads 0 = some m → (s.heap m).status ≠ .blocked
  no_return : ∀ r tid, s.deleted r = false → (s.heap r).env ≠ .selfTerminate tid

structure Invariant (s : State) : Prop extends Consistent s where
  current_live : ∃ c, s.curRunning = some c ∧ s.Live c
  current_unblocked : ∀ c, s.curRunning = some c → (s.heap c).status ≠ .blocked

theorem Consistent.fresh {s : State} (h : Consistent s) :
    ¬ s.Live s.nextRef ∧ s.deleted s.nextRef = false ∧ s.nextRef ∉ s.readyQueue := by
  have hl : ¬ s.Live s.nextRef := fun k => lt_irrefl _ (h.live_allocated _ k)
  have hd : ¬ s.deleted s.nextRef = true := fun k => lt_irrefl _ (h.deleted_allocated _ k)
  refine ⟨hl, by simpa using hd, fun k => ?_⟩
  exact (h.queue_known _ k).elim hl hd

theorem Consistent.ne_fresh {s : State} (h : Consistent s) {r : ThreadRef} (hr : s.Live r) :
    r ≠ s.nextRef := by
  rintro rfl
  exact h.fresh.1 hr

/-- The mask is not part of the invariant. -/
theorem Consistent.withMask {s : State} (h : Consistent s) (b : Bool) :
    Consistent { s with masked := b } :=
  ⟨h.toTable.frame rfl rfl fun _ _ => rfl, h.live_allocated, h.live_not_deleted,
    h.deleted_allocated, h.queue_known, h.blocked_known, h.exact_count, h.sleep_clock,
    h.awake_clock, h.main_awake, h.main_unblocked, h.no_return⟩

theorem Invariant.withMask {s : State} (h : Invariant s) (b : Bool) :
    Invariant { s with masked := b } :=
  ⟨h.toConsistent.withMask b, h.current_live, h.current_unblocked⟩

/-- A step that leaves the table, the addresses and the identifiers alone. -/
theorem Consistent.frame {s t : State} (h : Consistent s)
    (htable : t.allThreads = s.allThreads) (hnext : t.nextRef = s.nextRef)
    (hdeleted : t.deleted = s.deleted) (hcount : t.countReady = s.countReady)
    (hid : ∀ r, (t.heap r).id = (s.heap r).id)
    (hqueue : ∀ r ∈ t.readyQueue, r ∈ s.readyQueue ∨ s.Live r ∨ s.deleted r = true)
    (hblocked : ∀ r ∈ t.blockedID, r ∈ s.blockedID ∨ s.Live r)
    (hsurplus : ∀ r, s.Live r →
      surplusOf t.heap t.readyQueue r = surplusOf s.heap s.readyQueue r)
    (hsleep : ∀ r, s.Live r → (t.heap r).isSleep = true → 0 < (t.heap r).waitingTime)
    (hawake : ∀ r, s.Live r → (t.heap r).isSleep = false → (t.heap r).waitingTime = -1)
    (hmain : ∀ m, s.allThreads 0 = some m →
      (t.heap m).isSleep = false ∧ (t.heap m).status ≠ .blocked)
    (henv : ∀ r tid, s.deleted r = false → (t.heap r).env ≠ .selfTerminate tid) :
    Consistent t := by
  have hlive : ∀ r, t.Live r ↔ s.Live r := by intro r; simp only [State.Live, htable]
  constructor
  case toTable => exact h.toTable.frame htable hcount fun r _ => hid r
  case live_allocated => intro r hr; rw [hnext]; exact h.live_allocated r ((hlive r).mp hr)
  case live_not_deleted =>
    intro r hr; rw [hdeleted]; exact h.live_not_deleted r ((hlive r).mp hr)
  case deleted_allocated =>
    intro r hr; rw [hnext]; rw [hdeleted] at hr; exact h.deleted_allocated r hr
  case queue_known =>
    intro r hr
    rw [hlive, hdeleted]
    exact (hqueue r hr).elim (h.queue_known r) id
  case blocked_known =>
    intro r hr
    rw [hnext]
    exact (hblocked r hr).elim (h.blocked_known r) (h.live_allocated r)
  case exact_count =>
    intro r hr
    rw [hsurplus r ((hlive r).mp hr)]
    exact h.exact_count r ((hlive r).mp hr)
  case sleep_clock => intro r hr; exact hsleep r ((hlive r).mp hr)
  case awake_clock => intro r hr; exact hawake r ((hlive r).mp hr)
  case main_awake => intro m hm; rw [htable] at hm; exact (hmain m hm).1
  case main_unblocked => intro m hm; rw [htable] at hm; exact (hmain m hm).2
  case no_return => intro r tid hr; rw [hdeleted] at hr; exact henv r tid hr

theorem Consistent.main_ne {s : State} (h : Consistent s) {m r : ThreadRef} {tid : ℤ}
    (hm : s.allThreads 0 = some m) (hr : s.At tid r) (h0 : tid ≠ mainThreadTid) : m ≠ r := by
  rintro rfl
  obtain ⟨i, hi, him⟩ := hr
  have := h.distinct i 0 m him hm
  subst this
  exact h0 hi.symm

theorem consistent_blocked {s : State} (h : Consistent s) {tid : ℤ} {r : ThreadRef}
    (hr : s.At tid r) (h0 : tid ≠ mainThreadTid) : Consistent (blocked r s) := by
  have hclock : ∀ q, ((blocked r s).heap q).isSleep = (s.heap q).isSleep ∧
      ((blocked r s).heap q).waitingTime = (s.heap q).waitingTime ∧
      ((blocked r s).heap q).id = (s.heap q).id ∧ ((blocked r s).heap q).env = (s.heap q).env ∧
      ((blocked r s).heap q).duplicate = (s.heap q).duplicate := by
    intro q
    by_cases hq : q = r
    · subst hq; simp [blocked_self]
    · simp [blocked_of_ne hq]
  refine h.frame rfl rfl rfl rfl (fun q => (hclock q).2.2.1) (fun q hq => Or.inl hq) ?_ ?_
    ?_ ?_ ?_ ?_
  · intro q hq
    rcases Finset.mem_insert.mp hq with rfl | hq
    · exact Or.inr (At.live hr)
    · exact Or.inl hq
  · intro q _
    simp only [surplusOf, (hclock q).2.2.2.2]
    rfl
  · intro q hq; rw [(hclock q).1, (hclock q).2.1]; exact h.sleep_clock q hq
  · intro q hq; rw [(hclock q).1, (hclock q).2.1]; exact h.awake_clock q hq
  · intro m hm
    rw [blocked_of_ne (h.main_ne hm hr h0)]
    exact ⟨h.main_awake m hm, h.main_unblocked m hm⟩
  · intro q k hq; rw [(hclock q).2.2.2.1]; exact h.no_return q k hq

theorem resumed_readyQueue (s : State) (r : ThreadRef) : (resumed r s).readyQueue =
    s.readyQueue ++ if Requeues s r then [r] else [] := rfl

theorem resumed_surplus (s : State) (q r : ThreadRef) :
    surplusOf (resumed r s).heap (resumed r s).readyQueue q =
      surplusOf s.heap s.readyQueue q := by
  rw [resumed_readyQueue]
  by_cases hreq : Requeues s r
  · by_cases hq : q = r
    · subst hq
      simp only [surplusOf, resumed_self, hreq, if_true, List.count_append,
        List.count_singleton_self]
      omega
    · simp [surplusOf, resumed_of_ne hq, hreq, List.count_append, Ne.symm hq]
  · by_cases hq : q = r
    · subst hq; simp [surplusOf, resumed_self, hreq]
    · simp [surplusOf, resumed_of_ne hq, hreq]

theorem consistent_resumed {s : State} (h : Consistent s) {tid : ℤ} {r : ThreadRef}
    (hr : s.At tid r) : Consistent (resumed r s) := by
  have hclock : ∀ q, ((resumed r s).heap q).isSleep = (s.heap q).isSleep ∧
      ((resumed r s).heap q).waitingTime = (s.heap q).waitingTime ∧
      ((resumed r s).heap q).id = (s.heap q).id ∧
      ((resumed r s).heap q).env = (s.heap q).env := by
    intro q
    by_cases hq : q = r
    · subst hq; simp [resumed_self]
    · simp [resumed_of_ne hq]
  refine h.frame rfl rfl rfl rfl (fun q => (hclock q).2.2.1) ?_ ?_ ?_ ?_ ?_ ?_ ?_
  · intro q hq
    rcases List.mem_append.mp hq with hq | hq
    · exact Or.inl hq
    · have : q = r := by
        by_cases hreq : Requeues s r <;> simp [hreq] at hq
        exact hq
      exact Or.inr (Or.inl (this ▸ At.live hr))
  · intro q hq
    have hq : q ∈ if Requeues s r then s.blockedID.erase r else s.blockedID := hq
    split at hq
    · exact Or.inl (Finset.mem_of_mem_erase hq)
    · exact Or.inl hq
  · exact fun q _ => resumed_surplus s q r
  · intro q hq; rw [(hclock q).1, (hclock q).2.1]; exact h.sleep_clock q hq
  · intro q hq; rw [(hclock q).1, (hclock q).2.1]; exact h.awake_clock q hq
  · intro m hm
    refine ⟨(hclock m).1.trans (h.main_awake m hm), ?_⟩
    by_cases hmr : m = r
    · subst hmr; simp [resumed_self]
    · rw [resumed_of_ne hmr]; exact h.main_unblocked m hm
  · intro q k hq; rw [(hclock q).2.2.2]; exact h.no_return q k hq

theorem consistent_asleep {s : State} (h : Consistent s) {n : ℤ} {r : ThreadRef}
    (hn : 0 < n) (h0 : (s.heap r).id ≠ mainThreadTid) : Consistent (asleep n r s) := by
  have hkeep : ∀ q, ((asleep n r s).heap q).id = (s.heap q).id ∧
      ((asleep n r s).heap q).env = (s.heap q).env ∧
      ((asleep n r s).heap q).duplicate = (s.heap q).duplicate := by
    intro q
    by_cases hq : q = r
    · subst hq; simp [asleep_self]
    · simp [asleep_of_ne hq]
  refine h.frame rfl rfl rfl rfl (fun q => (hkeep q).1) (fun q hq => Or.inl hq)
    (fun q hq => Or.inl hq) ?_ ?_ ?_ ?_ ?_
  · intro q _
    simp only [surplusOf, (hkeep q).2.2]
    rfl
  · intro q hq
    by_cases hqr : q = r
    · subst hqr; intro _; rw [asleep_self]; exact hn
    · rw [asleep_of_ne hqr]; exact h.sleep_clock q hq
  · intro q hq
    by_cases hqr : q = r
    · subst hqr; simp [asleep_self]
    · rw [asleep_of_ne hqr]; exact h.awake_clock q hq
  · intro m hm
    have hmr : m ≠ r := by
      rintro rfl
      exact h0 (h.cell_id 0 m hm)
    rw [asleep_of_ne hmr]
    exact ⟨h.main_awake m hm, h.main_unblocked m hm⟩
  · intro q k hq; rw [(hkeep q).2.1]; exact h.no_return q k hq

theorem consistent_spawned {s : State} (h : Consistent s) {i : Fin maxThreadNum} (pc : ℕ)
    (hi : FirstFree s i) : Consistent (spawned i pc s) := by
  obtain ⟨hdead, hundeleted, hunqueued⟩ := h.fresh
  have hlive := spawned_live (s := s) pc hi
  have hold : ∀ r, s.Live r → r ≠ s.nextRef := fun r hr => h.ne_fresh hr
  have hmain : ∀ m, (spawned i pc s).allThreads 0 = some m →
      s.allThreads 0 = some m ∧ m ≠ s.nextRef := by
    intro m hm
    rw [spawned_cell_of_ne pc s (Ne.symm hi.1)] at hm
    exact ⟨hm, hold m ⟨0, hm⟩⟩
  constructor
  case toTable => exact table_spawned h.toTable pc hi hdead
  case live_allocated =>
    intro r hr
    rcases (hlive r).mp hr with rfl | hr
    · exact Nat.lt_succ_self _
    · exact Nat.lt_succ_of_lt (h.live_allocated r hr)
  case live_not_deleted =>
    intro r hr
    rcases (hlive r).mp hr with rfl | hr
    · exact hundeleted
    · exact h.live_not_deleted r hr
  case deleted_allocated => intro r hr; exact Nat.lt_succ_of_lt (h.deleted_allocated r hr)
  case queue_known =>
    intro r hr
    rcases List.mem_append.mp hr with hr | hr
    · exact (h.queue_known r hr).imp (fun k => (hlive r).mpr (Or.inr k)) id
    · exact Or.inl ((hlive r).mpr (Or.inl (List.mem_singleton.mp hr)))
  case blocked_known => intro r hr; exact Nat.lt_succ_of_lt (h.blocked_known r hr)
  case exact_count =>
    intro r hr
    have hq : (spawned i pc s).readyQueue = s.readyQueue ++ [s.nextRef] := rfl
    rcases (hlive r).mp hr with rfl | hr
    · simp [surplusOf, spawned_self, hq, spawnedThread, List.count_append,
        List.count_eq_zero.mpr hunqueued]
    · have hne := hold r hr
      have := h.exact_count r hr
      simpa [surplusOf, spawned_of_ne hne, hq, List.count_append, Ne.symm hne] using this
  case sleep_clock =>
    intro r hr
    rcases (hlive r).mp hr with rfl | hr
    · simp [spawned_self, spawnedThread]
    · rw [spawned_of_ne (hold r hr)]; exact h.sleep_clock r hr
  case awake_clock =>
    intro r hr
    rcases (hlive r).mp hr with rfl | hr
    · simp [spawned_self, spawnedThread]
    · rw [spawned_of_ne (hold r hr)]; exact h.awake_clock r hr
  case main_awake =>
    intro m hm
    obtain ⟨hm, hne⟩ := hmain m hm
    rw [spawned_of_ne hne]
    exact h.main_awake m hm
  case main_unblocked =>
    intro m hm
    obtain ⟨hm, hne⟩ := hmain m hm
    rw [spawned_of_ne hne]
    exact h.main_unblocked m hm
  case no_return =>
    intro r tid hr
    by_cases hrn : r = s.nextRef
    · subst hrn; simp [spawned_self, spawnedThread]
    · rw [spawned_of_ne hrn]; exact h.no_return r tid hr

theorem consistent_terminated {s : State} (h : Consistent s)
    (remains : ThreadRef → Thread → Thread) {i : Fin maxThreadNum} {r : ThreadRef}
    (hi : s.allThreads i = some r) (hi0 : i ≠ 0) : Consistent (terminated remains i r s) := by
  have hlive := terminated_live h.toTable remains hi
  have hdeleted : ∀ q, q ≠ r → (terminated remains i r s).deleted q = s.deleted q :=
    fun q hq => terminated_deleted_of_ne remains i s hq
  have hgone := terminated_deleted remains i r s
  have hmain : ∀ m, (terminated remains i r s).allThreads 0 = some m →
      s.allThreads 0 = some m ∧ m ≠ r := by
    intro m hm
    rw [terminated_cell_of_ne remains r s (Ne.symm hi0)] at hm
    refine ⟨hm, ?_⟩
    rintro rfl
    exact hi0 (h.distinct i 0 m hi hm)
  have hqueue : (terminated remains i r s).readyQueue = s.readyQueue.filter (· ≠ r) := rfl
  constructor
  case toTable => exact table_terminated h.toTable remains hi hi0
  case live_allocated => intro q hq; exact h.live_allocated q ((hlive q).mp hq).1
  case live_not_deleted =>
    intro q hq
    obtain ⟨hq, hne⟩ := (hlive q).mp hq
    rw [hdeleted q hne]
    exact h.live_not_deleted q hq
  case deleted_allocated =>
    intro q hq
    by_cases hqr : q = r
    · subst hqr; exact h.live_allocated q ⟨i, hi⟩
    · rw [hdeleted q hqr] at hq; exact h.deleted_allocated q hq
  case queue_known =>
    intro q hq
    rw [hqueue, List.mem_filter] at hq
    have hne : q ≠ r := by simpa using hq.2
    rw [hlive, hdeleted q hne]
    exact (h.queue_known q hq.1).imp (fun k => ⟨k, hne⟩) id
  case blocked_known => exact h.blocked_known
  case exact_count =>
    intro q hq
    obtain ⟨hq, hne⟩ := (hlive q).mp hq
    have := h.exact_count q hq
    rw [hqueue]
    simp only [surplusOf, terminated_of_ne hne] at this ⊢
    rwa [List.count_filter (by simpa using hne)]
  case sleep_clock =>
    intro q hq
    obtain ⟨hq, hne⟩ := (hlive q).mp hq
    rw [terminated_of_ne hne]
    exact h.sleep_clock q hq
  case awake_clock =>
    intro q hq
    obtain ⟨hq, hne⟩ := (hlive q).mp hq
    rw [terminated_of_ne hne]
    exact h.awake_clock q hq
  case main_awake =>
    intro m hm
    obtain ⟨hm, hne⟩ := hmain m hm
    rw [terminated_of_ne hne]
    exact h.main_awake m hm
  case main_unblocked =>
    intro m hm
    obtain ⟨hm, hne⟩ := hmain m hm
    rw [terminated_of_ne hne]
    exact h.main_unblocked m hm
  case no_return =>
    intro q tid hq
    have hqr : q ≠ r := by rintro rfl; rw [hgone] at hq; cases hq
    rw [hdeleted q hqr] at hq
    rw [terminated_of_ne hqr]
    exact h.no_return q tid hq

theorem mem_queueAtPick {s : State} {c r : ThreadRef} (h : r ∈ queueAtPick s c) :
    r ∈ s.readyQueue ∨ r = c := by
  rcases List.mem_append.mp h with h | h
  · exact Or.inl h
  · split at h
    · exact Or.inr (List.mem_singleton.mp h)
    · cases h

theorem picks_rest_sublist {s : State} {c next : ThreadRef} {rest : List ThreadRef}
    (h : Picks s c next rest) : rest.Sublist (queueAtPick s c) := by
  cases h with
  | entry hs =>
    obtain ⟨_, dropped, hsplit⟩ := sweep_split hs
    rw [hsplit]
    exact (List.sublist_cons_self next rest).trans (List.sublist_append_right ..)
  | main => exact List.nil_sublist _
  | current => exact List.nil_sublist _

theorem picks_rest_subset {s : State} {c next r : ThreadRef} {rest : List ThreadRef}
    (h : Picks s c next rest) (hr : r ∈ rest) : r ∈ queueAtPick s c :=
  (picks_rest_sublist h).subset hr

theorem picks_next {s : State} {c next : ThreadRef} {rest : List ThreadRef}
    (h : Picks s c next rest) :
    next ∈ queueAtPick s c ∨ s.allThreads 0 = some next ∨ next = c := by
  cases h with
  | entry hs => exact Or.inl (sweep_mem hs)
  | main _ hm => exact Or.inr (Or.inl hm)
  | current => exact Or.inr (Or.inr rfl)

/-- The test of the pick loop never discards the last entry of a live READY thread,
because `duplicate` is exact: the loop stops there or before. -/
theorem live_entry_reached {s : State} {c r : ThreadRef} (hs : Consistent s) (hr : s.Live r)
    (hst : statusAtPick s c r = .ready) (hq : r ∈ queueAtPick s c) :
    ∃ next rest, sweep (takes (statusAtPick s c) (surplusOf s.heap s.readyQueue))
      (queueAtPick s c) = some (next, rest) ∧ (next = r ∨ r ∈ rest) := by
  refine sweep_reaches ⟨hst, ?_⟩ hq
  rw [hs.exact_count r hr]
  simp

/-- So the loop uses the queue up only if no live READY thread has an entry. -/
theorem not_ready_of_used_up {s : State} {c r : ThreadRef} (hs : Consistent s) (hr : s.Live r)
    (hq : r ∈ queueAtPick s c)
    (hnone : sweep (takes (statusAtPick s c) (surplusOf s.heap s.readyQueue))
      (queueAtPick s c) = none) : statusAtPick s c r ≠ .ready := by
  intro hst
  obtain ⟨_, _, hsome, _⟩ := live_entry_reached hs hr hst hq
  rw [hsome] at hnone
  cases hnone

/-- Only the third exit of the pick loop can return a BLOCKED thread. -/
theorem picks_unblocked {s : State} {c next : ThreadRef} {rest : List ThreadRef}
    (hs : Consistent s) (hp : Picks s c next rest)
    (hc : next = c → (s.heap c).status ≠ .blocked) : (s.heap next).status ≠ .blocked := by
  cases hp with
  | entry hsweep =>
    intro hb
    have hready := (sweep_split hsweep).1.1
    rw [(statusAtPick_blocked s c next).mpr hb] at hready
    cases hready
  | main _ hm => exact hs.main_unblocked next hm
  | current => exact hc rfl

theorem picks_reach {s : State} {c r next : ThreadRef} {rest : List ThreadRef}
    (hs : Consistent s) (hr : s.Live r) (hst : statusAtPick s c r = .ready)
    (hq : r ∈ queueAtPick s c) (hp : Picks s c next rest) :
    sweep (takes (statusAtPick s c) (surplusOf s.heap s.readyQueue)) (queueAtPick s c) =
      some (next, rest) ∧ (next = r ∨ r ∈ rest) := by
  obtain ⟨next', rest', hsweep, hreach⟩ := live_entry_reached hs hr hst hq
  cases hp with
  | entry h =>
    rw [hsweep] at h
    cases h
    exact ⟨hsweep, hreach⟩
  | main h => rw [h] at hq; cases hq
  | current _ h => rw [hsweep] at h; cases h

theorem tick_awake {t : Thread} (hs : t.isSleep = false) (hw : t.waitingTime = -1) :
    tick t = t := tick_idle hs (by simp [Due, hs, hw])

theorem tick_sleeping {t : Thread} (hs : t.isSleep = true) :
    (tick t).isSleep = decide (t.waitingTime ≠ 1) ∧
      (tick t).waitingTime = if t.waitingTime = 1 then -1 else t.waitingTime - 1 := by
  have hd : Due t ↔ t.waitingTime = 1 := by simp only [Due, hs, if_true]; omega
  by_cases h : t.waitingTime = 1
  · simp [tick, hd, h]
  · simp [tick, hd, h, hs]

section SwitchPreserves

variable {s t : State} {c next : ThreadRef} {ctx : Context}

theorem switch_queue_known (hcl : s.Live c ∨ s.deleted c = true)
    (hs : Switch s c ctx next t) {r : ThreadRef} (hr : r ∈ t.readyQueue) :
    r ∈ s.readyQueue ∨ s.Live r ∨ s.deleted r = true := by
  obtain ⟨rest, woke, hp, hq, _, hw⟩ := hs.queue
  rw [hq] at hr
  rcases List.mem_append.mp hr with hr | hr
  · rcases mem_queueAtPick (picks_rest_subset hp hr) with hr | rfl
    · exact Or.inl hr
    · exact Or.inr hcl
  · exact Or.inr (Or.inl ((hw r).mp hr).1)

theorem switch_next_live (h : Consistent s) (hcl : s.Live c ∨ s.deleted c = true)
    (hs : Switch s c ctx next t) (hn : s.deleted next = false) : s.Live next := by
  obtain ⟨rest, woke, hp, _⟩ := hs.queue
  have hknown : s.Live next ∨ s.deleted next = true := by
    rcases picks_next hp with hq | hm | rfl
    · rcases mem_queueAtPick hq with hq | rfl
      · exact h.queue_known next hq
      · exact hcl
    · exact Or.inl ⟨0, hm⟩
    · exact hcl
  rcases hknown with hl | hd
  · exact hl
  · rw [hn] at hd; cases hd

theorem switch_unblocked (hs : Switch s c ctx next t) {r : ThreadRef}
    (hr : (s.heap r).status ≠ .blocked) : (t.heap r).status ≠ .blocked := by
  rw [hs.status]
  split
  · simp
  · rw [ne_eq, statusAtPick_blocked]
    exact hr

theorem switch_sleep_clock (h : Consistent s) (hs : Switch s c ctx next t) {r : ThreadRef}
    (hr : s.Live r) (hsleep : (t.heap r).isSleep = true) : 0 < (t.heap r).waitingTime := by
  obtain ⟨hf, hw⟩ := hs.clock r hr
  cases hb : (s.heap r).isSleep with
  | false =>
    rw [hf, tick_awake hb (h.awake_clock r hr hb), hb] at hsleep
    cases hsleep
  | true =>
    have hpos := h.sleep_clock r hr hb
    have hne : (s.heap r).waitingTime ≠ 1 := by
      rw [hf, (tick_sleeping hb).1] at hsleep
      simpa using hsleep
    rw [hw, (tick_sleeping hb).2, if_neg hne]
    omega

theorem switch_awake_clock (h : Consistent s) (hs : Switch s c ctx next t) {r : ThreadRef}
    (hr : s.Live r) (hawake : (t.heap r).isSleep = false) : (t.heap r).waitingTime = -1 := by
  obtain ⟨hf, hw⟩ := hs.clock r hr
  cases hb : (s.heap r).isSleep with
  | false =>
    rw [hw, tick_awake hb (h.awake_clock r hr hb)]
    exact h.awake_clock r hr hb
  | true =>
    have hone : (s.heap r).waitingTime = 1 := by
      rw [hf, (tick_sleeping hb).1] at hawake
      simpa using hawake
    rw [hw, (tick_sleeping hb).2, if_pos hone]

theorem switch_consistent (h : Consistent s) (hcl : s.Live c ∨ s.deleted c = true)
    (henv : ∀ r tid, s.deleted r = false →
      (if r = c then ctx else (s.heap r).env) ≠ .selfTerminate tid)
    (hs : Switch s c ctx next t) : Consistent t := by
  refine h.frame hs.allThreads hs.nextRef hs.deleted hs.countReady hs.id
    (fun r => switch_queue_known hcl hs) ?_ (fun r _ => hs.surplus r)
    (fun r => switch_sleep_clock h hs) (fun r => switch_awake_clock h hs) ?_ ?_
  · intro r hr
    rw [hs.blockedID] at hr
    exact Or.inl hr
  · intro m hm
    have hawake := h.main_awake m hm
    refine ⟨?_, switch_unblocked hs (h.main_unblocked m hm)⟩
    rw [(hs.clock m ⟨0, hm⟩).1, tick_awake hawake (h.awake_clock m ⟨0, hm⟩ hawake)]
    exact hawake
  · intro r tid hr
    rw [hs.env]
    exact henv r tid hr

/-- Whatever state a switch is entered in, the thread it reaches is a live one. -/
theorem dispatch_invariant {v : Option ℤ} (h : Consistent s)
    (hcl : s.Live c ∨ s.deleted c = true)
    (henv : ∀ r tid, s.deleted r = false →
      (if r = c then ctx else (s.heap r).env) ≠ .selfTerminate tid)
    (hs : Dispatch s c ctx next v t) : Invariant t := by
  have hlive := switch_next_live h hcl hs.toSwitch hs.alive
  refine ⟨switch_consistent h hcl henv hs.toSwitch, ⟨next, hs.curRunning, ?_⟩, ?_⟩
  · simpa only [State.Live, hs.allThreads] using hlive
  · intro r hr
    rw [hs.curRunning] at hr
    obtain rfl := Option.some.inj hr
    rw [hs.status, if_pos rfl]
    simp

end SwitchPreserves

/-- A context other than a self-terminate keeps `no_return`. -/
theorem Consistent.no_return_with {s : State} (h : Consistent s) {ctx : Context}
    {c : ThreadRef} (hctx : ∀ tid, ctx ≠ .selfTerminate tid) (r : ThreadRef) (tid : ℤ)
    (hr : s.deleted r = false) :
    (if r = c then ctx else (s.heap r).env) ≠ .selfTerminate tid := by
  split
  · exact hctx tid
  · exact h.no_return r tid hr

section Reachable

variable {remains : ThreadRef → Thread → Thread} {s t : State} {e : Event} {o : Outcome}

/-- On entry to a switch only `curRunning` may have left the table. -/
theorem enters_consistent {c : ThreadRef} {ctx : Context} {s' : State} (hi : Invariant s)
    (h : Enters remains s e c ctx s') :
    Consistent s' ∧ (s'.Live c ∨ s'.deleted c = true) ∧ s.curRunning = some c ∧ s.Live c ∧
      ∀ r tid, s'.deleted r = false →
        (if r = c then ctx else (s'.heap r).env) ≠ .selfTerminate tid := by
  obtain ⟨d, hd, hlive⟩ := hi.current_live
  cases h with
  | timer _ hc =>
    obtain rfl := Option.some.inj (hd.symm.trans hc)
    exact ⟨hi.toConsistent, Or.inl hlive, hd, hlive, hi.no_return_with (by simp)⟩
  | blockSelf hr h0 hc =>
    obtain rfl := Option.some.inj (hd.symm.trans hc)
    have hb := consistent_blocked hi.toConsistent hr h0
    exact ⟨hb, Or.inl hlive, hd, hlive, hb.no_return_with (by simp)⟩
  | sleep hn hc h0 =>
    obtain rfl := Option.some.inj (hd.symm.trans hc)
    have hb := consistent_asleep hi.toConsistent hn h0
    exact ⟨hb, Or.inl hlive, hd, hlive, hb.no_return_with (by simp)⟩
  | @exit i _ hcell h0 hc =>
    obtain rfl := Option.some.inj (hd.symm.trans hc)
    have hb := consistent_terminated hi.toConsistent remains hcell h0
    have hgone := terminated_deleted remains i d s
    refine ⟨hb, Or.inr hgone, hd, hlive, fun r tid hr => ?_⟩
    have hrd : r ≠ d := by rintro rfl; rw [hgone] at hr; cases hr
    rw [if_neg hrd]
    exact hb.no_return r tid hr

theorem enters_curRunning {c : ThreadRef} {ctx : Context} {s' : State}
    (h : Enters remains s e c ctx s') : s'.curRunning = some c := by
  cases h with
  | timer _ hc => exact hc
  | blockSelf _ _ hc => exact hc
  | sleep _ hc _ => exact hc
  | exit _ _ hc => exact hc

/-- Every accepted event has one of the effects. -/
theorem step_effect (hi : Invariant s) (h : step (uthreads remains) s e = .ok (o, t)) :
    Effect remains s e o t := by
  obtain ⟨c, hc, hlive⟩ := hi.current_live
  rcases step_cases remains hi.toTable hc hlive e with
    ⟨call, o', t', rfl, hs, hq⟩ | ⟨ctx, s', hs, he⟩ | ⟨f, hs, _⟩
  · rw [hs] at h
    cases h
    exact .quiet hq
  · rw [hs] at h
    obtain ⟨hcons, _, _, _, henv⟩ := enters_consistent hi he
    obtain ⟨next, v, rfl, hv, hn, hsw⟩ :=
      switchThread_switch (enters_curRunning he) hcons.distinct henv h
    exact .switch he ⟨hsw, hn, hv⟩
  · rw [hs] at h
    cases h

theorem quiet_invariant {call : Call} (hi : Invariant s) (h : Quiet remains s call o t) :
    Invariant t := by
  obtain ⟨c, hc, hlive⟩ := hi.current_live
  have hcur : ∀ {d}, s.curRunning = some d → d = c := fun hd =>
    Option.some.inj (hd.symm.trans hc)
  cases h with
  | idle b => exact hi.withMask b
  | @spawn pc i hfree =>
    refine Invariant.withMask (s := spawned i pc s) ⟨consistent_spawned hi.toConsistent pc hfree,
      ⟨c, hc, ?_⟩, ?_⟩ false
    · exact (spawned_live pc hfree c).mpr (Or.inr hlive)
    · intro d hd
      rw [hcur hd, spawned_of_ne (hi.ne_fresh hlive)]
      exact hi.current_unblocked c hc
  | @block tid r d hr h0 hd hne =>
    refine Invariant.withMask (s := blocked r s)
      ⟨consistent_blocked hi.toConsistent hr h0, ⟨c, hc, hlive⟩, ?_⟩ false
    intro k hk
    have hkr : k ≠ r := by
      rintro rfl
      exact hne ((hcur hk).trans (hcur hd).symm)
    rw [blocked_of_ne hkr]
    exact hi.current_unblocked k hk
  | @resume tid r hr =>
    refine Invariant.withMask (s := resumed r s)
      ⟨consistent_resumed hi.toConsistent hr, ⟨c, hc, hlive⟩, ?_⟩ false
    intro k hk
    by_cases hkr : k = r
    · subst hkr; simp [resumed_self]
    · rw [resumed_of_ne hkr]; exact hi.current_unblocked k hk
  | @terminate i r d hr h0 hd hne =>
    have hcr : c ≠ r := fun hcr => hne (hcr.symm.trans (hcur hd).symm)
    refine Invariant.withMask (s := terminated remains i r s)
      ⟨consistent_terminated hi.toConsistent remains hr h0, ⟨c, hc, ?_⟩, ?_⟩ false
    · exact (terminated_live hi.toTable remains hr c).mpr ⟨hlive, hcr⟩
    · intro k hk
      rw [terminated_of_ne (by rw [hcur hk]; exact hcr)]
      exact hi.current_unblocked k hk

theorem effect_invariant (hi : Invariant s) (h : Effect remains s e o t) : Invariant t := by
  cases h with
  | quiet hq => exact quiet_invariant hi hq
  | switch henters hdisp =>
    obtain ⟨hcons, hknown, _, _, henv⟩ := enters_consistent hi henters
    exact dispatch_invariant hcons hknown henv hdisp

theorem enters_totalQuantum {c : ThreadRef} {ctx : Context} {s' : State}
    (h : Enters remains s e c ctx s') : s'.totalQuantum = s.totalQuantum := by
  cases h <;> rfl

/-- The quantums an event uses up: one for a switch. -/
def quantumsUsed : Outcome → ℤ
  | .dispatched _ _ => 1
  | _ => 0

theorem step_totalQuantum (hi : Invariant s) (h : step (uthreads remains) s e = .ok (o, t)) :
    t.totalQuantum = s.totalQuantum + quantumsUsed o := by
  cases step_effect hi h with
  | quiet hq =>
    have ho : quantumsUsed o = 0 := by
      cases o with
      | dispatched next v => exact (hq.returns next v rfl).elim
      | _ => rfl
    rw [ho, Int.add_zero]
    cases hq <;> rfl
  | switch he hd => rw [hd.totalQuantum, enters_totalQuantum he]; rfl

theorem step_preserves_invariant (hi : Invariant s)
    (h : step (uthreads remains) s e = .ok (o, t)) : Invariant t :=
  effect_invariant hi (step_effect hi h)

theorem initial_invariant : Invariant initial := by
  have hcells : ∀ i r, initial.allThreads i = some r → i = 0 ∧ r = 0 := by
    intro i r h
    by_cases hi : i = 0
    · subst hi
      simp only [initial, Function.update_self, Option.some.injEq] at h
      exact ⟨rfl, h.symm⟩
    · simp [initial, Function.update_of_ne hi] at h
  have hlive : ∀ r, initial.Live r → r = 0 := fun r ⟨i, hi⟩ => (hcells i r hi).2
  have hrecord : ∀ r, initial.heap r = mainThread := fun _ => rfl
  refine ⟨?_, ⟨0, rfl, ⟨0, rfl⟩⟩, ?_⟩
  · constructor
    case toTable =>
      refine ⟨⟨0, rfl⟩, ?_, by decide +kernel⟩
      intro i r h
      obtain ⟨rfl, rfl⟩ := hcells i r h
      rfl
    case live_allocated => intro r hr; rw [hlive r hr]; exact Nat.one_pos
    case live_not_deleted => intro r _; rfl
    case deleted_allocated => intro r hr; cases hr
    case queue_known => intro r hr; cases hr
    case blocked_known => intro r hr; exact (Finset.notMem_empty r hr).elim
    case exact_count => intro r _; rfl
    case sleep_clock => intro r _ hs; rw [hrecord] at hs; cases hs
    case awake_clock => intro r _ _; rfl
    case main_awake => intro m _; rfl
    case main_unblocked => intro m _; simp [hrecord, mainThread]
    case no_return => intro r tid _; simp [hrecord, mainThread]
  · intro c _; simp [hrecord, mainThread]

/-- A history of public calls and timer switches after a successful `uthread_init`. -/
abbrev Runs (remains : ThreadRef → Thread → Thread) (tr : List (Event × Outcome)) (s : State) :
    Prop :=
  Exec (step (uthreads remains)) initial tr s

theorem reachable_invariant {tr : List (Event × Outcome)}
    (h : Runs remains tr s) : Invariant s :=
  h.invariant initial_invariant fun _ _ _ _ hi hs => step_preserves_invariant hi hs

def NeverRunning (remains : ThreadRef → Thread → Thread) : Prop :=
  ∀ r t, (remains r t).status ≠ .running

def QueueLive (s : State) : Prop := ∀ r ∈ s.readyQueue, s.Live r

/-- Then the deleted record of a self-terminate is not pushed back. -/
theorem enters_queue_live {c : ThreadRef} {ctx : Context} {s' : State}
    (hn : NeverRunning remains ∨ ∀ tid, ctx ≠ .selfTerminate tid) (hi : Invariant s)
    (hq : QueueLive s) (h : Enters remains s e c ctx s') : ∀ r ∈ queueAtPick s' c, s'.Live r := by
  obtain ⟨_, _, _, hlive, _⟩ := enters_consistent hi h
  intro r hr
  cases h with
  | timer =>
    rcases mem_queueAtPick hr with hr | rfl
    · exact hq r hr
    · exact hlive
  | blockSelf =>
    rcases mem_queueAtPick hr with hr | rfl
    · exact hq r hr
    · exact hlive
  | sleep =>
    rcases mem_queueAtPick hr with hr | rfl
    · exact hq r hr
    · exact hlive
  | @exit i _ hcell =>
    have hnp : ¬ Preempts (terminated remains i c s) c := by
      intro hp
      refine (hn.resolve_right fun hctx => hctx _ rfl) c (s.heap c) ?_
      simpa [terminated] using hp.1
    rw [queueAtPick_of_stays hnp] at hr
    have hr : r ∈ s.readyQueue.filter (· ≠ c) := hr
    rw [List.mem_filter] at hr
    exact (terminated_live hi.toTable remains hcell r).mpr ⟨hq r hr.1, by simpa using hr.2⟩

theorem quiet_queue_live {call : Call} (hi : Invariant s) (hq : QueueLive s)
    (h : Quiet remains s call o t) : QueueLive t := by
  cases h with
  | idle b => exact hq
  | @spawn pc i hfree =>
    intro r hr
    refine (spawned_live pc hfree r).mpr ?_
    rcases List.mem_append.mp hr with hr | hr
    · exact Or.inr (hq r hr)
    · exact Or.inl (List.mem_singleton.mp hr)
  | block => exact hq
  | @resume tid r hr =>
    intro q hqr
    rcases List.mem_append.mp hqr with hqr | hqr
    · exact hq q hqr
    · split at hqr
      · rw [List.mem_singleton.mp hqr]; exact At.live hr
      · cases hqr
  | @terminate i r c hcell =>
    intro q hqr
    have hqr : q ∈ s.readyQueue.filter (· ≠ r) := hqr
    rw [List.mem_filter] at hqr
    exact (terminated_live hi.toTable remains hcell q).mpr ⟨hq q hqr.1, by simpa using hqr.2⟩

theorem switch_queue_live {c next : ThreadRef} {ctx : Context} {s' : State}
    (hq : ∀ r ∈ queueAtPick s' c, s'.Live r) (h : Switch s' c ctx next t) : QueueLive t := by
  obtain ⟨rest, woke, hp, htq, _, hw⟩ := h.queue
  intro r hr
  have hlive : s'.Live r := by
    rw [htq] at hr
    rcases List.mem_append.mp hr with hr | hr
    · exact hq r (picks_rest_subset hp hr)
    · exact ((hw r).mp hr).1
  simpa only [State.Live, h.allThreads] using hlive

theorem step_queue_live (hn : NeverRunning remains) (hi : Invariant s) (hq : QueueLive s)
    (h : step (uthreads remains) s e = .ok (o, t)) : QueueLive t := by
  cases step_effect hi h with
  | quiet hquiet => exact quiet_queue_live hi hq hquiet
  | switch he hd => exact switch_queue_live (enters_queue_live (Or.inl hn) hi hq he) hd.toSwitch

theorem reachable_queue_live {tr : List (Event × Outcome)} (hn : NeverRunning remains)
    (h : Runs remains tr s) : Invariant s ∧ QueueLive s := by
  refine h.invariant (I := fun s => Invariant s ∧ QueueLive s) ⟨initial_invariant, ?_⟩ ?_
  · intro r hr
    cases hr
  · intro s e o t hs hst
    exact ⟨step_preserves_invariant hs.1 hst, step_queue_live hn hs.1 hs.2 hst⟩

end Reachable

section Histories

variable (remains : ThreadRef → Thread → Thread) (s : State) (es : List Event)

/-- A history and the state after it, for evaluation. -/
def history : List (Event × Outcome) := trace (step (uthreads remains)) s es

def after : State := final (step (uthreads remains)) s es

theorem exec_history (h : (run (step (uthreads remains)) s es).isOk = true) :
    Exec (step (uthreads remains)) s (history remains s es) (after remains s es) := exec_trace h

theorem step_after {s : State} {e : Event} {o : Outcome}
    (h : history remains s [e] = [(e, o)]) :
    step (uthreads remains) s e = .ok (o, after remains s [e]) := step_final h

theorem runs_history (h : (run (step (uthreads remains)) initial es).isOk = true) :
    Runs remains (history remains initial es) (after remains initial es) :=
  exec_history remains initial es h

end Histories

/-- A heap whose freed records no longer read as RUNNING. -/
def freedRecord (_ : ThreadRef) (t : Thread) : Thread := { t with status := .blocked }

/-- The thread that an event left running by way of `switchThread`. -/
def dispatchedThread : Outcome → Option ThreadRef
  | .dispatched next _ => some next
  | _ => none

/-- The threads dispatched in a history, one for each switch. -/
def dispatched (tr : List (Event × Outcome)) : List ThreadRef :=
  tr.filterMap fun x => dispatchedThread x.2

theorem mem_dispatched_cons {r : ThreadRef} {e : Event} {o : Outcome}
    {tr : List (Event × Outcome)} :
    r ∈ dispatched ((e, o) :: tr) ↔ dispatchedThread o = some r ∨ r ∈ dispatched tr := by
  cases ho : dispatchedThread o with
  | none => simp [dispatched, ho]
  | some q => simp [dispatched, ho, eq_comm]

theorem dispatched_append (tr tr' : List (Event × Outcome)) :
    dispatched (tr ++ tr') = dispatched tr ++ dispatched tr' := List.filterMap_append ..

theorem dispatched_switch (tr : List (Event × Outcome)) (e : Event) (next : ThreadRef)
    (v : Option ℤ) : dispatched (tr ++ [(e, .dispatched next v)]) = dispatched tr ++ [next] := by
  rw [dispatched_append]
  rfl

theorem dispatched_quiet (tr : List (Event × Outcome)) (e : Event) {o : Outcome}
    (h : ∀ next v, o ≠ .dispatched next v) : dispatched (tr ++ [(e, o)]) = dispatched tr := by
  rw [dispatched_append]
  cases o with
  | dispatched next v => exact (h next v rfl).elim
  | _ => simp [dispatched, dispatchedThread]

end ThreadInvariant
