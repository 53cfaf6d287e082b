import Uthreads.ThreadLibrary

/-! # The scheduler that the header describes

`uthreads.h` in terms of identifiers: who exists, who runs, the READY list, who is blocked
and how long who sleeps. There are no records, no entries and no counters of entries. The
header leaves open which identifier a new thread gets and in which order threads that wake
up together are queued. Terminating main ends the process and has no state to go to. -/
namespace HeaderSpec

open ThreadLibrary

abbrev Tid := Fin maxThreadNum

/-- `sleep` counts the quantums that still have to start. -/
structure Task where
  blocked : Bool
  sleep : Option ℤ
  quantums : ℤ
  deriving DecidableEq, Repr

structure Board where
  task : Tid → Option Task
  running : Tid
  ready : List Tid
  total : ℤ

inductive Answer where
  | returned (value : ℤ)
  | failed
  | switched (next : Tid)
  deriving DecidableEq, Repr

def Task.start (quantums : ℤ) : Task := ⟨false, none, quantums⟩

def Board.start : Board :=
  ⟨Function.update (fun _ => none) 0 (some (Task.start 1)), 0, [], 1⟩

/-- Neither blocked nor asleep: READY or RUNNING. -/
def Task.Able (k : Task) : Prop := k.blocked = false ∧ k.sleep = none

/-- A quantum starts, of this thread or of another one. -/
def Task.tick (k : Task) (mine : Bool) : Task :=
  { k with
    sleep := k.sleep.bind fun n => if n = 1 then none else some (n - 1)
    quantums := k.quantums + if mine then 1 else 0 }

def Board.Absent (a : Board) (tid : ℤ) : Prop := ∀ i : Tid, ((i : ℕ) : ℤ) = tid → a.task i = none

/-- The errors that the header lists, and the call that sleeps for no quantum. -/
def Board.Error (a : Board) : Call → Prop
  | .spawn entryPoint => entryPoint = none ∨ ∀ i, a.task i ≠ none
  | .terminate tid => a.Absent tid
  | .block tid => tid = mainThreadTid ∨ a.Absent tid
  | .resume tid => a.Absent tid
  | .sleep n => n ≤ 0 ∨ a.running = 0
  | .getTid => False
  | .getTotalQuantums => False
  | .getQuantums tid => a.Absent tid

def Board.set (a : Board) (i : Tid) (k : Option Task) : Board :=
  { a with task := Function.update a.task i k }

def Board.enqueue (a : Board) (i : Tid) : Board := { a with ready := a.ready ++ [i] }

def Board.withdraw (a : Board) (i : Tid) : Board := { a with ready := a.ready.filter (· ≠ i) }

/-- A scheduling decision: the first READY thread runs, a quantum starts, and the threads
whose sleep is over go to the end of the READY list. -/
structure Starts (a : Board) (next : Tid) (a' : Board) : Prop where
  head : ∃ rest woke, a.ready = next :: rest ∧ a'.ready = rest ++ woke ∧ woke.Nodup ∧
    ∀ i, i ∈ woke ↔ ∃ k, a.task i = some k ∧ k.sleep = some 1 ∧ k.blocked = false
  task : ∀ i, a'.task i = (a.task i).map fun k => k.tick (decide (i = next))
  running : a'.running = next
  total : a'.total = a.total + 1

inductive Permits (a : Board) : Event → Answer → Board → Prop where
  | error {call} : a.Error call → Permits a (.call call) .failed a
  | spawn {pc i} : a.task i = none →
      Permits a (.call (.spawn (some pc))) (.returned (i : ℕ))
        ((a.set i (some (Task.start 0))).enqueue i)
  | terminate {i k} : a.task i = some k → i ≠ 0 → i ≠ a.running →
      Permits a (.call (.terminate (i : ℕ))) (.returned 0) ((a.set i none).withdraw i)
  | exit {next a'} : a.running ≠ 0 → Starts (a.set a.running none) next a' →
      Permits a (.call (.terminate (a.running : ℕ))) (.switched next) a'
  | block {i k} : a.task i = some k → i ≠ 0 → i ≠ a.running →
      Permits a (.call (.block (i : ℕ))) (.returned 0)
        ((a.set i (some { k with blocked := true })).withdraw i)
  | blockSelf {k next a'} : a.task a.running = some k → a.running ≠ 0 →
      Starts (a.set a.running (some { k with blocked := true })) next a' →
      Permits a (.call (.block (a.running : ℕ))) (.switched next) a'
  | resume {i k} : a.task i = some k → k.blocked = true → k.sleep = none →
      Permits a (.call (.resume (i : ℕ))) (.returned 0)
        ((a.set i (some { k with blocked := false })).enqueue i)
  | resumeAsleep {i k n} : a.task i = some k → k.blocked = true → k.sleep = some n →
      Permits a (.call (.resume (i : ℕ))) (.returned 0)
        (a.set i (some { k with blocked := false }))
  | resumeIdle {i k} : a.task i = some k → k.blocked = false →
      Permits a (.call (.resume (i : ℕ))) (.returned 0) a
  | sleep {n k next a'} : 0 < n → a.task a.running = some k → a.running ≠ 0 →
      Starts (a.set a.running (some { k with sleep := some n })) next a' →
      Permits a (.call (.sleep n)) (.switched next) a'
  | getTid : Permits a (.call .getTid) (.returned (a.running : ℕ)) a
  | getTotalQuantums : Permits a (.call .getTotalQuantums) (.returned a.total) a
  | getQuantums {i k} : a.task i = some k →
      Permits a (.call (.getQuantums (i : ℕ))) (.returned k.quantums) a
  | timer {next a'} : Starts (a.enqueue a.running) next a' →
      Permits a .timer (.switched next) a'

/-- The READY list holds every thread that could run and does not, once. -/
structure Sound (a : Board) : Prop where
  running_able : ∃ k, a.task a.running = some k ∧ k.Able
  main_able : ∃ k, a.task 0 = some k ∧ k.Able
  sleep_positive : ∀ i k n, a.task i = some k → k.sleep = some n → 0 < n
  ready_nodup : a.ready.Nodup
  ready_iff : ∀ i, i ∈ a.ready ↔ i ≠ a.running ∧ ∃ k, a.task i = some k ∧ k.Able

/-- Between the caller's leave and the scheduling decision: the READY list holds everybody
who could run. -/
structure Leaving (a : Board) : Prop where
  main_able : ∃ k, a.task 0 = some k ∧ k.Able
  sleep_positive : ∀ i k n, a.task i = some k → k.sleep = some n → 0 < n
  ready_nodup : a.ready.Nodup
  ready_iff : ∀ i, i ∈ a.ready ↔ ∃ k, a.task i = some k ∧ k.Able

variable {a a' : Board} {i next : Tid} {k : Task} {e : Event} {ans : Answer}

theorem tick_able (mine : Bool) : (k.tick mine).Able ↔
    k.blocked = false ∧ (k.sleep = none ∨ k.sleep = some 1) := by
  cases hs : k.sleep with
  | none => simp [Task.Able, Task.tick, hs]
  | some n => by_cases h1 : n = 1 <;> simp [Task.Able, Task.tick, hs, h1]

theorem tick_sleep_positive {mine : Bool} (h : ∀ n, k.sleep = some n → 0 < n) {n : ℤ}
    (hn : (k.tick mine).sleep = some n) : 0 < n := by
  cases hs : k.sleep with
  | none => simp [Task.tick, hs] at hn
  | some m =>
    have hm := h m hs
    by_cases h1 : m = 1
    · simp [Task.tick, hs, h1] at hn
    · simp only [Task.tick, hs, Option.bind_some, if_neg h1, Option.some.injEq] at hn
      omega

theorem set_task_self (a : Board) (i : Tid) (k : Option Task) : (a.set i k).task i = k :=
  Function.update_self ..

theorem set_task_of_ne (a : Board) {i j : Tid} (k : Option Task) (h : j ≠ i) :
    (a.set i k).task j = a.task j := Function.update_of_ne h ..

theorem mem_withdraw {j : Tid} : j ∈ (a.withdraw i).ready ↔ j ∈ a.ready ∧ j ≠ i := by
  simp [Board.withdraw]

theorem mem_enqueue {j : Tid} : j ∈ (a.enqueue i).ready ↔ j ∈ a.ready ∨ j = i := by
  simp [Board.enqueue]

/-- The decision puts one thread on the processor and leaves the others queued. -/
theorem starts_sound (h : Leaving a) (hs : Starts a next a') : Sound a' := by
  obtain ⟨rest, woke, hready, hready', hnodup, hwoke⟩ := hs.head
  have hn := h.ready_nodup
  rw [hready] at hn
  obtain ⟨hnext, hrest⟩ := List.nodup_cons.mp hn
  obtain ⟨kn, hkn, hable⟩ := (h.ready_iff next).mp (by rw [hready]; exact List.mem_cons_self)
  have htask : ∀ {j k}, a'.task j = some k →
      ∃ k₀, a.task j = some k₀ ∧ k = k₀.tick (decide (j = next)) := by
    intro j k hk
    rw [hs.task, Option.map_eq_some_iff] at hk
    obtain ⟨k₀, hk₀, rfl⟩ := hk
    exact ⟨k₀, hk₀, rfl⟩
  -- queued threads were awake, and the woken ones were not
  have hdisjoint : ∀ j ∈ woke, j ∉ a.ready := by
    intro j hj hjr
    obtain ⟨k₁, hk₁, hone, _⟩ := (hwoke j).mp hj
    obtain ⟨k₂, hk₂, hk₂able⟩ := (h.ready_iff j).mp hjr
    rw [hk₁] at hk₂
    cases hk₂
    rw [hk₂able.2] at hone
    cases hone
  constructor
  case running_able =>
    rw [hs.running, hs.task, hkn]
    exact ⟨_, rfl, (tick_able _).mpr ⟨hable.1, Or.inl hable.2⟩⟩
  case main_able =>
    obtain ⟨k₀, hk₀, hk₀able⟩ := h.main_able
    rw [hs.task, hk₀]
    exact ⟨_, rfl, (tick_able _).mpr ⟨hk₀able.1, Or.inl hk₀able.2⟩⟩
  case sleep_positive =>
    intro j k n hk hn
    obtain ⟨k₀, hk₀, rfl⟩ := htask hk
    exact tick_sleep_positive (fun n hn => h.sleep_positive j k₀ n hk₀ hn) hn
  case ready_nodup =>
    rw [hready']
    refine List.nodup_append.mpr ⟨hrest, hnodup, ?_⟩
    rintro j hj _ hw rfl
    exact hdisjoint j hw (by rw [hready]; exact List.mem_cons_of_mem _ hj)
  case ready_iff =>
    intro j
    rw [hready', hs.running, List.mem_append, hs.task]
    constructor
    · rintro (hj | hj)
      · have hjr : j ∈ a.ready := by rw [hready]; exact List.mem_cons_of_mem _ hj
        obtain ⟨k, hk, hkable⟩ := (h.ready_iff j).mp hjr
        refine ⟨by rintro rfl; exact hnext hj, ?_⟩
        rw [hk]
        exact ⟨_, rfl, (tick_able _).mpr ⟨hkable.1, Or.inl hkable.2⟩⟩
      · have hjr := hdisjoint j hj
        obtain ⟨k, hk, hone, hb⟩ := (hwoke j).mp hj
        refine ⟨by rintro rfl; exact hjr (by rw [hready]; exact List.mem_cons_self), ?_⟩
        rw [hk]
        exact ⟨_, rfl, (tick_able _).mpr ⟨hb, Or.inr hone⟩⟩
    · rintro ⟨hj, k, hk, hkable⟩
      obtain ⟨k₀, hk₀, rfl⟩ := Option.map_eq_some_iff.mp hk
      obtain ⟨hb, hsleep | hone⟩ := (tick_able _).mp hkable
      · have hjr := (h.ready_iff j).mpr ⟨k₀, hk₀, hb, hsleep⟩
        rw [hready] at hjr
        exact Or.inl ((List.mem_cons.mp hjr).resolve_left hj)
      · exact Or.inr ((hwoke j).mpr ⟨k₀, hk₀, hone, hb⟩)

/-- The running thread leaves the processor without being queued. -/
theorem leaving_set (h : Sound a) (h0 : a.running ≠ 0) {k : Option Task}
    (hk : ∀ k', k = some k' → ¬ k'.Able ∧ ∀ n, k'.sleep = some n → 0 < n) :
    Leaving (a.set a.running k) := by
  constructor
  case main_able => rw [set_task_of_ne a k (Ne.symm h0)]; exact h.main_able
  case sleep_positive =>
    intro j k' n hk' hn
    by_cases hj : j = a.running
    · subst hj
      rw [set_task_self] at hk'
      exact (hk k' hk').2 n hn
    · rw [set_task_of_ne a k hj] at hk'
      exact h.sleep_positive j k' n hk' hn
  case ready_nodup => exact h.ready_nodup
  case ready_iff =>
    intro j
    refine (h.ready_iff j).trans ?_
    by_cases hj : j = a.running
    · subst hj
      rw [set_task_self]
      refine iff_of_false (fun hne => hne.1 rfl) ?_
      rintro ⟨k', hk', hable⟩
      exact (hk k' hk').1 hable
    · rw [set_task_of_ne a k hj]
      exact ⟨fun h => h.2, fun h => ⟨hj, h⟩⟩

theorem leaving_timer (h : Sound a) : Leaving (a.enqueue a.running) := by
  refine ⟨h.main_able, h.sleep_positive, ?_, fun j => ?_⟩
  · refine List.nodup_append.mpr ⟨h.ready_nodup, List.nodup_singleton _, ?_⟩
    rintro j hj _ hr rfl
    exact ((h.ready_iff j).mp hj).1 (List.mem_singleton.mp hr)
  · rw [mem_enqueue, h.ready_iff]
    constructor
    · rintro (⟨_, hk⟩ | rfl)
      · exact hk
      · exact h.running_able
    · intro hk
      by_cases hj : j = a.running
      · exact Or.inr hj
      · exact Or.inl ⟨hj, hk⟩

/-- Another thread is taken out of scheduling. -/
theorem sound_withdraw (h : Sound a) (h0 : i ≠ 0) (hr : i ≠ a.running) {k : Option Task}
    (hk : ∀ k', k = some k' → ¬ k'.Able ∧ ∀ n, k'.sleep = some n → 0 < n) :
    Sound ((a.set i k).withdraw i) := by
  have hother : ∀ j, j ≠ i → ((a.set i k).withdraw i).task j = a.task j :=
    fun j hj => set_task_of_ne a k hj
  have hself : ((a.set i k).withdraw i).task i = k := set_task_self a i k
  constructor
  case running_able =>
    obtain ⟨k', hk', hable⟩ := h.running_able
    exact ⟨k', (hother _ (Ne.symm hr)).trans hk', hable⟩
  case main_able => rw [hother _ (Ne.symm h0)]; exact h.main_able
  case sleep_positive =>
    intro j k' n hk' hn
    by_cases hj : j = i
    · subst hj
      rw [hself] at hk'
      exact (hk k' hk').2 n hn
    · rw [hother j hj] at hk'
      exact h.sleep_positive j k' n hk' hn
  case ready_nodup => exact h.ready_nodup.filter _
  case ready_iff =>
    intro j
    rw [mem_withdraw]
    change (j ∈ a.ready ∧ j ≠ i) ↔ j ≠ a.running ∧ _
    by_cases hj : j = i
    · subst hj
      rw [hself]
      refine iff_of_false (fun hne => hne.2 rfl) ?_
      rintro ⟨_, k', hk', hable⟩
      exact (hk k' hk').1 hable
    · rw [hother j hj, h.ready_iff]
      exact ⟨fun h => h.1, fun h => ⟨h, hj⟩⟩

/-- Another thread becomes able to run and is queued. -/
theorem sound_enqueue (h : Sound a) (hr : i ≠ a.running) (hi : i ∉ a.ready) (hk : k.Able) :
    Sound ((a.set i (some k)).enqueue i) := by
  have hother : ∀ j, j ≠ i → ((a.set i (some k)).enqueue i).task j = a.task j :=
    fun j hj => set_task_of_ne a _ hj
  have hself : ((a.set i (some k)).enqueue i).task i = some k := set_task_self a i _
  constructor
  case running_able =>
    obtain ⟨k', hk', hable⟩ := h.running_able
    exact ⟨k', (hother _ (Ne.symm hr)).trans hk', hable⟩
  case main_able =>
    by_cases h0 : (0 : Tid) = i
    · subst h0
      exact ⟨k, hself, hk⟩
    · rw [hother _ h0]
      exact h.main_able
  case sleep_positive =>
    intro j k' n hk' hn
    by_cases hj : j = i
    · subst hj
      rw [hself] at hk'
      cases hk'
      rw [hk.2] at hn
      cases hn
    · rw [hother j hj] at hk'
      exact h.sleep_positive j k' n hk' hn
  case ready_nodup =>
    refine List.nodup_append.mpr ⟨h.ready_nodup, List.nodup_singleton _, ?_⟩
    rintro j hj _ hji rfl
    exact hi (List.mem_singleton.mp hji ▸ hj)
  case ready_iff =>
    intro j
    rw [mem_enqueue]
    change (j ∈ a.ready ∨ j = i) ↔ j ≠ a.running ∧ _
    by_cases hj : j = i
    · subst hj
      rw [hself]
      exact iff_of_true (Or.inr rfl) ⟨hr, k, rfl, hk⟩
    · rw [hother j hj, h.ready_iff]
      exact ⟨fun h => h.resolve_right hj, Or.inl⟩

/-- A blocked sleeper is unblocked and goes on sleeping. -/
theorem sound_unblocked (h : Sound a) {n : ℤ} (hi : a.task i = some k) (hb : k.blocked = true)
    (hs : k.sleep = some n) : Sound (a.set i (some { k with blocked := false })) := by
  have hunable : ∀ j, (∃ k', (a.set i (some { k with blocked := false })).task j = some k' ∧
      k'.Able) ↔ ∃ k', a.task j = some k' ∧ k'.Able := by
    intro j
    by_cases hj : j = i
    · subst hj
      rw [set_task_self, hi]
      simp [Task.Able, hb, hs]
    · rw [set_task_of_ne a _ hj]
  constructor
  case running_able => exact (hunable _).mpr h.running_able
  case main_able => exact (hunable _).mpr h.main_able
  case sleep_positive =>
    intro j k' m hk' hm
    by_cases hj : j = i
    · subst hj
      rw [set_task_self] at hk'
      cases hk'
      exact h.sleep_positive j k m hi hm
    · rw [set_task_of_ne a _ hj] at hk'
      exact h.sleep_positive j k' m hk' hm
  case ready_nodup => exact h.ready_nodup
  case ready_iff =>
    intro j
    rw [hunable]
    exact h.ready_iff j

/-- Whatever the header permits keeps the READY list complete. -/
theorem permits_sound (h : Sound a) (hp : Permits a e ans a') : Sound a' := by
  have hblocked : ∀ {j k}, a.task j = some k → ∀ k', some { k with blocked := true } = some k' →
      ¬ k'.Able ∧ ∀ n, k'.sleep = some n → 0 < n := by
    intro j k hk k' hk'
    cases hk'
    exact ⟨fun hable => (by cases hable.1), fun n hn => h.sleep_positive j k n hk hn⟩
  have hgone : ∀ k', (none : Option Task) = some k' →
      ¬ k'.Able ∧ ∀ n, k'.sleep = some n → 0 < n := fun _ hk => by cases hk
  cases hp with
  | error => exact h
  | @spawn pc i hfree =>
    have hr : i ≠ a.running := by
      rintro rfl
      obtain ⟨k, hk, _⟩ := h.running_able
      rw [hfree] at hk
      cases hk
    refine sound_enqueue h hr ?_ ⟨rfl, rfl⟩
    rw [h.ready_iff]
    rintro ⟨_, k, hk, _⟩
    rw [hfree] at hk
    cases hk
  | terminate hk h0 hr => exact sound_withdraw h h0 hr hgone
  | exit h0 hs => exact starts_sound (leaving_set h h0 hgone) hs
  | block hk h0 hr => exact sound_withdraw h h0 hr (hblocked hk)
  | blockSelf hk h0 hs => exact starts_sound (leaving_set h h0 (hblocked hk)) hs
  | @resume i k hk hb hs =>
    have hunable : ¬ ∃ k', a.task i = some k' ∧ k'.Able := by
      rintro ⟨k', hk', hable⟩
      rw [hk] at hk'
      cases hk'
      rw [hable.1] at hb
      cases hb
    refine sound_enqueue h ?_ ?_ ⟨rfl, hs⟩
    · rintro rfl
      exact hunable h.running_able
    · rw [h.ready_iff]
      exact fun hi => hunable hi.2
  | resumeAsleep hk hb hs => exact sound_unblocked h hk hb hs
  | resumeIdle => exact h
  | sleep hn hk h0 hs =>
    refine starts_sound (leaving_set h h0 ?_) hs
    intro k' hk'
    cases hk'
    refine ⟨fun hable => (by cases hable.2), fun m hm => ?_⟩
    cases hm
    exact hn
  | getTid => exact h
  | getTotalQuantums => exact h
  | getQuantums => exact h
  | timer hs => exact starts_sound (leaving_timer h) hs

theorem start_sound : Sound Board.start := by
  have hmain : Board.start.task 0 = some (Task.start 1) := rfl
  have hnone : ∀ i, i ≠ 0 → Board.start.task i = none := by
    intro i hi
    simp [Board.start, Function.update_of_ne hi]
  have htask : ∀ {i k}, Board.start.task i = some k → i = 0 ∧ k = Task.start 1 := by
    intro i k hk
    by_cases hi : i = 0
    · subst hi
      exact ⟨rfl, (Option.some.inj hk).symm⟩
    · rw [hnone i hi] at hk
      cases hk
  refine ⟨⟨_, hmain, rfl, rfl⟩, ⟨_, hmain, rfl, rfl⟩, ?_, List.nodup_nil, ?_⟩
  · intro i k n hk hn
    obtain ⟨_, rfl⟩ := htask hk
    cases hn
  · intro i
    refine iff_of_false List.not_mem_nil ?_
    rintro ⟨hi, k, hk, _⟩
    exact hi (htask hk).1

end HeaderSpec
