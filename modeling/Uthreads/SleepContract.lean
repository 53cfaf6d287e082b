import Uthreads.ThreadInvariant

/-! # Sleeping and blocking

A thread that is asleep, blocked or both stays out of the queue until the countdown has
run out and the last request on it was not a block; then it is appended once. -/
namespace SleepContract

open ThreadLibrary SwitchSemantics CallEffects EventRuns ThreadInvariant LazyQueue

/-- Whether `tid` counts as blocked after the event. -/
def blockedBy (tid : ℤ) (b : Bool) : Event → Bool
  | .call (.block i) => if i = tid then true else b
  | .call (.resume i) => if i = tid then false else b
  | _ => b

def blockedAfter (tid : ℤ) (b : Bool) (tr : List (Event × Outcome)) : Bool :=
  tr.foldl (fun b x => blockedBy tid b x.1) b

theorem blockedAfter_append (tid : ℤ) (b : Bool) (tr : List (Event × Outcome)) (e : Event)
    (o : Outcome) :
    blockedAfter tid b (tr ++ [(e, o)]) = blockedBy tid (blockedAfter tid b tr) e := by
  simp [blockedAfter, List.foldl_append]

/-- Both reasons for not being ready are gone: `w` switches have happened and the thread
is not blocked. -/
def Released (tid w : ℤ) (b : Bool) (tr : List (Event × Outcome)) : Prop :=
  w ≤ (dispatched tr).length ∧ blockedAfter tid b tr = false

instance (tid w : ℤ) (b : Bool) (tr : List (Event × Outcome)) : Decidable (Released tid w b tr) :=
  inferInstanceAs (Decidable (_ ∧ _))

/-- The queue that the pick of a switch works on. A thread that the timer preempts while it
is RUNNING goes to its end; the entries of one that terminates itself are removed, and the
freed record is pushed only if it still reads as RUNNING. -/
def queueAtSwitch (remains : ThreadRef → Thread → Thread) (s : State) : Event → List ThreadRef
  | .timer => s.readyQueue ++ s.curRunning.toList.filter fun c => decide (Preempts s c)
  | .call (.terminate _) => s.readyQueue.filter (s.curRunning ≠ some ·) ++
      s.curRunning.toList.filter fun c =>
        (remains c (s.heap c)).status = .running ∧ (remains c (s.heap c)).isSleep = false
  | .call _ => s.readyQueue

/-- The switch made by `e` pops a front part of the queue, down to the thread it dispatches
or to the end, and appends threads whose sleep it ends, `r` once among them. -/
def AppendedBySwitch (remains : ThreadRef → Thread → Thread) (s : State) (e : Event) (t : State)
    (r : ThreadRef) : Prop :=
  t.totalQuantum = s.totalQuantum + 1 ∧
  ∃ popped rest woke, queueAtSwitch remains s e = popped ++ rest ∧
    (rest = [] ∨ popped.getLast? = t.curRunning) ∧ t.readyQueue = rest ++ woke ∧
    r ∉ rest ∧ woke.count r = 1 ∧
    ∀ x ∈ woke, (t.heap x).isSleep = false ∧
      ((s.heap x).isSleep = true ∨ (∃ n, e = .call (.sleep n)) ∧ s.curRunning = some x)

/-- `r` had no entry and now has one behind every older entry: a resume adds it to the
whole queue, a switch to what it leaves of the queue. -/
inductive AppendedOnce (remains : ThreadRef → Thread → Thread) (s t : State) (r : ThreadRef) :
    Event → Prop where
  | resume {i} : s.At i r → r ∉ s.readyQueue → t.readyQueue = s.readyQueue ++ [r] →
      AppendedOnce remains s t r (.call (.resume i))
  | switch {e} : AppendedBySwitch remains s e t r → AppendedOnce remains s t r e

/-- `r` is neither ready nor running: `left` is the rest of its countdown and `b` says
whether it is blocked. -/
structure Suspended (s : State) (tid : ℤ) (r : ThreadRef) (left : ℤ) (b : Bool) : Prop where
  cell : s.At tid r
  unqueued : r ∉ s.readyQueue
  parked : s.curRunning ≠ some r
  status : (s.heap r).status = if b then .blocked else .ready
  clock : if 0 < left then (s.heap r).isSleep = true ∧ (s.heap r).waitingTime = left
    else (s.heap r).isSleep = false ∧ b = true

variable {remains : ThreadRef → Thread → Thread} {s t u : State} {tid left : ℤ}
  {r : ThreadRef} {b : Bool} {e : Event} {o : Outcome}

theorem Suspended.frame (h : Suspended s tid r left b) (hheap : t.heap r = s.heap r)
    (hcell : t.At tid r) (hqueue : r ∉ t.readyQueue) (hcur : t.curRunning = s.curRunning) :
    Suspended t tid r left b :=
  ⟨hcell, hqueue, by rw [hcur]; exact h.parked, by rw [hheap]; exact h.status,
    by rw [hheap]; exact h.clock⟩

theorem Suspended.withMask (h : Suspended s tid r left b) (m : Bool) :
    Suspended { s with masked := m } tid r left b :=
  ⟨h.cell, h.unqueued, h.parked, h.status, h.clock⟩

/-- The released thread: back in the queue, awake, not running. -/
structure Requeued (remains : ThreadRef → Thread → Thread) (s t : State) (tid : ℤ)
    (r : ThreadRef) (e : Event) : Prop where
  cell : t.At tid r
  appended : AppendedOnce remains s t r e
  parked : t.curRunning ≠ some r
  awake : (t.heap r).isSleep = false

theorem AppendedOnce.withMask (h : AppendedOnce remains s t r e) (m : Bool) :
    AppendedOnce remains s { t with masked := m } r e := by
  cases h with
  | resume hr hoff hqueue => exact .resume hr hoff hqueue
  | switch h => exact .switch h

theorem Requeued.withMask (h : Requeued remains s t tid r e) (m : Bool) :
    Requeued remains s { t with masked := m } tid r e :=
  ⟨h.cell, h.appended.withMask m, h.parked, h.awake⟩

theorem suspended_terminated {i : Fin maxThreadNum} {q : ThreadRef}
    (h : Suspended s tid r left b) (hi : s.allThreads i = some q) (hrq : r ≠ q) :
    Suspended (terminated remains i q s) tid r left b := by
  refine h.frame (terminated_of_ne hrq) (terminated_at remains hi h.cell hrq) ?_ rfl
  intro hq
  exact h.unqueued (List.mem_filter.mp hq).1

theorem suspended_blocked (h : Suspended s tid r left b) :
    Suspended (blocked r s) tid r left true := by
  refine ⟨h.cell, h.unqueued, h.parked, by rw [blocked_self]; rfl, ?_⟩
  rw [blocked_self]
  have := h.clock
  split at this
  · rw [if_pos ‹_›]; exact this
  · rw [if_neg ‹_›]; exact ⟨this.1, rfl⟩

/-- A resume during the countdown only clears the block. -/
theorem suspended_resumed_asleep (h : Suspended s tid r left b) (hl : 0 < left) :
    Suspended (resumed r s) tid r left false := by
  have hc := h.clock
  rw [if_pos hl] at hc
  have hreq : ¬ Requeues s r := by
    rintro ⟨hawake, _⟩
    rw [hc.1] at hawake
    cases hawake
  refine ⟨h.cell, ?_, h.parked, by rw [resumed_self]; rfl, ?_⟩
  · rw [resumed_readyQueue, if_neg hreq, List.append_nil]
    exact h.unqueued
  · rw [resumed_self, if_pos hl]
    exact hc

/-- A resume after the countdown is what releases a blocked thread. -/
theorem suspended_resumed_awake (h : Suspended s tid r left b) (hl : ¬ 0 < left) :
    Requeued remains s (resumed r s) tid r (.call (.resume tid)) := by
  have hc := h.clock
  rw [if_neg hl] at hc
  have hreq : Requeues s r := ⟨hc.1, by rw [h.status, hc.2]; rfl⟩
  refine ⟨h.cell, .resume h.cell h.unqueued ?_, h.parked, by rw [resumed_self]; exact hc.1⟩
  rw [resumed_readyQueue, if_pos hreq]

theorem suspended_resumed_other (h : Suspended s tid r left b) {q : ThreadRef} (hrq : r ≠ q) :
    Suspended (resumed q s) tid r left b := by
  refine h.frame (resumed_of_ne hrq) h.cell ?_ rfl
  rw [resumed_readyQueue, List.mem_append]
  rintro (hq | hq)
  · exact h.unqueued hq
  · split at hq
    · exact hrq (List.mem_singleton.mp hq)
    · cases hq

theorem blockedBy_other {call : Call} (hb : ∀ i, call = .block i → i ≠ tid)
    (hr : ∀ i, call = .resume i → i ≠ tid) : blockedBy tid b (.call call) = b := by
  cases call with
  | block i => exact if_neg (hb i rfl)
  | resume i => exact if_neg (hr i rfl)
  | _ => rfl

/-- A call that comes back: it requeues `r` only as the resume that ends a plain block. -/
theorem quiet_suspended {call : Call} (hi : Invariant s) (h0 : tid ≠ mainThreadTid)
    (h : Suspended s tid r left b) (hterm : call ≠ .terminate tid)
    (hq : Quiet remains s call o t) :
    (0 < left ∨ blockedBy tid b (.call call) = true) ∧
        Suspended t tid r left (blockedBy tid b (.call call)) ∨
      left ≤ 0 ∧ blockedBy tid b (.call call) = false ∧
        Requeued remains s t tid r (.call call) := by
  have hstill : 0 < left ∨ b = true := by
    have := h.clock
    split at this
    · exact Or.inl ‹_›
    · exact Or.inr this.2
  cases hq with
  | idle m hidle =>
    have hb : blockedBy tid b (.call call) = b := by
      apply blockedBy_other
      · rintro i rfl rfl
        exact hidle.elim h0 fun hn => hn r h.cell
      · rintro i rfl rfl
        exact hidle r h.cell
    rw [hb]
    exact Or.inl ⟨hstill, h.withMask m⟩
  | @spawn pc i hfree =>
    have hne := hi.ne_fresh (At.live h.cell)
    refine Or.inl ⟨hstill, Suspended.withMask (s := spawned i pc s) (h.frame (spawned_of_ne hne)
      (spawned_at pc hfree h.cell) ?_ rfl) false⟩
    intro hq
    rcases List.mem_append.mp hq with hq | hq
    · exact h.unqueued hq
    · exact hne (List.mem_singleton.mp hq)
  | @block i q c hq =>
    by_cases hit : i = tid
    · subst hit
      obtain rfl := At.unique h.cell hq
      have hb : blockedBy i b (.call (.block i)) = true := if_pos rfl
      rw [hb]
      exact Or.inl ⟨Or.inr rfl, (suspended_blocked h).withMask false⟩
    · have hb : blockedBy tid b (.call (.block i)) = b := if_neg hit
      have hrq := hi.at_ne h.cell hq hit
      rw [hb]
      exact Or.inl ⟨hstill, Suspended.withMask (s := blocked q s)
        (h.frame (blocked_of_ne hrq) h.cell h.unqueued rfl) false⟩
  | @resume i q hq =>
    by_cases hit : i = tid
    · subst hit
      obtain rfl := At.unique h.cell hq
      have hb : blockedBy i b (.call (.resume i)) = false := if_pos rfl
      rw [hb]
      by_cases hl : 0 < left
      · exact Or.inl ⟨Or.inl hl, (suspended_resumed_asleep h hl).withMask false⟩
      · exact Or.inr ⟨not_lt.mp hl, rfl, (suspended_resumed_awake h hl).withMask false⟩
    · have hb : blockedBy tid b (.call (.resume i)) = b := if_neg hit
      have hrq := hi.at_ne h.cell hq hit
      rw [hb]
      exact Or.inl ⟨hstill, (suspended_resumed_other h hrq).withMask false⟩
  | @terminate i q c hq =>
    have hrq := hi.at_ne h.cell ⟨i, rfl, hq⟩ fun hit => hterm (by rw [hit])
    exact Or.inl ⟨hstill, (suspended_terminated h hq hrq).withMask false⟩

/-- On the way into a switch nothing happens to `r`. -/
theorem enters_suspended {c : ThreadRef} {ctx : Context} {s' : State} (hi : Invariant s)
    (h : Suspended s tid r left b) (he : Enters remains s e c ctx s') :
    r ≠ c ∧ blockedBy tid b e = b ∧ Suspended s' tid r left b := by
  obtain ⟨_, _, hc, _⟩ := enters_consistent hi he
  have hrc : r ≠ c := by rintro rfl; exact h.parked hc
  refine ⟨hrc, ?_⟩
  cases he with
  | timer => exact ⟨rfl, h⟩
  | @blockSelf i _ hci =>
    have hit : i ≠ tid := by
      rintro rfl
      exact hrc (At.unique h.cell hci)
    exact ⟨if_neg hit, h.frame (blocked_of_ne hrc) h.cell h.unqueued rfl⟩
  | sleep => exact ⟨rfl, h.frame (asleep_of_ne hrc) h.cell h.unqueued rfl⟩
  | exit hcell => exact ⟨rfl, suspended_terminated h hcell hrc⟩

theorem queueAtSwitch_eq {c : ThreadRef} {ctx : Context} {s' : State}
    (he : Enters remains s e c ctx s') : queueAtPick s' c = queueAtSwitch remains s e := by
  cases he with
  | timer _ hc =>
    rw [queueAtPick, queueAtSwitch, hc]
    by_cases hp : Preempts s c <;> simp [hp]
  | blockSelf => exact queueAtPick_of_stays blocked_stays
  | sleep => exact queueAtPick_of_stays asleep_stays
  | exit hcell _ hc =>
    have hfilter : s.readyQueue.filter (s.curRunning ≠ some ·) = s.readyQueue.filter (· ≠ c) := by
      rw [hc]
      exact List.filter_congr fun x _ => by simp [eq_comm]
    rw [queueAtPick, queueAtSwitch, hfilter, hc]
    by_cases hp : (remains c (s.heap c)).status = .running ∧ (remains c (s.heap c)).isSleep = false
    all_goals simp [Preempts, terminated, hp]

/-- Who has a countdown when a switch begins was asleep before the event, or falls asleep
in it. -/
theorem enters_asleep {c x : ThreadRef} {ctx : Context} {s' : State} (hi : Invariant s)
    (he : Enters remains s e c ctx s') (hlive : s'.Live x) (hx : (s'.heap x).isSleep = true) :
    (s.heap x).isSleep = true ∨ (∃ n, e = .call (.sleep n)) ∧ s.curRunning = some x := by
  cases he with
  | timer => exact Or.inl hx
  | blockSelf =>
    by_cases hxc : x = c
    · subst hxc
      rw [blocked_self] at hx
      exact Or.inl hx
    · rw [blocked_of_ne hxc] at hx
      exact Or.inl hx
  | @sleep n _ _ hc =>
    by_cases hxc : x = c
    · exact Or.inr ⟨⟨n, rfl⟩, by rw [hxc, hc]⟩
    · rw [asleep_of_ne hxc] at hx
      exact Or.inl hx
  | exit hcell =>
    have hxc := ((terminated_live hi.toTable remains hcell x).mp hlive).2
    rw [terminated_of_ne hxc] at hx
    exact Or.inl hx

theorem picks_popped {c next : ThreadRef} {rest : List ThreadRef} (hp : Picks s c next rest) :
    ∃ popped, queueAtPick s c = popped ++ rest ∧ (rest = [] ∨ popped.getLast? = some next) := by
  cases hp with
  | entry hsweep =>
    obtain ⟨_, dropped, hsplit⟩ := sweep_split hsweep
    exact ⟨dropped ++ [next], by rw [hsplit]; simp, Or.inr (by simp)⟩
  | main => exact ⟨queueAtPick s c, by simp, Or.inl rfl⟩
  | current => exact ⟨queueAtPick s c, by simp, Or.inl rfl⟩

/-- `AppendedBySwitch` in terms of the state that enters the switch. -/
def Adds (s : State) (c next : ThreadRef) (t : State) (r : ThreadRef) : Prop :=
  ∃ popped rest woke, queueAtPick s c = popped ++ rest ∧
    (rest = [] ∨ popped.getLast? = some next) ∧ t.readyQueue = rest ++ woke ∧
    r ∉ rest ∧ woke.count r = 1 ∧
    ∀ x ∈ woke, s.Live x ∧ (s.heap x).isSleep = true ∧ (t.heap x).isSleep = false

/-- Only a sleeper's countdown can run out. -/
theorem due_asleep {x : ThreadRef} (hs : Consistent s) (hlive : s.Live x)
    (hdue : Due (s.heap x)) : (s.heap x).isSleep = true := by
  by_contra hawake
  have hawake : (s.heap x).isSleep = false := by simpa using hawake
  have hclock := hs.awake_clock x hlive hawake
  simp [Due, hawake, hclock] at hdue

/-- The countdown of a thread that is off the queue and not picked: the switch that ends
it requeues the thread unless it is blocked. -/
theorem switch_countdown {c next : ThreadRef} {ctx : Context} (hs : Consistent s)
    (hat : s.At tid r) (hoff : r ∉ queueAtPick s c) (hne : next ≠ r)
    (hst : statusAtPick s c r = if b then .blocked else .ready)
    (hclock : if 0 < left then (s.heap r).isSleep = true ∧ (s.heap r).waitingTime = left
      else (s.heap r).isSleep = false ∧ b = true)
    (hsw : Switch s c ctx next t) :
    (0 < left - 1 ∨ b = true) ∧ Suspended t tid r (left - 1) b ∨
      left - 1 ≤ 0 ∧ b = false ∧ t.At tid r ∧ (t.heap r).isSleep = false ∧
        Adds s c next t r := by
  obtain ⟨rest, woke, hp, hqueue, hnodup, hwoke⟩ := hsw.queue
  obtain ⟨popped, hsplit, hlast⟩ := picks_popped hp
  have hrest := picks_rest_sublist hp
  have hat' : t.At tid r := by
    obtain ⟨i, hi, hr⟩ := hat
    exact ⟨i, hi, by rw [hsw.allThreads]; exact hr⟩
  have hparked : t.curRunning ≠ some r := by rw [hsw.curRunning]; simpa using hne
  have hstatus : (t.heap r).status = if b then .blocked else .ready := by
    rw [hsw.status, if_neg (Ne.symm hne), hst]
  have hlive := At.live hat
  obtain ⟨hsleep, hwait⟩ := hsw.clock r hlive
  have hin : r ∈ t.readyQueue ↔ Due (s.heap r) ∧ b = false := by
    rw [hqueue, List.mem_append, hwoke, hstatus]
    constructor
    · rintro (hr | ⟨_, hdue, hb⟩)
      · exact (hoff (hrest.subset hr)).elim
      · exact ⟨hdue, by simpa using hb⟩
    · rintro ⟨hdue, hb⟩
      exact Or.inr ⟨hlive, hdue, by simp [hb]⟩
  by_cases hl : 0 < left
  · rw [if_pos hl] at hclock
    have htick := tick_sleeping hclock.1
    rw [hclock.2] at htick
    have hdue : Due (s.heap r) ↔ left = 1 := by
      simp only [Due, hclock.1, hclock.2, if_true]
      omega
    by_cases hone : left = 1
    · subst hone
      have hsleep' : (t.heap r).isSleep = false := by rw [hsleep, htick.1]; simp
      cases b with
      | true =>
        exact Or.inl ⟨Or.inr rfl, hat', fun hr => by simpa using hin.mp hr, hparked, hstatus,
          by simpa using hsleep'⟩
      | false =>
        refine Or.inr ⟨by omega, rfl, hat', hsleep', popped, rest, woke, hsplit, hlast, hqueue,
          fun hr => hoff (hrest.subset hr), ?_, ?_⟩
        · exact List.count_eq_one_of_mem hnodup ((hwoke r).mpr
            ⟨hlive, hdue.mpr rfl, by rw [hstatus]; rfl⟩)
        · intro x hx
          obtain ⟨hxlive, hxdue, _⟩ := (hwoke x).mp hx
          exact ⟨hxlive, due_asleep hs hxlive hxdue, by
            rw [(hsw.clock x hxlive).1, tick, if_pos hxdue]⟩
    · have hpos : 0 < left - 1 := by omega
      refine Or.inl ⟨Or.inl hpos, hat', fun hr => hone (hdue.mp (hin.mp hr).1), hparked,
        hstatus, ?_⟩
      rw [if_pos hpos, hsleep, hwait, htick.1, htick.2, if_neg hone]
      simp [hone]
  · rw [if_neg hl] at hclock
    have htick := tick_awake hclock.1 (hs.awake_clock r hlive hclock.1)
    rw [htick] at hsleep
    refine Or.inl ⟨Or.inr hclock.2, hat', fun hr => ?_, hparked, hstatus, ?_⟩
    · have hb := (hin.mp hr).2
      rw [hclock.2] at hb
      cases hb
    · rw [if_neg (by omega), hsleep]
      exact hclock

/-- What a switch has added, seen from the state in which the event arrived. -/
theorem appended_by_switch {c next : ThreadRef} {ctx : Context} {s' : State} {v : Option ℤ}
    (hi : Invariant s) (he : Enters remains s e c ctx s') (hdisp : Dispatch s' c ctx next v t)
    (hadds : Adds s' c next t r) : AppendedBySwitch remains s e t r := by
  obtain ⟨popped, rest, woke, hsplit, hlast, hqueue, hr, hone, hwoke⟩ := hadds
  refine ⟨?_, popped, rest, woke, ?_, ?_, hqueue, hr, hone, fun x hx => ?_⟩
  · rw [hdisp.totalQuantum, enters_totalQuantum he]
  · rw [← queueAtSwitch_eq he, hsplit]
  · rw [hdisp.curRunning]
    exact hlast
  · obtain ⟨hlive, hasleep, hawake⟩ := hwoke x hx
    exact ⟨hawake, enters_asleep hi he hlive hasleep⟩

/-- A switch never picks a suspended thread. -/
theorem suspended_not_picked {c next : ThreadRef} {rest : List ThreadRef} (hs : Consistent s)
    (h0 : tid ≠ mainThreadTid) (h : Suspended s tid r left b) (hrc : r ≠ c)
    (hp : Picks s c next rest) : r ∉ queueAtPick s c ∧ next ≠ r := by
  have hoff : r ∉ queueAtPick s c := fun hq => (mem_queueAtPick hq).elim h.unqueued hrc
  refine ⟨hoff, ?_⟩
  rintro rfl
  rcases picks_next hp with hq | hm | rfl
  · exact hoff hq
  · exact hs.main_ne hm h.cell h0 rfl
  · exact hrc rfl

/-- One step, whatever it is: `r` is not dispatched and stays suspended, or both reasons
are gone and it is requeued. -/
theorem step_suspended (hi : Invariant s) (h0 : tid ≠ mainThreadTid)
    (h : Suspended s tid r left b) (hterm : e ≠ .call (.terminate tid))
    (hs : step (uthreads remains) s e = .ok (o, t)) :
    dispatchedThread o ≠ some r ∧ (quantumsUsed o = 1 → blockedBy tid b e = b) ∧
      ((0 < left - quantumsUsed o ∨ blockedBy tid b e = true) ∧
          Suspended t tid r (left - quantumsUsed o) (blockedBy tid b e) ∨
        left - quantumsUsed o ≤ 0 ∧ blockedBy tid b e = false ∧
          Requeued remains s t tid r e) := by
  cases step_effect hi hs with
  | @quiet call _ _ hq =>
    have ho : quantumsUsed o = 0 ∧ dispatchedThread o ≠ some r := by
      cases o with
      | dispatched next v => exact (hq.returns next v rfl).elim
      | _ => simp [quantumsUsed, dispatchedThread]
    rw [ho.1, Int.sub_zero]
    exact ⟨ho.2, by simp, quiet_suspended hi h0 h (fun hc => hterm (by rw [hc])) hq⟩
  | @switch _ c ctx s' next v _ he hdisp =>
    obtain ⟨hcons, _⟩ := enters_consistent hi he
    obtain ⟨hrc, hb, hsusp⟩ := enters_suspended hi h he
    obtain ⟨rest, woke, hp, _⟩ := hdisp.queue
    obtain ⟨hoff, hne⟩ := suspended_not_picked hcons h0 hsusp hrc hp
    have hst := (statusAtPick_of_ne hrc).trans hsusp.status
    rw [hb]
    refine ⟨fun hd => hne (Option.some.inj hd), fun _ => rfl, ?_⟩
    rcases switch_countdown hcons hsusp.cell hoff hne hst hsusp.clock hdisp.toSwitch with
      hstay | ⟨hl, hb', hat, hawake, hadds⟩
    · exact Or.inl hstay
    · refine Or.inr ⟨hl, hb', hat, .switch ?_, ?_, hawake⟩
      · exact appended_by_switch hi he hdisp hadds
      · rw [hdisp.curRunning]
        simpa using hne

theorem dispatched_snoc (tr : List (Event × Outcome)) (e : Event) (o : Outcome) :
    dispatched (tr ++ [(e, o)]) = dispatched tr ++ (dispatchedThread o).toList := by
  cases o <;> simp [dispatched, dispatchedThread]

theorem length_dispatched_snoc (tr : List (Event × Outcome)) (e : Event) (o : Outcome) :
    ((dispatched (tr ++ [(e, o)])).length : ℤ) = (dispatched tr).length + quantumsUsed o := by
  rw [dispatched_snoc]
  cases o <;> simp [dispatchedThread, quantumsUsed]

/-- Until the first moment of release, `r` stays suspended. -/
theorem run_suspended {w : ℤ} {tr : List (Event × Outcome)} (hi : Invariant s)
    (h0 : tid ≠ mainThreadTid) (h : Suspended s tid r w b)
    (hx : Exec (step (uthreads remains)) s tr u)
    (hterm : ∀ x ∈ tr, x.1 ≠ .call (.terminate tid))
    (hnot : ∀ pre, pre <+: tr → ¬ Released tid w b pre) :
    Invariant u ∧ r ∉ dispatched tr ∧
      Suspended u tid r (w - (dispatched tr).length) (blockedAfter tid b tr) := by
  have main := hx.history (I := fun tr u =>
    (∀ x ∈ tr, x.1 ≠ .call (.terminate tid)) → (∀ pre, pre <+: tr → ¬ Released tid w b pre) →
      Invariant u ∧ r ∉ dispatched tr ∧
        Suspended u tid r (w - (dispatched tr).length) (blockedAfter tid b tr))
  refine main ?_ ?_ hterm hnot
  · intro _ _
    have : w - ((dispatched []).length : ℤ) = w := Int.sub_zero w
    rw [this]
    exact ⟨hi, by simp [dispatched], h⟩
  · intro tr s' e o t ih hs hterm hnot
    obtain ⟨hi', hr, hsusp⟩ := ih
      (fun x hx => hterm x (List.mem_append_left _ hx))
      (fun pre hpre => hnot pre (hpre.trans (List.prefix_append tr _)))
    obtain ⟨hd, _, hcase⟩ := step_suspended hi' h0 hsusp
      (hterm (e, o) (by simp)) hs
    have hlen := length_dispatched_snoc tr e o
    have hleft : w - (dispatched tr).length - quantumsUsed o =
        w - ((dispatched (tr ++ [(e, o)])).length : ℤ) := by omega
    rw [hleft, ← blockedAfter_append tid b tr e o] at hcase
    refine ⟨step_preserves_invariant hi' hs, ?_, ?_⟩
    · rw [dispatched_snoc, List.mem_append]
      rintro (hr' | hr')
      · exact hr hr'
      · exact hd (by simpa using hr')
    · rcases hcase with ⟨_, hstay⟩ | ⟨hl, hb, _⟩
      · exact hstay
      · exact (hnot _ (List.prefix_refl _) ⟨by omega, hb⟩).elim

/-- At the first moment of release, `r` is requeued. -/
theorem release_step {w : ℤ} {pre : List (Event × Outcome)} (hi : Invariant s)
    (h0 : tid ≠ mainThreadTid) (h : Suspended s tid r w b)
    (hx : Exec (step (uthreads remains)) s pre t)
    (hterm : ∀ x ∈ pre ++ [(e, o)], x.1 ≠ .call (.terminate tid))
    (hnot : ∀ p, p <+: pre → ¬ Released tid w b p)
    (hs : step (uthreads remains) t e = .ok (o, u))
    (hrel : Released tid w b (pre ++ [(e, o)])) :
    r ∉ dispatched (pre ++ [(e, o)]) ∧ Requeued remains t u tid r e := by
  obtain ⟨hi', hr, hsusp⟩ := run_suspended hi h0 h hx
    (fun x hx => hterm x (List.mem_append_left _ hx)) hnot
  obtain ⟨hd, _, hcase⟩ := step_suspended hi' h0 hsusp (hterm (e, o) (by simp)) hs
  obtain ⟨hw, hb⟩ := hrel
  have hlen := length_dispatched_snoc pre e o
  rw [blockedAfter_append] at hb
  refine ⟨?_, ?_⟩
  · rw [dispatched_snoc, List.mem_append]
    rintro (hr' | hr')
    · exact hr hr'
    · exact hd (by simpa using hr')
  · rcases hcase with ⟨hl | hb', _⟩ | ⟨_, _, hrequeued⟩
    · omega
    · rw [hb] at hb'; cases hb'
    · exact hrequeued

theorem sleep_and_block_end_independently {tr₀ tr : List (Event × Outcome)}
    (h : Runs remains tr₀ s) (hr : s.At tid r) (h0 : tid ≠ mainThreadTid)
    (hsleep : (s.heap r).isSleep = true) (hparked : s.curRunning ≠ some r)
    (hqueue : r ∉ s.readyQueue)
    (hstatus : (s.heap r).status = .ready ∨ (s.heap r).status = .blocked)
    (hx : Exec (step (uthreads remains)) s tr u)
    (hterm : ∀ x ∈ tr, x.1 ≠ .call (.terminate tid)) :
    let w := (s.heap r).waitingTime
    let b := decide ((s.heap r).status = .blocked)
    ((∀ pre, pre <+: tr → ¬ Released tid w b pre) →
      r ∉ u.readyQueue ∧ r ∉ dispatched tr) ∧
    (∀ pre e o p, tr = pre ++ [(e, o)] → Exec (step (uthreads remains)) s pre p →
      (∀ q, q <+: pre → ¬ Released tid w b q) → Released tid w b tr →
      r ∉ dispatched tr ∧ AppendedOnce remains p u r e) := by
  intro w b
  have hi := reachable_invariant h
  have hsusp : Suspended s tid r w b := by
    refine ⟨hr, hqueue, hparked, ?_, ?_⟩
    · rcases hstatus with hst | hst <;> simp [b, hst]
    · rw [if_pos (hi.sleep_clock r (At.live hr) hsleep)]
      exact ⟨hsleep, rfl⟩
  refine ⟨?_, ?_⟩
  · intro hnot
    obtain ⟨_, hd, hu⟩ := run_suspended hi h0 hsusp hx hterm hnot
    exact ⟨hu.unqueued, hd⟩
  · rintro pre e o p rfl hp hnot hrel
    obtain ⟨p', hp', hlast⟩ := hx.split
    obtain rfl := hp.deterministic hp'
    obtain ⟨u', hs, hnil⟩ := hlast.cons_inv
    cases hnil
    obtain ⟨hd, hrequeued⟩ := release_step hi h0 hsusp hp hterm hnot hs hrel
    exact ⟨hd, hrequeued.appended⟩

/-- Thread 1 sleeps for two quantums while 2 and main run: blocked meanwhile, it is queued by
the late resume behind both entries; else by the switch, behind the thread it preempts. -/
theorem sleep_and_block_end_independently_both_orders :
    let s := after freedRecord initial
      [.call (.spawn (some 7)), .call (.spawn (some 8)), .timer, .call (.sleep 2)]
    let p := after freedRecord s [.call (.block 1), .timer]
    let u := after freedRecord s [.call (.block 1), .timer, .call (.resume 1)]
    let v := after freedRecord s [.timer]
    AppendedOnce freedRecord p u 1 (.call (.resume 1)) ∧ u.readyQueue = [2, 1] ∧
      AppendedOnce freedRecord s v 1 .timer ∧ v.readyQueue = [2, 1] := by
  intro s p u v
  have hrun := runs_history freedRecord
    [.call (.spawn (some 7)), .call (.spawn (some 8)), .timer, .call (.sleep 2)]
    (by decide +kernel)
  have h := fun es ht hes => sleep_and_block_end_independently (r := 1) hrun
    ⟨1, rfl, by decide +kernel⟩ (by decide) (by decide +kernel) (by decide +kernel)
    (by decide +kernel) (by decide +kernel) (exec_history freedRecord s es ht) hes
  refine ⟨?_, by decide +kernel, ?_, by decide +kernel⟩
  · refine ((h [.call (.block 1), .timer, .call (.resume 1)] (by decide +kernel)
      (by decide +kernel)).2 (history freedRecord s [.call (.block 1), .timer])
      (.call (.resume 1)) (.returned 0) _ (by decide +kernel)
      (exec_history freedRecord s _ (by decide +kernel)) ?_ ?_).2
    · simp only [← List.mem_inits]
      decide +kernel
    · decide +kernel
  · refine ((h [.timer] (by decide +kernel) (by decide +kernel)).2 [] .timer
      (.dispatched 0 none) _ (by decide +kernel) (.nil s) ?_ ?_).2
    · simp only [← List.mem_inits]
      decide +kernel
    · decide +kernel

end SleepContract
