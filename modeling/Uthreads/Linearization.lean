import Uthreads.PreemptionWindows

/-! # Preempted calls take effect at once

A call that is preempted inside its window has the effect and the result of a whole call made
at one moment between its beginning and its end. So what holds of the runs with atomic calls
holds under preemption. -/
namespace Linearization

open ThreadLibrary SwitchSemantics CallEffects EventRuns ThreadInvariant PreemptionWindows

/-- The call that the window belongs to. -/
def windowCall : Pending → Call
  | .spawn pc => .spawn (some pc)
  | .getQuantums tid => .getQuantums tid

/-- The call that the running thread begins. -/
def begins (m : Machine) : Action → Option Outcome → Option (ThreadRef × Call)
  | .begin call, _ => m.lib.curRunning.map (·, call)
  | _, _ => none

/-- What takes effect in this step, for the running thread: a call that ends, or the signal. -/
def takesEffect (m : Machine) : Action → Option Outcome → Option (ThreadRef × Event × Outcome)
  | .timer, some o => m.lib.curRunning.map (·, .timer, o)
  | .begin call, some o => m.lib.curRunning.map (·, .call call, o)
  | .act, some o => m.lib.curRunning.bind fun c =>
      (m.pending c).map fun p => (c, .call (windowCall p), o)
  | _, none => none

/-- The calls of `r`. -/
def callsOf (r : ThreadRef) : ThreadRef × Event × Outcome → Option Call
  | (c, .call call, _) => if c = r then some call else none
  | (_, .timer, _) => none

def begunBy (r : ThreadRef) : ThreadRef × Call → Option Call
  | (c, call) => if c = r then some call else none

section Linear

variable (V : Variant) (m : Machine) (tr : List (Action × Option Outcome))

/-- The whole calls and the signals, in the order in which they took effect. -/
def linear : List (ThreadRef × Event × Outcome) := collect (windowStep V) takesEffect m tr

def begun : List (ThreadRef × Call) := collect (windowStep V) begins m tr

end Linear

/-- The running thread acts on a check that the whole call, made now, would fail. -/
def StaleCheck (V : Variant) (m : Machine) (a : Action) : Prop :=
  a = .act ∧ ∃ c p e, m.lib.curRunning = some c ∧ m.pending c = some p ∧
    step V m.lib (.call (windowCall p)) = .ok (.failed e, m.lib)

/-- The event that an action outside the windows is. -/
def wholeEvent : Action → Option Event
  | .timer => some .timer
  | .begin call => some (.call call)
  | .act => none

variable {remains : ThreadRef → Thread → Thread} {m m' : Machine} {a : Action}
  {x : Option Outcome} {c r : ThreadRef} {tr : List (Action × Option Outcome)}

theorem at_of_threadAt {s : State} {tid : ℤ} (h : s.threadAt tid = .ok r) : s.At tid r := by
  unfold State.threadAt State.cell at h
  split at h
  · rename_i hrange
    simp only [ok_bind] at h
    cases hcell : s.allThreads ⟨tid.toNat, by omega⟩ with
    | none =>
      rw [hcell] at h
      cases h
    | some q =>
      rw [hcell] at h
      cases h
      exact ⟨_, Int.toNat_of_nonneg hrange.1, hcell⟩
  · cases h

/-- The check that a window was entered with still holds when its action is accepted: with a
full table or an empty cell the action crashes. -/
theorem act_is_whole_call {p : Pending} {o : Outcome} {t : State} (hi : Invariant m.lib)
    (h : ((p.control m.lib) >>= completes (uthreads remains)) = .ok (o, t)) :
    step (uthreads remains) m.lib (.call (windowCall p)) = .ok (o, t) := by
  cases p with
  | spawn pc =>
    have hcheck : spawnCheck (some pc) m.lib = .inr pc := by
      rcases findId_cases (maskSignals m.lib) with ⟨i, hfree, _⟩ | ⟨hid, _⟩
      · have hroom := (exists_free_iff hi.toTable).mp ⟨i, hfree.2.1⟩
        simp only [spawnCheck, if_neg (not_le.mpr hroom)]
      · simp only [Pending.control, spawnMasked, addThread, hid, State.setCell] at h
        cases h
    simp only [step, windowCall, request, uthreadSpawn, hcheck]
    exact h
  | getQuantums tid =>
    cases hcell : m.lib.threadAt tid with
    | error f =>
      simp only [Pending.control, readQuantum, hcell, error_bind] at h
      cases h
    | ok q =>
      simp only [step, windowCall, request, uthreadGetQuantums,
        checkValidTid_ok (at_of_threadAt hcell), ok_bind]
      exact h

inductive WindowEffect (V : Variant) (m : Machine) (c : ThreadRef) :
    Action → Option Outcome → Machine → Prop where
  | timer {o t} : step V m.lib .timer = .ok (o, t) →
      WindowEffect V m c .timer (some o) ⟨t, m.pending⟩
  | whole {call o t} : m.pending c = none → step V m.lib (.call call) = .ok (o, t) →
      WindowEffect V m c (.begin call) (some o) ⟨t, m.pending⟩
  | stop {p} : m.pending c = none →
      WindowEffect V m c (.begin (windowCall p)) none (m.stops c p).2
  | finish {p o t} : m.pending c = some p → (p.control m.lib >>= completes V) = .ok (o, t) →
      WindowEffect V m c .act (some o) ⟨t, Function.update m.pending c none⟩

theorem settle_ok {pending : ThreadRef → Option Pending} {y : Except Fault (Outcome × State)}
    (h : settle pending y = .ok (x, m')) :
    ∃ o t, y = .ok (o, t) ∧ x = some o ∧ m' = ⟨t, pending⟩ := by
  cases y with
  | error f => cases h
  | ok y =>
    cases h
    exact ⟨y.1, y.2, rfl, rfl, rfl⟩

theorem beginCall_effect {V : Variant} {call : Call} (hp : m.pending c = none)
    (h : beginCall V m c call = .ok (x, m')) : WindowEffect V m c (.begin call) x m' := by
  cases call with
  | spawn entryPoint =>
    cases hcheck : spawnCheck entryPoint m.lib with
    | inl e =>
      simp only [beginCall, hcheck] at h
      cases h
      refine .whole hp ?_
      simp only [step, request, uthreadSpawn_refused hcheck, ok_bind, pure_ok]
    | inr pc =>
      simp only [beginCall, hcheck] at h
      cases h
      have hentry : entryPoint = some pc := by
        unfold spawnCheck at hcheck
        split at hcheck
        · cases hcheck
        · cases entryPoint <;> cases hcheck
          rfl
      rw [hentry]
      exact .stop (p := .spawn pc) hp
  | getQuantums tid =>
    rcases checkValidTid_cases m.lib tid with ⟨r, hr⟩ | ⟨_, e, he⟩
    · simp only [beginCall, checkValidTid_ok hr] at h
      cases h
      exact .stop (p := .getQuantums tid) hp
    · simp only [beginCall, he] at h
      cases h
      refine .whole hp ?_
      simp only [step, request, uthreadGetQuantums_invalid he, ok_bind, pure_ok]
  | _ =>
    simp only [beginCall] at h
    obtain ⟨o, t, hs, rfl, rfl⟩ := settle_ok h
    exact .whole hp hs

theorem windowStep_effect {V : Variant} (h : windowStep V m a = .ok (x, m')) :
    ∃ c, m.lib.curRunning = some c ∧ WindowEffect V m c a x m' := by
  unfold windowStep at h
  split at h
  · cases h
  · rename_i c hc
    refine ⟨c, hc, ?_⟩
    split at h
    · obtain ⟨o, t, hs, rfl, rfl⟩ := settle_ok h
      exact .timer hs
    · exact beginCall_effect ‹_› h
    · cases h
    · obtain ⟨o, t, hs, rfl, rfl⟩ := settle_ok h
      exact .finish ‹_› hs
    · cases h

/-- A step either changes nothing in the library or is a whole call, or the signal. -/
theorem step_takes_effect (hi : Invariant m.lib)
    (h : windowStep (uthreads remains) m a = .ok (x, m')) :
    (takesEffect m a x = none → m'.lib = m.lib) ∧ ∀ y, takesEffect m a x = some y →
      step (uthreads remains) m.lib y.2.1 = .ok (y.2.2, m'.lib) := by
  obtain ⟨c, hc, he⟩ := windowStep_effect h
  cases he with
  | timer hs => simp [takesEffect, hc, hs]
  | whole hp hs => simp [takesEffect, hc, hs]
  | stop hp => simp [takesEffect, Machine.stops]
  | finish hp hs => simp [takesEffect, hc, hp, act_is_whole_call hi hs]

/-- No call gets lost in its window, and none is made twice. -/
theorem step_program_order {V : Variant} (h : windowStep V m a = .ok (x, m')) (r : ThreadRef) :
    ((m.pending r).map windowCall).toList ++ ((begins m a x).bind (begunBy r)).toList =
      ((takesEffect m a x).bind (callsOf r)).toList ++ ((m'.pending r).map windowCall).toList := by
  obtain ⟨c, hc, he⟩ := windowStep_effect h
  cases he with
  | timer hs => simp [takesEffect, begins, hc, callsOf]
  | whole hp hs =>
    by_cases hr : c = r
    · subst hr
      simp [takesEffect, begins, hc, callsOf, begunBy, hp]
    · simp [takesEffect, begins, hc, callsOf, begunBy, hr]
  | stop hp =>
    by_cases hr : c = r
    · subst hr
      simp [takesEffect, begins, hc, begunBy, hp, Machine.stops]
    · simp [takesEffect, begins, hc, begunBy, hr, Machine.stops, Ne.symm hr]
  | finish hp hs =>
    by_cases hr : c = r
    · subst hr
      simp [takesEffect, begins, hc, hp, callsOf]
    · simp [takesEffect, begins, hc, hp, callsOf, hr, Ne.symm hr]

theorem run_program_order {V : Variant} (h : Exec (windowStep V) m tr m') (r : ThreadRef) :
    ((m.pending r).map windowCall).toList ++ (begun V m tr).filterMap (begunBy r) =
      (linear V m tr).filterMap (callsOf r) ++ ((m'.pending r).map windowCall).toList := by
  simp only [begun, linear, h.collect_filterMap]
  induction h with
  | nil => simp [collect]
  | cons hs _ ih =>
    rw [collect_cons _ hs, collect_cons _ hs, ← List.append_assoc, step_program_order hs r,
      List.append_assoc, ih, List.append_assoc]

theorem run_answers {V : Variant} (h : Exec (windowStep V) m tr m') :
    (linear V m tr).map (fun y => y.2.2) = tr.filterMap Prod.snd := by
  induction h with
  | nil => rfl
  | @cons m a x m₁ tr m' hs _ ih =>
    rw [linear, collect_cons _ hs, List.map_append]
    rw [linear] at ih
    rw [ih]
    obtain ⟨c, hc, he⟩ := windowStep_effect hs
    cases he with
    | timer => simp [takesEffect, hc]
    | whole => simp [takesEffect, hc]
    | stop => simp [takesEffect]
    | finish hp => simp [takesEffect, hc, hp]

/-- In its window a call faults exactly when its check has become stale. -/
theorem act_faults_iff {p : Pending} (hi : Invariant m.lib) :
    (∃ f, (p.control m.lib >>= completes (uthreads remains)) = .error f) ↔
      ∃ e, step (uthreads remains) m.lib (.call (windowCall p)) = .ok (.failed e, m.lib) := by
  cases p with
  | spawn pc =>
    rcases findId_cases (maskSignals m.lib) with ⟨i, hfree, hid⟩ | ⟨hid, hfull⟩
    · have hroom := (exists_free_iff hi.toTable).mp ⟨i, hfree.2.1⟩
      refine iff_of_false ?_ ?_
      · rintro ⟨f, hf⟩
        simp only [Pending.control, spawnMasked, addThread_ok pc hid, ok_bind, pure_ok,
          completes] at hf
        cases hf
      · rintro ⟨e, he⟩
        simp only [step, windowCall, request, uthreadSpawn_ok hroom hid, ok_bind, pure_ok] at he
        cases he
    · have hcount : maxThreadNum ≤ count m.lib := by
        refine hi.count_full.mpr fun i => ?_
        by_cases h0 : i = 0
        · subst h0
          obtain ⟨main, hmain⟩ := hi.main_cell
          rw [hmain]
          simp
        · exact hfull i h0
      have hcheck : spawnCheck (some pc) m.lib = .inl .maxNumber := if_pos hcount
      refine iff_of_true ⟨.outOfRange (-1), ?_⟩ ⟨.maxNumber, ?_⟩
      · simp only [Pending.control, spawnMasked, addThread, hid, State.setCell]
        rfl
      · simp only [step, windowCall, request, uthreadSpawn_refused hcheck, ok_bind, pure_ok]
  | getQuantums tid =>
    rcases checkValidTid_cases m.lib tid with ⟨r, hr⟩ | ⟨hnone, e, he⟩
    · refine iff_of_false ?_ ?_
      · rintro ⟨f, hf⟩
        simp only [Pending.control, readQuantum, threadAt_ok hr, ok_bind, pure_ok,
          completes] at hf
        cases hf
      · rintro ⟨e, he⟩
        simp only [step, windowCall, request, uthreadGetQuantums_ok hr, ok_bind, pure_ok] at he
        cases he
    · refine iff_of_true ?_ ⟨e, ?_⟩
      · cases hcell : m.lib.threadAt tid with
        | error f => exact ⟨f, by simp only [Pending.control, readQuantum, hcell, error_bind]⟩
        | ok q => exact (hnone q (at_of_threadAt hcell)).elim
      · simp only [step, windowCall, request, uthreadGetQuantums_invalid he, ok_bind, pure_ok]

theorem settle_fault {pending : ThreadRef → Option Pending} {f : Fault}
    {y : Except Fault (Outcome × State)} :
    settle pending y = .error (.fault f) ↔ y = .error f := by
  cases y with
  | error g => simp [settle]
  | ok y => simp [settle]

/-- A fault that the library does not have with atomic calls comes from a stale check. -/
theorem windowStep_faults (hi : Invariant m.lib) {f : Fault}
    (h : windowStep (uthreads remains) m a = .error (.fault f)) :
    StaleCheck (uthreads remains) m a ∨
      ∃ e, wholeEvent a = some e ∧ step (uthreads remains) m.lib e = .error f := by
  obtain ⟨c, hc, _⟩ := hi.current_live
  unfold windowStep at h
  rw [hc] at h
  simp only at h
  split at h
  · exact Or.inr ⟨.timer, rfl, settle_fault.mp h⟩
  · rename_i call hp
    refine Or.inr ⟨.call call, rfl, ?_⟩
    cases call with
    | spawn entryPoint =>
      simp only [beginCall] at h
      split at h <;> cases h
    | getQuantums tid =>
      rcases checkValidTid_cases m.lib tid with ⟨r, hr⟩ | ⟨_, e, he⟩
      · simp only [beginCall, checkValidTid_ok hr] at h
        cases h
      · simp only [beginCall, he] at h
        cases h
    | _ => exact settle_fault.mp h
  · cases h
  · rename_i p hp
    obtain ⟨e, he⟩ := (act_faults_iff hi).mp ⟨f, settle_fault.mp h⟩
    exact Or.inl ⟨rfl, c, p, e, hc, hp, he⟩
  · cases h

theorem staleCheck_faults (hi : Invariant m.lib) (h : StaleCheck (uthreads remains) m a) :
    ∃ f, windowStep (uthreads remains) m a = .error (.fault f) := by
  obtain ⟨rfl, c, p, e, hc, hp, he⟩ := h
  obtain ⟨f, hf⟩ := (act_faults_iff hi).mpr ⟨e, he⟩
  exact ⟨f, by simp only [windowStep, hc, hp, hf, settle]⟩

/-- Every interleaving of accepted steps is a run with atomic calls: those that took effect, in
that order, with the results their callers got. Each thread's calls take effect in the order it
made them, and at most the last one has not yet. And the next step faults only where the
library with atomic calls does, or by acting on a stale check. -/
theorem calls_linearize (h : Exec (windowStep (uthreads remains)) machine tr m) :
    Runs remains ((linear (uthreads remains) machine tr).map Prod.snd) m.lib ∧
      (linear (uthreads remains) machine tr).map (fun y => y.2.2) = tr.filterMap Prod.snd ∧
      (∀ r, (begun (uthreads remains) machine tr).filterMap (begunBy r) =
        (linear (uthreads remains) machine tr).filterMap (callsOf r) ++
          ((m.pending r).map windowCall).toList) ∧
      (∀ a f, windowStep (uthreads remains) m a = .error (.fault f) →
        StaleCheck (uthreads remains) m a ∨
          ∃ e, wholeEvent a = some e ∧ step (uthreads remains) m.lib e = .error f) ∧
      ∀ a, StaleCheck (uthreads remains) m a →
        ∃ f, windowStep (uthreads remains) m a = .error (.fault f) := by
  have hruns : Runs remains ((linear (uthreads remains) machine tr).map Prod.snd) m.lib := by
    rw [← List.filterMap_eq_map, linear, h.collect_filterMap]
    refine h.takes_effect (I := fun m => Invariant m.lib) Machine.lib initial_invariant ?_
    intro m a x m' hi hs
    obtain ⟨hskip, htake⟩ := step_takes_effect hi hs
    cases hy : takesEffect m a x with
    | none =>
      have hsame := hskip hy
      exact ⟨by rwa [hsame], fun _ => hsame, fun y hy' => by cases hy'⟩
    | some y =>
      have hstep := htake y hy
      refine ⟨step_preserves_invariant hi hstep, fun hnone => (by cases hnone), fun z hz => ?_⟩
      cases hz
      exact hstep
  have hi := reachable_invariant hruns
  exact ⟨hruns, run_answers h, fun r => run_program_order h r,
    fun _ _ hf => windowStep_faults hi hf, fun _ hstale => staleCheck_faults hi hstale⟩

/-- Main is preempted in the window of a spawn, and thread 1 spawns in between; then main is
about to read the quantums of a thread that thread 2 has terminated. -/
theorem calls_linearize_two_spawns :
    let as : List Action := [.begin (.spawn (some 7)), .act, .begin (.spawn (some 8)), .timer,
      .begin (.spawn (some 9)), .act, .timer, .act, .begin (.getQuantums 1), .timer,
      .begin (.terminate 1), .timer, .timer]
    let tr := trace (windowStep (uthreads freedRecord)) machine as
    let m := final (windowStep (uthreads freedRecord)) machine as
    Runs freedRecord ((linear (uthreads freedRecord) machine tr).map Prod.snd) m.lib ∧
      (linear (uthreads freedRecord) machine tr).map (fun y => y.2.2) =
        tr.filterMap Prod.snd ∧
      (∀ r, (begun (uthreads freedRecord) machine tr).filterMap (begunBy r) =
        (linear (uthreads freedRecord) machine tr).filterMap (callsOf r) ++
          ((m.pending r).map windowCall).toList) ∧
      ∃ f, windowStep (uthreads freedRecord) m .act = .error (.fault f) := by
  intro as tr m
  have hexec : Exec (windowStep (uthreads freedRecord)) machine tr m :=
    exec_trace (by decide +kernel)
  obtain ⟨hruns, hanswers, horder, _, hstale⟩ := calls_linearize hexec
  have hcheck : checkValidTid 1 m.lib = .ok (some .emptyCell) := by decide +kernel
  refine ⟨hruns, hanswers, horder, hstale .act ⟨rfl, 0, .getQuantums 1, .emptyCell,
    by decide +kernel, by decide +kernel, ?_⟩⟩
  simp only [step, windowCall, request, uthreadGetQuantums_invalid hcheck, ok_bind, pure_ok]

end Linearization
