import Uthreads.IntervalTimer
import Uthreads.QuantumAccounting

/-! # Quantums in time

The library with the interval timer of its process. User code and calls take CPU time, an
expiry raises SIGVTALRM, and the kernel delivers the signal before any further user code
unless it is masked. When the timer expires is up to the kernel. -/
namespace QuantumTimer

open ThreadLibrary SwitchSemantics CallEffects EventRuns ThreadInvariant IntervalTimer
  QuantumAccounting

abbrev usecInSec : ℤ := 1000000

/-- The library, the timer of the process, and the global `timer`. -/
structure Process where
  lib : State
  kernel : Timer
  timer : Setting

/-- The result of `setitimer` is not looked at by any caller of `launchTimer`. -/
def Process.launchTimer (K : Kernel) (p : Process) : Process :=
  { p with kernel := (setTimer K p.timer p.kernel).getD p.kernel }

def Process.initTimer (K : Kernel) (quantumUsecs : ℤ) (p : Process) : Process :=
  let sec := quantumUsecs.tdiv usecInSec
  let usec := quantumUsecs.tmod usecInSec
  Process.launchTimer K { p with timer := ⟨⟨sec, usec⟩, ⟨sec, usec⟩⟩ }

def Process.init (K : Kernel) (quantumUsecs : ℤ) (p : Process) :
    Except Fault (Outcome × Process) := do
  let (o, s) ← uthreadInit quantumUsecs p.lib
  match o with
  | .failed _ => return (o, { p with lib := s })
  | _ => return (o, { p.initTimer K quantumUsecs with lib := s })

/-- Before the first call the timer is off. -/
def boot : Process := ⟨programStart, off, ⟨⟨0, 0⟩, ⟨0, 0⟩⟩⟩

def quantum (q : ℕ) : Setting :=
  ⟨⟨q / 1000000, q % 1000000⟩, ⟨q / 1000000, q % 1000000⟩⟩

/-- The timer as `launchTimer` leaves it. -/
def launched (K : Kernel) (q : ℕ) (k : Timer) : Timer :=
  ⟨k.settings + 1, quantum q, 0, K.wait (k.settings + 1) (quantum q) 0, k.pending⟩

/-- After `uthread_init` with this quantum. -/
def started (K : Kernel) (q : ℕ) : Process := ⟨initial, launched K q off, quantum q⟩

/-- `before` and `after` are the times that a call takes with SIGVTALRM masked, until it
launches the timer and from then on; both count where it does not launch it. Where a call
does not mask the signal its time is that of user code. -/
inductive TimedEvent where
  | work
  | call (c : Call) (before after : ℕ)
  | signal (spent : ℕ)
  deriving DecidableEq, Repr

def TimedEvent.duration : TimedEvent → ℕ
  | .work => 1
  | .call _ before after => before + after
  | .signal spent => spent

/-- The three getters do not mask the signal, and `uthread_spawn` only after its checks. -/
def masks : Call → Outcome → Bool
  | .getTid, _ | .getTotalQuantums, _ | .getQuantums _, _ => false
  | .spawn _, .failed _ => false
  | _, _ => true

inductive Refusal where
  | fault (f : Fault)
  | signalDue
  | noSignal
  | notMasked
  deriving DecidableEq, Repr

/-- The signal is pending and not masked. -/
def Process.Due (p : Process) : Prop := p.kernel.pending = true ∧ p.lib.masked = false

instance (p : Process) : Decidable p.Due := inferInstanceAs (Decidable (_ ∧ _))

/-- An expiry inside the masked part of a call is delivered when the call is over. -/
def timedStep (K : Kernel) (V : Variant) (p : Process) :
    TimedEvent → Except Refusal (Option Outcome × Process)
  | .work =>
    if p.Due then .error .signalDue else .ok (none, { p with kernel := tick K p.kernel })
  | .call c before after =>
    if p.Due then .error .signalDue
    else
      match request V p.lib c with
      | .error f => .error (.fault f)
      | .ok (.returns o s) =>
        if masks c o = true ∨ before + after = 0 then
          .ok (some o, { p with lib := s, kernel := elapse K (before + after) p.kernel })
        else .error .notMasked
      | .ok (.switches ctx s) =>
        match switchThread V ctx s with
        | .error f => .error (.fault f)
        | .ok (o, s) =>
          let p := Process.launchTimer K { p with kernel := elapse K before p.kernel }
          .ok (some o, { p with lib := s, kernel := elapse K after p.kernel })
  | .signal spent =>
    if p.Due then
      match switchThread V .signalHandler p.lib with
      | .error f => .error (.fault f)
      | .ok (o, s) =>
        .ok (some o, { p with lib := s, kernel := elapse K spent (deliver p.kernel) })
    else .error .noSignal

/-- What the step relation of the library sees of a timed event. -/
def seen : TimedEvent × Option Outcome → Option (Event × Outcome)
  | (.call c _ _, some o) => some (.call c, o)
  | (.signal _, some o) => some (.timer, o)
  | _ => none

variable {remains : ThreadRef → Thread → Thread} {K : Kernel} {V : Variant} {p p' : Process}
  {e : TimedEvent} {o : Option Outcome} {q slack : ℕ} {T : List (TimedEvent × Option Outcome)}
  {tr : List (Event × Outcome)} {s : State}

/-- The two parts are valid and lose nothing. -/
theorem quantum_parts (q : ℕ) :
    (TimeVal.mk (q / 1000000) (q % 1000000)).Valid ∧
      (TimeVal.mk (q / 1000000) (q % 1000000)).micros = q := by
  simp only [TimeVal.Valid, TimeVal.micros, microsPerSec]
  omega

@[simp] theorem quantum_value (q : ℕ) : (quantum q).value.micros = q := (quantum_parts q).2

@[simp] theorem quantum_interval (q : ℕ) : (quantum q).interval.micros = q := (quantum_parts q).2

theorem quantum_periodic (h : 0 < q) : (quantum q).Periodic := by
  simp only [Setting.Periodic, quantum_value, quantum_interval]
  omega

theorem setTimer_quantum (h : 0 < q) (k : Timer) :
    setTimer K (quantum q) k = some (launched K q k) :=
  setTimer_periodic (quantum_parts q).1 (quantum_parts q).1 (quantum_periodic h) k

theorem init_started (h : 0 < q) : boot.init K q = .ok (.returned 0, started K q) := by
  have hinit : uthreadInit (q : ℤ) programStart = .ok (.returned 0, initial) :=
    uthreadInit_initial (by omega)
  have hset := setTimer_quantum (K := K) h off
  have htimer : Process.initTimer K q boot = ⟨programStart, launched K q off, quantum q⟩ := by
    simp only [Process.initTimer, Process.launchTimer, usecInSec,
      Int.tdiv_eq_ediv_of_nonneg (Int.natCast_nonneg q),
      Int.tmod_eq_emod_of_nonneg (Int.natCast_nonneg q)]
    change Process.mk _ ((setTimer K (quantum q) off).getD off) _ = _
    rw [hset]
    rfl
  simp only [Process.init]
  rw [show boot.lib = programStart from rfl, hinit, ok_bind, htimer]
  rfl

theorem launched_ticking (h : 0 < q) (k : Timer) : Ticking K (launched K q k) :=
  ⟨K.wait_pos _ _ _, le_rfl, quantum_periodic h⟩

inductive TimedEffect (K : Kernel) (V : Variant) (p : Process) :
    TimedEvent → Option Outcome → Process → Prop where
  | work : ¬ p.Due → TimedEffect K V p .work none { p with kernel := tick K p.kernel }
  | returned {c before after o s} : ¬ p.Due → request V p.lib c = .ok (.returns o s) →
      masks c o = true ∨ before + after = 0 →
      TimedEffect K V p (.call c before after) (some o)
        { p with lib := s, kernel := elapse K (before + after) p.kernel }
  | switched {c before after ctx s o t} : ¬ p.Due → request V p.lib c = .ok (.switches ctx s) →
      switchThread V ctx s = .ok (o, t) →
      TimedEffect K V p (.call c before after) (some o)
        { p with
          lib := t
          kernel := elapse K after
            ((setTimer K p.timer (elapse K before p.kernel)).getD (elapse K before p.kernel)) }
  | signalled {spent o t} : p.Due → switchThread V .signalHandler p.lib = .ok (o, t) →
      TimedEffect K V p (.signal spent) (some o)
        { p with lib := t, kernel := elapse K spent (deliver p.kernel) }

theorem timedStep_effect (h : timedStep K V p e = .ok (o, p')) : TimedEffect K V p e o p' := by
  cases e with
  | work =>
    simp only [timedStep] at h
    split at h
    · cases h
    · rename_i hdue
      cases h
      exact .work hdue
  | call c before after =>
    simp only [timedStep] at h
    split at h
    · cases h
    · rename_i hdue
      split at h
      · cases h
      · rename_i hr
        split at h
        · rename_i hmasks
          cases h
          exact .returned hdue hr hmasks
        · cases h
      · rename_i hr
        split at h
        · cases h
        · rename_i hs
          cases h
          exact .switched hdue hr hs
  | signal spent =>
    simp only [timedStep] at h
    split at h
    · rename_i hdue
      split at h
      · cases h
      · rename_i hs
        cases h
        exact .signalled hdue hs
    · cases h

theorem timedStep_contains (K : Kernel) (V : Variant) :
    Contains (step V) (timedStep K V) Process.lib seen := by
  intro p e o p' h
  cases timedStep_effect h with
  | work => exact ⟨fun _ => rfl, fun x hx => by cases hx⟩
  | returned _ hr =>
    refine ⟨fun hx => (by cases hx), fun x hx => ?_⟩
    obtain rfl := Option.some.inj hx
    simp only [step, hr, ok_bind, pure_ok]
  | switched _ hr hs =>
    refine ⟨fun hx => (by cases hx), fun x hx => ?_⟩
    obtain rfl := Option.some.inj hx
    simp only [step, hr, ok_bind, hs]
  | signalled hdue hs =>
    refine ⟨fun hx => (by cases hx), fun x hx => ?_⟩
    obtain rfl := Option.some.inj hx
    simp only [step, hdue.2, Bool.false_eq_true, if_false, hs]

/-- The times that calls and the signal handler take. -/
structure Costs where
  call : Call → ℕ × ℕ
  signal : ℕ

def Costs.of (d : Costs) : Event → Outcome → ℕ × ℕ
  | .call c, o => if masks c o then d.call c else (0, 0)
  | .timer, _ => (0, d.signal)

def Costs.total (d : Costs) (tr : List (Event × Outcome)) : ℕ :=
  (tr.map fun x => (d.of x.1 x.2).1 + (d.of x.1 x.2).2).sum

/-- The calls and signals of a timed run take the times that `d` says. -/
def Costs.Charged (d : Costs) : TimedEvent × Option Outcome → Prop
  | (.call c before after, some o) => (before, after) = d.of (.call c) o
  | (.signal spent, _) => spent = d.signal
  | _ => True

/-- Between two events the timer is on and no signal is pending. -/
structure Settled (K : Kernel) (q : ℕ) (p : Process) : Prop where
  ticking : Ticking K p.kernel
  setting : p.kernel.setting = quantum q
  timer : p.timer = quantum q
  quiet : p.kernel.pending = false

theorem Settled.not_due (h : Settled K q p) : ¬ p.Due := by
  rintro ⟨hpending, _⟩
  rw [h.quiet] at hpending
  cases hpending

/-- User code up to the next expiry. -/
theorem work_run (h : p.kernel.pending = false) {n : ℕ} (hn : n ≤ p.kernel.remaining) :
    Exec (timedStep K V) p (List.replicate n (.work, none))
      { p with kernel := elapse K n p.kernel } := by
  induction n with
  | zero => exact .nil p
  | succ n ih =>
    have hdue : ¬ Process.Due { p with kernel := elapse K n p.kernel } := by
      rintro ⟨hpending, _⟩
      rw [elapse_of_lt (by omega)] at hpending
      cases h.symm.trans hpending
    rw [List.replicate_succ', elapse_succ]
    exact (ih (by omega)).append (.single (if_neg hdue))

/-- A call that is over before the timer expires. -/
theorem timed_call (hq : 0 < q) (h : Settled K q p) (d : Costs) {rest : ℕ} {c : Call}
    {o : Outcome} (hs : step V p.lib (.call c) = .ok (o, s))
    (hrest : (d.of (.call c) o).1 + (d.of (.call c) o).2 + rest < p.kernel.remaining)
    (hwait : ∀ l, (d.of (.call c) o).1 + (d.of (.call c) o).2 + rest < K.wait l (quantum q) 0) :
    ∃ p', timedStep K V p (.call c (d.of (.call c) o).1 (d.of (.call c) o).2) =
        .ok (some o, p') ∧ p'.lib = s ∧ Settled K q p' ∧ rest < p'.kernel.remaining := by
  cases hr : request V p.lib c with
  | error f =>
    simp only [step, hr, error_bind] at hs
    cases hs
  | ok r =>
    cases r with
    | returns o' t =>
      simp only [step, hr, ok_bind, pure_ok] at hs
      cases hs
      have hmasks : masks c o = true ∨ (d.of (.call c) o).1 + (d.of (.call c) o).2 = 0 := by
        cases hm : masks c o with
        | true => exact Or.inl rfl
        | false => exact Or.inr (by simp [Costs.of, hm])
      have helapse := elapse_of_lt (K := K) (k := p.kernel)
        (n := (d.of (.call c) o).1 + (d.of (.call c) o).2) (by omega)
      refine ⟨{ p with
          lib := s
          kernel := elapse K ((d.of (.call c) o).1 + (d.of (.call c) o).2) p.kernel },
        ?_, rfl, ⟨elapse_ticking h.ticking _, (elapse_setting _ _).trans h.setting, h.timer, ?_⟩,
        ?_⟩
      · simp only [timedStep, if_neg h.not_due, hr, if_pos hmasks]
      · rw [helapse]
        exact h.quiet
      · rw [helapse]
        exact Nat.lt_sub_of_add_lt (by omega)
    | switches ctx t =>
      simp only [step, hr, ok_bind] at hs
      have hset : setTimer K p.timer (elapse K (d.of (.call c) o).1 p.kernel) =
          some (launched K q (elapse K (d.of (.call c) o).1 p.kernel)) := by
        rw [h.timer]
        exact setTimer_quantum hq _
      have hbefore := elapse_of_lt (K := K) (k := p.kernel) (n := (d.of (.call c) o).1)
        (by omega)
      have hfirst := hwait (p.kernel.settings + 1)
      have hafter := elapse_of_lt (K := K) (n := (d.of (.call c) o).2)
        (k := launched K q (elapse K (d.of (.call c) o).1 p.kernel))
        (by rw [hbefore]; simp only [launched]; omega)
      refine ⟨{ p with
          lib := s
          kernel := elapse K (d.of (.call c) o).2
            (launched K q (elapse K (d.of (.call c) o).1 p.kernel)) },
        ?_, rfl, ⟨elapse_ticking (launched_ticking hq _) _, elapse_setting _ _, h.timer, ?_⟩, ?_⟩
      · simp only [timedStep, if_neg h.not_due, hr, hs, Process.launchTimer, hset,
          Option.getD_some]
      · rw [hafter, hbefore]
        exact h.quiet
      · rw [hafter, hbefore]
        simp only [launched]
        omega

/-- The timer event of the library is an expiry of the timer. -/
theorem timed_timer (h : Settled K q p) {o : Outcome} {spent rest : ℕ}
    (hs : step V p.lib .timer = .ok (o, s))
    (hwait : ∀ l n, spent + rest < K.wait l (quantum q) n) :
    ∃ p', Exec (timedStep K V) p
        (List.replicate p.kernel.remaining (.work, none) ++ [(.signal spent, some o)]) p' ∧
      p'.lib = s ∧ Settled K q p' ∧ rest < p'.kernel.remaining := by
  have hwork := work_run (K := K) (V := V) h.quiet le_rfl
  rw [elapse_remaining h.ticking.remaining_pos] at hwork
  have hticking := deliver_ticking (expire_ticking h.ticking)
  have hremaining : spent + rest < (deliver (expire K p.kernel)).remaining := by
    rw [deliver_remaining, expire_remaining h.ticking.periodic, h.setting]
    exact hwait _ _
  cases hm : p.lib.masked with
  | true =>
    simp only [step, hm, if_true] at hs
    cases hs
  | false =>
    simp only [step, hm, Bool.false_eq_true, if_false] at hs
    refine ⟨{ p with lib := s, kernel := elapse K spent (deliver (expire K p.kernel)) },
      hwork.append (.single ?_), rfl, ⟨elapse_ticking hticking _, ?_, h.timer, ?_⟩, ?_⟩
    · simp only [timedStep]
      rw [if_pos ⟨rfl, hm⟩, hs]
    · exact (elapse_setting _ _).trans h.setting
    · rw [elapse_of_lt (by omega)]
      rfl
    · rw [elapse_of_lt (by omega)]
      exact Nat.lt_sub_of_add_lt (by omega)

theorem timed_step (hq : 0 < q) (h : Settled K q p) (d : Costs) {e : Event} {o : Outcome}
    {rest : ℕ} (hs : step V p.lib e = .ok (o, s))
    (hrest : (d.of e o).1 + (d.of e o).2 + rest < p.kernel.remaining)
    (hwait : ∀ l n, (d.of e o).1 + (d.of e o).2 + rest < K.wait l (quantum q) n) :
    ∃ T p', Exec (timedStep K V) p T p' ∧ (∀ x ∈ T, d.Charged x) ∧
      T.filterMap seen = [(e, o)] ∧ p'.lib = s ∧ Settled K q p' ∧ rest < p'.kernel.remaining := by
  cases e with
  | call c =>
    obtain ⟨p', hstep, hlib, hsettled, hlt⟩ := timed_call hq h d hs hrest fun l => hwait l 0
    refine ⟨_, p', .single hstep, fun x hx => ?_, rfl, hlib, hsettled, hlt⟩
    rw [List.mem_singleton.mp hx]
    exact rfl
  | timer =>
    have hspent : ∀ l n, d.signal + rest < K.wait l (quantum q) n := by
      simpa only [Costs.of, Nat.zero_add] using hwait
    obtain ⟨p', hrun, hlib, hsettled, hlt⟩ := timed_timer h hs hspent
    refine ⟨_, p', hrun, fun x hx => ?_, ?_, hlib, hsettled, hlt⟩
    · rcases List.mem_append.mp hx with hx | hx
      · rw [List.eq_of_mem_replicate hx]
        trivial
      · rw [List.mem_singleton.mp hx]
        exact rfl
    · have hwork : (List.replicate p.kernel.remaining (TimedEvent.work, none)).filterMap seen =
          [] := by
        refine List.filterMap_eq_nil_iff.mpr fun x hx => ?_
        rw [List.eq_of_mem_replicate hx]
        rfl
      rw [List.filterMap_append, hwork]
      rfl

/-- The timer event that may come between any two calls is exactly what a timer can do,
whatever the quantum is: a timed run is a run of the library, whatever its calls take, and a
run of the library can be timed with any calls that together take less than the time between
two expiries. -/
theorem runs_iff_timed (hq : 0 < q) (d : Costs) :
    (∀ T p, Exec (timedStep K (uthreads remains)) (started K q) T p →
      Runs remains (T.filterMap seen) p.lib) ∧
    ((∀ l n, d.total tr < K.wait l (quantum q) n) → Runs remains tr s →
      ∃ T p, Exec (timedStep K (uthreads remains)) (started K q) T p ∧
        (∀ x ∈ T, d.Charged x) ∧ T.filterMap seen = tr ∧ p.lib = s) := by
  refine ⟨fun T p hexec => hexec.project (timedStep_contains K (uthreads remains)),
    fun hwait hrun => ?_⟩
  -- what is left of the time up to the next expiry covers what is left of the calls
  refine hrun.realise Process.lib seen (w := started K q)
    (I := fun rest p => Settled K q p ∧ d.total rest < p.kernel.remaining ∧
      d.total rest ≤ d.total tr) rfl
    ⟨⟨launched_ticking hq off, rfl, rfl, rfl⟩, hwait _ _, le_rfl⟩ ?_
  intro p e o rest t ⟨hsettled, hremaining, hle⟩ hs
  have htotal : d.total ((e, o) :: rest) = (d.of e o).1 + (d.of e o).2 + d.total rest :=
    List.sum_cons
  rw [htotal] at hremaining hle
  obtain ⟨T, p', hexec, hcharged, hseen, hlib, hsettled', hlt⟩ :=
    timed_step hq hsettled d hs hremaining fun l n => hle.trans_lt (hwait l n)
  exact ⟨T, p', hexec, hcharged, hseen, hlib, hsettled', hlt, by omega⟩

/-- A thread that blocks itself and one that the timer preempts, in quanta of 3 under a clock
of 4; the call that blocks takes 2 until it launches the timer. -/
theorem runs_iff_timed_coarse :
    let K := coarse 4 (by decide)
    let es : List Event := [.call (.spawn (some 7)), .timer, .call (.block 1), .timer]
    let d : Costs := ⟨fun c => if c = .block 1 then (2, 1) else (0, 0), 0⟩
    ∃ T p, Exec (timedStep K (uthreads freedRecord)) (started K 3) T p ∧
      (∀ x ∈ T, d.Charged x) ∧ T.filterMap seen = history freedRecord initial es ∧
      p.lib = after freedRecord initial es := by
  intro K es d
  have htotal : d.total (history freedRecord initial es) = 3 := by decide +kernel
  refine (runs_iff_timed (by decide) d).2 (fun l n => ?_)
    (runs_history freedRecord es (by decide +kernel))
  rw [htotal]
  exact Nat.lt_of_lt_of_le (by decide) (le_max_left 4 _)

end QuantumTimer
