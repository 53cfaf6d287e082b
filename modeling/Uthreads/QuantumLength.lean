import Uthreads.QuantumTimer
import Uthreads.StarvationFreedom

/-! # How long a quantum lasts

The CPU time of a quantum, from below by the promise that the timer is never early and from
above by how late it may be, and what follows for the thread that waits in the queue. -/
namespace QuantumLength

open ThreadLibrary SwitchSemantics CallEffects EventRuns ThreadInvariant IntervalTimer
  QuantumAccounting StarvationFreedom LazyQueue QuantumTimer

variable {remains : ThreadRef → Thread → Thread} {K : Kernel} {V : Variant} {p p' : Process}
  {e : TimedEvent} {o : Option Outcome} {q slack : ℕ} {T : List (TimedEvent × Option Outcome)}
  {s : State}

/-- CPU time of the current quantum and since the timer was last launched, and the signals
since then. -/
structure Clock where
  quantum : ℕ
  launch : ℕ
  signals : ℕ
  deriving DecidableEq, Repr

/-- A call that switches starts the next quantum when it launches the timer, a signal when
it is delivered. -/
def Clock.after : Clock → TimedEvent × Option Outcome → Clock
  | c, (.work, _) => ⟨c.quantum + 1, c.launch + 1, c.signals⟩
  | _, (.call _ _ after, some (.dispatched _ _)) => ⟨after, after, 0⟩
  | c, (.call _ before after, _) =>
    ⟨c.quantum + (before + after), c.launch + (before + after), c.signals⟩
  | c, (.signal spent, _) => ⟨spent, c.launch + spent, c.signals + 1⟩

def clock (T : List (TimedEvent × Option Outcome)) : Clock := T.foldl Clock.after ⟨0, 0, 0⟩

def cpuTime (T : List (TimedEvent × Option Outcome)) : ℕ := (T.map fun x => x.1.duration).sum

@[simp] theorem clock_append (T : List (TimedEvent × Option Outcome))
    (x : TimedEvent × Option Outcome) : clock (T ++ [x]) = (clock T).after x := by
  rw [clock, List.foldl_append]
  rfl

/-- The quantum that has lasted for `t` in `p` ends by the timer, and not too late. -/
structure Accounted (K : Kernel) (q slack t : ℕ) (p : Process) : Prop where
  ticking : Ticking K p.kernel
  setting : p.kernel.setting = quantum q
  timer : p.timer = quantum q
  within : p.kernel.pending = false → t + p.kernel.remaining ≤ q + slack

theorem request_returns (hi : Invariant s) {c : Call} {o : Outcome} {t : State}
    (h : request (uthreads remains) s c = .ok (.returns o t)) (next : ThreadRef)
    (v : Option ℤ) : o ≠ .dispatched next v := by
  obtain ⟨d, hd, hlive⟩ := hi.current_live
  rcases request_cases remains hi.toTable hd hlive c with
    ⟨o', t', hr, hq⟩ | ⟨ctx, s', hr, _⟩ | ⟨f, hr, _⟩
  · cases hr.symm.trans h
    exact hq.returns next v
  · cases hr.symm.trans h
  · cases hr.symm.trans h

theorem request_switches (hi : Invariant s) {c : Call} {ctx : Context} {o : Outcome}
    {t u : State} (h : request (uthreads remains) s c = .ok (.switches ctx t))
    (hs : switchThread (uthreads remains) ctx t = .ok (o, u)) :
    ∃ next v, o = .dispatched next v := by
  have hstep : step (uthreads remains) s (.call c) = .ok (o, u) := by
    simp only [step, h, ok_bind, hs]
  cases step_effect hi hstep with
  | switch => exact ⟨_, _, rfl⟩
  | quiet =>
    obtain ⟨d, hd, hlive⟩ := hi.current_live
    rcases request_cases remains hi.toTable hd hlive c with
      ⟨o', t', hr, _⟩ | ⟨ctx', s', hr, he⟩ | ⟨f, hr, _⟩
    · cases hr.symm.trans h
    · cases hr.symm.trans h
      obtain ⟨hcons, _, _, _, henv⟩ := enters_consistent hi he
      obtain ⟨next, v, ho, _⟩ :=
        switchThread_switch (enters_curRunning he) hcons.distinct henv hs
      exact ⟨next, v, ho⟩
    · cases hr.symm.trans h

theorem after_returned (hi : Invariant s) {c : Call} {o : Outcome} {t : State}
    (h : request (uthreads remains) s c = .ok (.returns o t)) (k : Clock) (before after : ℕ) :
    k.after (.call c before after, some o) =
      ⟨k.quantum + (before + after), k.launch + (before + after), k.signals⟩ := by
  have hreturns := request_returns hi h
  cases o with
  | dispatched next v => exact (hreturns next v rfl).elim
  | _ => rfl

theorem after_switched (hi : Invariant s) {c : Call} {ctx : Context} {o : Outcome}
    {t u : State} (h : request (uthreads remains) s c = .ok (.switches ctx t))
    (hs : switchThread (uthreads remains) ctx t = .ok (o, u)) (k : Clock) (before after : ℕ) :
    k.after (.call c before after, some o) = ⟨after, after, 0⟩ := by
  obtain ⟨next, v, rfl⟩ := request_switches hi h hs
  rfl

/-- What `launchTimer` leaves in the kernel. -/
theorem relaunched (hq : 0 < q) (h : p.timer = quantum q) (k : Timer) :
    (setTimer K p.timer k).getD k = launched K q k := by
  rw [h, setTimer_quantum hq]
  rfl

theorem wait_le (hq : 0 < q) (h : K.Prompt slack) (l n : ℕ) :
    K.wait l (quantum q) n ≤ q + slack := by
  obtain ⟨hfirst, hnext⟩ := h l _ (quantum_periodic hq)
  simp only [quantum_value, quantum_interval] at hfirst hnext
  cases n with
  | zero => omega
  | succ n =>
    have := hnext n
    omega

theorem Accounted.remaining_le {t : ℕ} (hq : 0 < q) (hK : K.Prompt slack)
    (h : Accounted K q slack t p) : p.kernel.remaining ≤ q + slack := by
  refine h.ticking.remaining_le.trans ?_
  rw [h.setting]
  exact wait_le hq hK _ _

theorem accounted_step (hq : 0 < q) (hK : K.Prompt slack) {k : Clock} (hi : Invariant p.lib)
    (h : Accounted K q slack k.quantum p)
    (hs : timedStep K (uthreads remains) p e = .ok (o, p')) :
    Accounted K q slack (k.after (e, o)).quantum p' := by
  cases timedStep_effect hs with
  | work hdue =>
    refine ⟨tick_ticking h.ticking, (tick_setting _).trans h.setting, h.timer, fun hp => ?_⟩
    obtain ⟨hquiet, hlt⟩ := elapse_quiet (n := 1) h.ticking hp
    have hrest : (tick K p.kernel).remaining = p.kernel.remaining - 1 := by rw [tick_of_lt hlt]
    have := h.within hquiet
    simp only [Clock.after, hrest]
    omega
  | @returned c before after o s hdue hr =>
    refine ⟨elapse_ticking h.ticking _, (elapse_setting _ _).trans h.setting, h.timer,
      fun hp => ?_⟩
    obtain ⟨hquiet, hlt⟩ := elapse_quiet h.ticking hp
    have := h.within hquiet
    simp only [after_returned hi hr, elapse_of_lt hlt]
    omega
  | @switched c before after ctx s o u hdue hr hsw =>
    rw [relaunched hq h.timer, after_switched hi hr hsw]
    have hticking := launched_ticking (K := K) hq (elapse K before p.kernel)
    refine ⟨elapse_ticking hticking _, elapse_setting _ _, h.timer, fun hp => ?_⟩
    obtain ⟨_, hlt⟩ := elapse_quiet hticking hp
    have hwait := wait_le hq hK ((elapse K before p.kernel).settings + 1) 0
    simp only [launched] at hlt
    rw [elapse_of_lt (by exact hlt)]
    simp only [launched]
    omega
  | @signalled spent o u hdue hsw =>
    have hticking := deliver_ticking h.ticking
    refine ⟨elapse_ticking hticking _, (elapse_setting _ _).trans h.setting, h.timer,
      fun hp => ?_⟩
    obtain ⟨_, hlt⟩ := elapse_quiet hticking hp
    have := h.remaining_le hq hK
    simp only [Clock.after, elapse_of_lt hlt, deliver_remaining] at hlt ⊢
    omega

theorem started_accounted (hq : 0 < q) (hK : K.Prompt slack) :
    Accounted K q slack 0 (started K q) :=
  ⟨launched_ticking hq off, rfl, rfl, fun _ => (Nat.zero_add _).trans_le (wait_le hq hK _ _)⟩

theorem timedStep_invariant (hi : Invariant p.lib)
    (hs : timedStep K (uthreads remains) p e = .ok (o, p')) : Invariant p'.lib :=
  ((Exec.single hs).project (timedStep_contains K (uthreads remains))).invariant hi
    fun _ _ _ _ => step_preserves_invariant

theorem timed_invariant (h : Exec (timedStep K (uthreads remains)) (started K q) T p) :
    Invariant p.lib :=
  reachable_invariant (h.project (timedStep_contains K (uthreads remains)))

theorem timed_accounted (hq : 0 < q) (hK : K.Prompt slack)
    (h : Exec (timedStep K (uthreads remains)) (started K q) T p) :
    Accounted K q slack (clock T).quantum p := by
  have := h.history (I := fun T p => Invariant p.lib ∧ Accounted K q slack (clock T).quantum p)
    ⟨initial_invariant, started_accounted hq hK⟩ ?_
  · exact this.2
  · intro T p e o p' ⟨hi, ha⟩ hs
    rw [clock_append]
    exact ⟨timedStep_invariant hi hs, accounted_step hq hK hi ha hs⟩

/-- Past the end of its quantum a thread runs user code and begins calls only while SIGVTALRM
is masked, whatever the calls take and whenever the timer expired. -/
theorem overruns_only_masked (hq : 0 < q) (hK : K.Prompt slack)
    {pre post : List (TimedEvent × Option Outcome)}
    (h : Exec (timedStep K (uthreads remains)) (started K q) (pre ++ (e, o) :: post) p)
    (he : ∀ spent, e ≠ .signal spent) :
    ∃ w, Exec (timedStep K (uthreads remains)) (started K q) pre w ∧
      ((clock pre).quantum < q + slack ∨ w.lib.masked = true) := by
  obtain ⟨w, hpre, hrest⟩ := h.split
  obtain ⟨u, hs, _⟩ := hrest.cons_inv
  refine ⟨w, hpre, ?_⟩
  have ha := timed_accounted hq hK hpre
  have hpos := ha.ticking.remaining_pos
  cases hpending : w.kernel.pending with
  | false =>
    have := ha.within hpending
    exact Or.inl (by omega)
  | true =>
    cases hm : w.lib.masked with
    | true => exact Or.inr rfl
    | false =>
      have hdue : w.Due := ⟨hpending, hm⟩
      cases timedStep_effect hs with
      | work hnot => exact (hnot hdue).elim
      | returned hnot => exact (hnot hdue).elim
      | switched hnot => exact (hnot hdue).elim
      | signalled => exact (he _ rfl).elim

/-- After a refused call the quantum of 1, under a clock of 2, goes on for as long as there is
no other call that switches. -/
theorem overruns_only_masked_refused :
    let K := coarse 2 (by decide)
    let es : List TimedEvent := [.call (.block 0) 0 0, .work, .work, .work, .call .getTid 0 0]
    ∃ pre w, trace (timedStep K (uthreads freedRecord)) (started K 1) es =
        pre ++ [(.call .getTid 0 0, some (.returned 0))] ∧ (clock pre).quantum = 3 ∧
      Exec (timedStep K (uthreads freedRecord)) (started K 1) pre w ∧
      ((clock pre).quantum < 1 + 2 ∨ w.lib.masked = true) := by
  intro K es
  have htrace : trace (timedStep K (uthreads freedRecord)) (started K 1) es =
      [(.call (.block 0) 0 0, some (.failed .blockMain)), (.work, none), (.work, none),
        (.work, none)] ++ [(.call .getTid 0 0, some (.returned 0))] := by decide +kernel
  have hexec : Exec (timedStep K (uthreads freedRecord)) (started K 1)
      (trace (timedStep K (uthreads freedRecord)) (started K 1) es) _ :=
    exec_trace (by decide +kernel)
  rw [htrace] at hexec
  obtain ⟨w, hw⟩ := overruns_only_masked (by decide) (coarse_prompt (by decide)) hexec
    fun _ => nofun
  exact ⟨_, w, htrace, rfl, hw⟩

/-- The call hands the processor over, and launches the timer before. -/
def relaunches (V : Variant) (s : State) (c : Call) : Bool :=
  match request V s c with
  | .ok (.switches _ _) => true
  | _ => false

/-- The timer does not expire while SIGVTALRM is masked. -/
def Undisturbed (K : Kernel) (V : Variant) (p : Process) : TimedEvent → Prop
  | .work => p.lib.masked = true → 1 < p.kernel.remaining
  | .call c before after =>
    if relaunches V p.lib c then
      before < p.kernel.remaining ∧ after < K.wait (p.kernel.settings + 1) p.timer 0
    else before + after < p.kernel.remaining
  | .signal spent => spent < p.kernel.remaining

instance (K : Kernel) (V : Variant) (p : Process) (e : TimedEvent) :
    Decidable (Undisturbed K V p e) :=
  match e with
  | .work => inferInstanceAs (Decidable (_ → _))
  | .call c _ _ => inferInstanceAs (Decidable (ite (relaunches V p.lib c = true) _ _))
  | .signal _ => inferInstanceAs (Decidable (_ < _))

theorem Undisturbed.returned {c : Call} {before after : ℕ} {o : Outcome}
    (h : Undisturbed K V p (.call c before after)) (hr : request V p.lib c = .ok (.returns o s)) :
    before + after < p.kernel.remaining := by
  simpa only [Undisturbed, relaunches, hr, Bool.false_eq_true, if_false] using h

theorem Undisturbed.switched {c : Call} {before after : ℕ} {ctx : Context}
    (h : Undisturbed K V p (.call c before after))
    (hr : request V p.lib c = .ok (.switches ctx s)) :
    before < p.kernel.remaining ∧ after < K.wait (p.kernel.settings + 1) p.timer 0 := by
  simpa only [Undisturbed, relaunches, hr, if_true] using h

/-- No quantum lasts too long, and a signal is delivered when it is raised. -/
structure InTime (K : Kernel) (q slack t : ℕ) (p : Process) : Prop
    extends Accounted K q slack t p where
  due : p.kernel.pending = true → t ≤ q + slack ∧ p.lib.masked = false

theorem InTime.not_pending {t : ℕ} (h : InTime K q slack t p) (hdue : ¬ p.Due) :
    p.kernel.pending = false := by
  cases hp : p.kernel.pending with
  | false => rfl
  | true => exact (hdue ⟨hp, (h.due hp).2⟩).elim

theorem InTime.of_quiet {t : ℕ} (h : Accounted K q slack t p) (hp : p.kernel.pending = false) :
    InTime K q slack t p :=
  ⟨h, fun hp' => by cases hp.symm.trans hp'⟩

theorem InTime.quantum_le {t : ℕ} (h : InTime K q slack t p) : t ≤ q + slack := by
  cases hp : p.kernel.pending with
  | false => exact (Nat.le_add_right _ _).trans (h.within hp)
  | true => exact (h.due hp).1

/-- Before an event that is not a signal no signal is pending, and after it at most the one
that user code, and not under the mask, was interrupted by. -/
theorem inTime_step (hq : 0 < q) (hK : K.Prompt slack) {k : Clock} (hi : Invariant p.lib)
    (h : InTime K q slack k.quantum p)
    (hs : timedStep K (uthreads remains) p e = .ok (o, p'))
    (hc : Undisturbed K (uthreads remains) p e) :
    InTime K q slack (k.after (e, o)).quantum p' := by
  have ha := accounted_step hq hK hi h.toAccounted hs
  cases timedStep_effect hs with
  | work hdue =>
    have hp := h.not_pending hdue
    have hle := h.within hp
    have hpos := h.ticking.remaining_pos
    refine ⟨ha, fun hp' => ⟨?_, ?_⟩⟩
    · simp only [Clock.after]
      omega
    · -- under the mask there is no expiry, so no signal either
      cases hm : p.lib.masked with
      | false => rfl
      | true =>
        simp only [tick_of_lt (hc hm)] at hp'
        cases hp.symm.trans hp'
  | @returned c before after o s hdue hr =>
    refine .of_quiet ha ?_
    rw [elapse_of_lt (hc.returned hr)]
    exact h.not_pending hdue
  | @switched c before after ctx s o u hdue hr hsw =>
    obtain ⟨hbefore, hafter⟩ := hc.switched hr
    rw [h.timer] at hafter
    refine .of_quiet ha ?_
    rw [relaunched hq h.timer, elapse_of_lt hbefore, elapse_of_lt (by exact hafter)]
    exact h.not_pending hdue
  | @signalled spent o u hdue hsw =>
    have hlt : spent < (deliver p.kernel).remaining := hc
    refine .of_quiet ha ?_
    rw [elapse_of_lt hlt]
    rfl

/-- The switches that the library made in a timed run. -/
def switches (T : List (TimedEvent × Option Outcome)) : ℕ :=
  (dispatched (T.filterMap seen)).length

theorem switches_cons (x : TimedEvent × Option Outcome)
    (T : List (TimedEvent × Option Outcome)) : switches (x :: T) = switches [x] + switches T := by
  rw [switches, ← List.singleton_append, List.filterMap_append, dispatched_append,
    List.length_append]
  rfl

theorem cpuTime_cons (e : TimedEvent) (o : Option Outcome)
    (T : List (TimedEvent × Option Outcome)) : cpuTime ((e, o) :: T) = e.duration + cpuTime T :=
  List.sum_cons

/-- Time passes in the current quantum, or the quantum ends. -/
theorem duration_step {k : Clock} (hi : Invariant p.lib) (h : InTime K q slack k.quantum p)
    (hs : timedStep K (uthreads remains) p e = .ok (o, p'))
    (hc : Undisturbed K (uthreads remains) p e) :
    e.duration + k.quantum ≤ (q + slack) * switches [(e, o)] + (k.after (e, o)).quantum := by
  cases timedStep_effect hs with
  | work =>
    simp only [TimedEvent.duration, Clock.after]
    omega
  | @returned c before after o s hdue hr =>
    rw [after_returned hi hr]
    simp only [TimedEvent.duration]
    omega
  | @switched c before after ctx s o u hdue hr hsw =>
    obtain ⟨next, v, rfl⟩ := request_switches hi hr hsw
    have hwithin := h.within (h.not_pending hdue)
    obtain ⟨hbefore, _⟩ := hc.switched hr
    have hone : switches [(.call c before after, some (.dispatched next v))] = 1 := rfl
    rw [hone, Nat.mul_one]
    simp only [TimedEvent.duration, Clock.after]
    omega
  | @signalled spent o u hdue hsw =>
    have hstep : step (uthreads remains) p.lib .timer = .ok (o, u) := by
      simp only [step, hdue.2, Bool.false_eq_true, if_false, hsw]
    have hone : switches [(.signal spent, some o)] = 1 := by
      cases step_effect hi hstep with
      | switch => rfl
    have hquantum := (h.due hdue.1).1
    rw [hone, Nat.mul_one]
    simp only [TimedEvent.duration, Clock.after]
    omega

theorem inTime_run (hq : 0 < q) (hK : K.Prompt slack) {k : Clock}
    (h : Exec (timedStep K (uthreads remains)) p T p')
    (hc : EachStep (timedStep K (uthreads remains)) (Undisturbed K (uthreads remains)) p T)
    (hi : Invariant p.lib) (hx : InTime K q slack k.quantum p) :
    InTime K q slack (T.foldl Clock.after k).quantum p' ∧
      cpuTime T + k.quantum ≤ (q + slack) * switches T + (T.foldl Clock.after k).quantum := by
  induction h generalizing k with
  | nil => exact ⟨hx, by simp [cpuTime]⟩
  | @cons p e o w T p' hs _ ih =>
    have hstep := duration_step hi hx hs hc.head
    obtain ⟨hlast, htotal⟩ := ih (hc.tail hs) (timedStep_invariant hi hs)
      (inTime_step hq hK hi hx hs hc.head)
    refine ⟨hlast, ?_⟩
    rw [cpuTime_cons, switches_cons, Nat.mul_add, List.foldl_cons]
    omega

theorem started_inTime (hq : 0 < q) (hK : K.Prompt slack) : InTime K q slack 0 (started K q) :=
  .of_quiet (started_accounted hq hK) rfl

/-- The timer has expired once for every signal since it was launched, and once more while a
signal is pending. The quantum that a launch began is as old as the launch. -/
structure Counted (K : Kernel) (q : ℕ) (k : Clock) (t : Timer) : Prop where
  setting : t.setting = quantum q
  age : k.launch + t.remaining = t.horizon K
  quiet : t.pending = false → t.expiries = k.signals
  due : t.pending = true → t.expiries = k.signals + 1 ∧ q * (k.signals + 1) ≤ k.launch
  first : k.signals = 0 → k.launch = k.quantum

variable {k : Clock} {t : Timer} {n : ℕ}

theorem Counted.elapse (h : Counted K q k t) (hn : n < t.remaining) :
    Counted K q ⟨k.quantum + n, k.launch + n, k.signals⟩ (elapse K n t) := by
  have hage := h.age
  rw [elapse_of_lt hn]
  refine ⟨h.setting, ?_, h.quiet, fun hp => ?_, fun h0 => by simp only [h.first h0]⟩
  · change k.launch + n + (t.remaining - n) = t.horizon K
    omega
  · exact ⟨(h.due hp).1, (h.due hp).2.trans (Nat.le_add_right _ _)⟩

/-- The signal is raised when the time that was asked for has passed. -/
theorem Counted.expire (hq : 0 < q) (hK : K.NeverEarly) (h : Counted K q k t)
    (hp : t.pending = false) (hone : t.remaining = 1) :
    Counted K q ⟨k.quantum + 1, k.launch + 1, k.signals⟩ (expire K t) := by
  have hperiodic : t.setting.Periodic := h.setting ▸ quantum_periodic hq
  have hage := h.age
  have hcount := h.quiet hp
  have hearly := hK.horizon hperiodic
  simp only [h.setting, quantum_value, quantum_interval, ← hage, hone, hcount] at hearly
  refine ⟨h.setting, ?_, nofun, fun _ => ⟨by simp only [IntervalTimer.expire, hcount], ?_⟩,
    fun h0 => by simp only [h.first h0]⟩
  · rw [expire_horizon hperiodic, ← hage, hone]
  · have : q + k.signals * q ≤ k.launch + 1 := by exact_mod_cast hearly
    calc q * (k.signals + 1) = q + k.signals * q := by rw [Nat.mul_succ, Nat.mul_comm, Nat.add_comm]
      _ ≤ k.launch + 1 := this

theorem Counted.deliver (h : Counted K q k t) (hp : t.pending = true) :
    Counted K q ⟨0, k.launch, k.signals + 1⟩ (deliver t) :=
  ⟨h.setting, h.age, fun _ => (h.due hp).1, nofun, fun h0 => absurd h0 (Nat.succ_ne_zero _)⟩

theorem launched_counted (hp : t.pending = false) : Counted K q ⟨0, 0, 0⟩ (launched K q t) := by
  refine ⟨rfl, ?_, fun _ => rfl, fun hp' => (by cases hp.symm.trans hp'), fun _ => rfl⟩
  simp only [launched, Timer.horizon, Nat.zero_add, Finset.sum_range_one]

theorem counted_step (hq : 0 < q) (hK : K.NeverEarly) (hi : Invariant p.lib)
    (hin : InTime K q slack k.quantum p) (h : Counted K q k p.kernel)
    (hs : timedStep K (uthreads remains) p e = .ok (o, p'))
    (hc : Undisturbed K (uthreads remains) p e) : Counted K q (k.after (e, o)) p'.kernel := by
  cases timedStep_effect hs with
  | work hdue =>
    rcases Nat.lt_or_ge 1 p.kernel.remaining with hlt | hge
    · exact h.elapse hlt
    · have hone := Nat.le_antisymm hge hin.ticking.remaining_pos
      rw [tick_of_one hone]
      exact h.expire hq hK (hin.not_pending hdue) hone
  | @returned c before after o s hdue hr =>
    rw [after_returned hi hr]
    exact h.elapse (hc.returned hr)
  | @switched c before after ctx s o u hdue hr hsw =>
    obtain ⟨hbefore, hafter⟩ := hc.switched hr
    rw [hin.timer] at hafter
    rw [after_switched hi hr hsw, relaunched hq hin.timer, elapse_of_lt hbefore]
    have hcounted := (launched_counted (K := K) (q := q)
      (t := { p.kernel with remaining := p.kernel.remaining - before })
      (hin.not_pending hdue)).elapse (n := after) hafter
    simpa only [Nat.zero_add] using hcounted
  | @signalled spent o u hdue hsw =>
    have hcounted := (h.deliver hdue.1).elapse (n := spent) hc
    rwa [Nat.zero_add] at hcounted

theorem counted_run (hq : 0 < q) (hprompt : K.Prompt slack) (hearly : K.NeverEarly)
    (h : Exec (timedStep K (uthreads remains)) p T p')
    (hc : EachStep (timedStep K (uthreads remains)) (Undisturbed K (uthreads remains)) p T)
    (hi : Invariant p.lib) (hin : InTime K q slack k.quantum p) (hx : Counted K q k p.kernel) :
    Counted K q (T.foldl Clock.after k) p'.kernel := by
  induction h generalizing k with
  | nil => exact hx
  | cons hs _ ih =>
    exact ih (hc.tail hs) (timedStep_invariant hi hs)
      (inTime_step hq hprompt hi hin hs hc.head) (counted_step hq hearly hi hin hx hs hc.head)

/-- Where the timer never expires under the mask, the signals since a launch come no earlier
than they were requested, in particular the one that ends the quantum which the launch began;
no quantum lasts longer than the timer takes at most, and the total counts the time used. -/
theorem quantums_bounded (hq : 0 < q) (hearly : K.NeverEarly) (hprompt : K.Prompt slack)
    (h : Exec (timedStep K (uthreads remains)) (started K q) T p)
    (hc : EachStep (timedStep K (uthreads remains)) (Undisturbed K (uthreads remains))
      (started K q) T) :
    (∀ pre spent o post, T = pre ++ (.signal spent, o) :: post →
      q * ((clock pre).signals + 1) ≤ (clock pre).launch ∧
      ((clock pre).signals = 0 → q ≤ (clock pre).quantum) ∧
      (clock pre).quantum ≤ q + slack) ∧
      (clock T).quantum ≤ q + slack ∧ (cpuTime T : ℤ) ≤ (q + slack) * p.lib.totalQuantum := by
  have hstart : Counted K q ⟨0, 0, 0⟩ (started K q).kernel := launched_counted rfl
  obtain ⟨hlast, htotal⟩ := inTime_run (k := ⟨0, 0, 0⟩) hq hprompt h hc initial_invariant
    (started_inTime hq hprompt)
  refine ⟨?_, hlast.quantum_le, ?_⟩
  · rintro pre spent o post rfl
    obtain ⟨w, hpre, hrest⟩ := h.split
    obtain ⟨u, hs, _⟩ := hrest.cons_inv
    obtain ⟨hw, _⟩ := inTime_run (k := ⟨0, 0, 0⟩) hq hprompt hpre hc.of_append
      initial_invariant (started_inTime hq hprompt)
    have hcounted := counted_run hq hprompt hearly hpre hc.of_append initial_invariant
      (started_inTime hq hprompt) hstart
    cases timedStep_effect hs with
    | signalled hdue =>
      have hlaunch : q * ((clock pre).signals + 1) ≤ (clock pre).launch := (hcounted.due hdue.1).2
      refine ⟨hlaunch, fun h0 => ?_, (hw.due hdue.1).1⟩
      have hfirst : (clock pre).launch = (clock pre).quantum := hcounted.first h0
      rwa [h0, hfirst, Nat.zero_add, Nat.mul_one] at hlaunch
  · have hle : (clock T).quantum ≤ q + slack := hlast.quantum_le
    have hcount : p.lib.totalQuantum = 1 + (switches T : ℤ) :=
      (reachable_accounts (h.project (timedStep_contains K (uthreads remains)))).total
    rw [hcount, Int.mul_add, Int.mul_one]
    change cpuTime T + 0 ≤ (q + slack) * switches T + (clock T).quantum at htotal
    zify at htotal hle
    linarith

/-- Quanta of 3 under a clock of 4; thread 1 gives up the rest of its own. -/
theorem quantums_bounded_self_block :
    let K := coarse 4 (by decide)
    let es : List TimedEvent := [.call (.spawn (some 7)) 1 0, .work, .work, .work, .signal 1,
      .work, .call (.block 1) 1 1, .work, .work, .work, .signal 0]
    let T := trace (timedStep K (uthreads freedRecord)) (started K 3) es
    T.length = 11 ∧
      (∀ pre spent o post, T = pre ++ (.signal spent, o) :: post →
        3 * ((clock pre).signals + 1) ≤ (clock pre).launch ∧
        ((clock pre).signals = 0 → 3 ≤ (clock pre).quantum) ∧
        (clock pre).quantum ≤ 3 + 4) ∧
      (clock T).quantum ≤ 3 + 4 ∧
      (cpuTime T : ℤ) ≤ ((3 : ℕ) + (4 : ℕ)) *
        (final (timedStep K (uthreads freedRecord)) (started K 3) es).lib.totalQuantum := by
  intro K es T
  have hmeets : meets (timedStep K (uthreads freedRecord)) (Undisturbed K (uthreads freedRecord))
      (started K 3) es = true := by decide +kernel
  obtain ⟨hexec, heach⟩ := eachStep_of_meets hmeets
  exact ⟨by decide +kernel, quantums_bounded (by decide) (coarse_neverEarly (by decide))
    (coarse_prompt (by decide)) hexec heach⟩

/-- A waiting thread is dispatched within as many of the longest quantums of CPU time as its
place in the queue says, unless another thread withdraws it. -/
theorem response_time (hq : 0 < q) (hK : K.Prompt slack)
    {T' : List (TimedEvent × Option Outcome)} {r : ThreadRef}
    (h : Exec (timedStep K (uthreads remains)) (started K q) T p)
    (h' : Exec (timedStep K (uthreads remains)) p T' p')
    (hc : EachStep (timedStep K (uthreads remains)) (Undisturbed K (uthreads remains))
      (started K q) (T ++ T'))
    (hw : Waiting p.lib r)
    (hk : EachStep (step (uthreads remains)) (fun s e => ¬ Withdraws s r e) p.lib
      (T'.filterMap seen))
    (hr : r ∉ dispatched (T'.filterMap seen)) :
    cpuTime T' ≤ (q + slack) * (lastIndex r p.lib.readyQueue + 1) := by
  have hi := timed_invariant h
  obtain ⟨hx, _⟩ := inTime_run (k := ⟨0, 0, 0⟩) hq hK h hc.of_append initial_invariant
    (started_inTime hq hK)
  obtain ⟨hx', htotal⟩ := inTime_run hq hK h' (hc.after h) hi hx
  have hswitches : switches T' ≤ lastIndex r p.lib.readyQueue :=
    waiting_switches hi hw (h'.project (timedStep_contains K (uthreads remains))) hk hr
  calc cpuTime T' ≤ (q + slack) * switches T' + (q + slack) := by
        have := hx'.quantum_le
        omega
    _ ≤ (q + slack) * lastIndex r p.lib.readyQueue + (q + slack) :=
        Nat.add_le_add_right (Nat.mul_le_mul_left _ hswitches) _
    _ = (q + slack) * (lastIndex r p.lib.readyQueue + 1) := (Nat.mul_succ _ _).symm

/-- Thread 2 waits behind thread 1, in quanta of 1 under a clock of 2. -/
theorem response_time_second_place :
    let K := coarse 2 (by decide)
    let es : List TimedEvent := [.call (.spawn (some 7)) 0 0, .call (.spawn (some 8)) 0 0]
    let es' : List TimedEvent := [.work, .work, .signal 0, .work]
    let p := final (timedStep K (uthreads freedRecord)) (started K 1) es
    let T' := trace (timedStep K (uthreads freedRecord)) p es'
    p.lib.readyQueue = [1, 2] ∧ dispatched (T'.filterMap seen) = [1] ∧
      cpuTime T' ≤ (1 + 2) * (lastIndex 2 p.lib.readyQueue + 1) := by
  intro K es es' p T'
  have hmeets : meets (timedStep K (uthreads freedRecord)) (Undisturbed K (uthreads freedRecord))
      (started K 1) (es ++ es') = true := by decide +kernel
  obtain ⟨_, heach⟩ := eachStep_of_meets hmeets
  have htrace : trace (timedStep K (uthreads freedRecord)) (started K 1) (es ++ es') =
      trace (timedStep K (uthreads freedRecord)) (started K 1) es ++ T' := by decide +kernel
  rw [htrace] at heach
  have hseen : T'.filterMap seen = [(.timer, .dispatched 1 none)] := by decide +kernel
  have hw : Waiting p.lib 2 := ⟨⟨2, by decide +kernel⟩, by decide +kernel, by decide +kernel,
    by decide +kernel, by decide +kernel⟩
  have hrun : Exec (timedStep K (uthreads freedRecord)) (started K 1)
      (trace (timedStep K (uthreads freedRecord)) (started K 1) es) p :=
    exec_trace (by decide +kernel)
  have hrun' : Exec (timedStep K (uthreads freedRecord)) p T' _ := exec_trace (by decide +kernel)
  refine ⟨by decide +kernel, by decide +kernel, response_time (by decide)
    (coarse_prompt (by decide)) hrun hrun' heach hw ?_ (by decide +kernel)⟩
  intro pre e o post u he _
  rw [hseen] at he
  obtain ⟨rfl, _⟩ : e = .timer ∧ _ := by
    have hmem : (e, o) ∈ [((.timer : Event), Outcome.dispatched 1 none)] := by rw [he]; simp
    exact Prod.mk.inj (List.mem_singleton.mp hmem)
  exact id

end QuantumLength
