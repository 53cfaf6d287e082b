import Uthreads.SleepContract

/-! # How long a sleep lasts

A sleeping thread keeps the status READY, so its sleep is exact only when no entry of it
is left in the queue and the switch it makes finds somebody else to run. -/
namespace SleepDuration

open ThreadLibrary SwitchSemantics CallEffects EventRuns ThreadInvariant SleepContract LazyQueue

variable {remains : ThreadRef → Thread → Thread} {s t u : State} {tid n q : ℤ}
  {r : ThreadRef} {e : Event} {o : Outcome}

/-- What `uthread_sleep(n)` promises of every continuation without a terminate of the
sleeper. The quantum in progress is `totalQuantum`, and `curRunning` runs in it. -/
def SleepsExactly (remains : ThreadRef → Thread → Thread) (s : State) (tid : ℤ)
    (r : ThreadRef) (n : ℤ) : Prop :=
  ∀ o tr u, Exec (step (uthreads remains)) s ((.call (.sleep n), o) :: tr) u →
    (∀ x ∈ tr, x.1 ≠ .call (.terminate tid)) →
    (u.totalQuantum ≤ s.totalQuantum + n → u.curRunning ≠ some r) ∧
    (u.totalQuantum < s.totalQuantum + n → (u.heap r).isSleep = true) ∧
    (u.totalQuantum = s.totalQuantum + n → (u.heap r).isSleep = false) ∧
    (∀ pre e o' p, (.call (.sleep n), o) :: tr = pre ++ [(e, o')] →
      Exec (step (uthreads remains)) s pre p → p.totalQuantum < s.totalQuantum + n →
      u.totalQuantum = s.totalQuantum + n → (p.heap r).status ≠ .blocked →
      AppendedBySwitch remains p e u r)

/-- The caller has no entry left in the queue, and the queue is empty or offers a READY
thread. -/
def CleanSleep (s : State) (r : ThreadRef) : Prop :=
  r ∉ s.readyQueue ∧
    (s.readyQueue = [] ∨ ∃ x ∈ s.readyQueue, s.Live x ∧ (s.heap x).status = .ready)

instance (s : State) (r : ThreadRef) : Decidable (CleanSleep s r) :=
  inferInstanceAs (Decidable (_ ∧ _))

/-- Where a sleep until quantum `q` stands: the countdown is on, quantum `q` is running,
or it is over. -/
inductive Phase (q : ℤ) (tid : ℤ) (r : ThreadRef) (s : State) : Prop where
  | countdown {b} : s.totalQuantum < q → Suspended s tid r (q - s.totalQuantum) b →
      Phase q tid r s
  | last : s.totalQuantum = q → s.At tid r → s.curRunning ≠ some r →
      (s.heap r).isSleep = false → Phase q tid r s
  | past : q < s.totalQuantum → Phase q tid r s

theorem quiet_keeps_last {call : Call} (hi : Invariant s) (hr : s.At tid r)
    (hterm : call ≠ .terminate tid) (h : Quiet remains s call o t) :
    t.At tid r ∧ t.curRunning = s.curRunning ∧ (t.heap r).isSleep = (s.heap r).isSleep ∧
      t.totalQuantum = s.totalQuantum := by
  cases h with
  | idle b => exact ⟨hr, rfl, rfl, rfl⟩
  | @spawn pc i hfree =>
    have hne := hi.ne_fresh (At.live hr)
    exact ⟨spawned_at pc hfree hr, rfl, congrArg Thread.isSleep (spawned_of_ne hne), rfl⟩
  | @block _ d =>
    refine ⟨hr, rfl, ?_, rfl⟩
    change ((blocked d s).heap r).isSleep = _
    by_cases hrd : r = d
    · subst hrd; rw [blocked_self]
    · rw [blocked_of_ne hrd]
  | @resume _ d =>
    refine ⟨hr, rfl, ?_, rfl⟩
    change ((resumed d s).heap r).isSleep = _
    by_cases hrd : r = d
    · subst hrd; rw [resumed_self]
    · rw [resumed_of_ne hrd]
  | @terminate i d c hd =>
    have hrd := hi.at_ne hr ⟨i, rfl, hd⟩ fun hit => hterm (by rw [hit])
    have hat := terminated_at remains hd hr hrd
    have hheap : (terminated remains i d s).heap r = s.heap r := terminated_of_ne hrd
    exact ⟨hat, rfl, congrArg Thread.isSleep hheap, rfl⟩

/-- A step that starts a quantum appends as a switch does. -/
theorem appended_in_new_quantum (hi : Invariant s) (hs : step (uthreads remains) s e = .ok (o, t))
    (hnew : s.totalQuantum < t.totalQuantum) (h : AppendedOnce remains s t r e) :
    AppendedBySwitch remains s e t r := by
  cases h with
  | switch h => exact h
  | resume =>
    have htotal := step_totalQuantum hi hs
    cases step_effect hi hs with
    | quiet hq =>
      have hused : quantumsUsed o = 0 := by
        cases o with
        | dispatched next v => exact (hq.returns next v rfl).elim
        | _ => rfl
      omega
    | switch he => cases he

/-- One step of the countdown; the switch that starts quantum `q` requeues. -/
theorem phase_step (hi : Invariant s) (h0 : tid ≠ mainThreadTid) (h : Phase q tid r s)
    (hterm : e ≠ .call (.terminate tid)) (hs : step (uthreads remains) s e = .ok (o, t)) :
    Phase q tid r t ∧ (s.totalQuantum < q → t.totalQuantum = q →
      (s.heap r).status ≠ .blocked → AppendedBySwitch remains s e t r) := by
  have htotal := step_totalQuantum hi hs
  have hused : quantumsUsed o = 0 ∨ quantumsUsed o = 1 := by cases o <;> simp [quantumsUsed]
  cases h with
  | @countdown b hlt hsusp =>
    obtain ⟨_, hkeep, hcase⟩ := step_suspended hi h0 hsusp hterm hs
    have hleft : q - s.totalQuantum - quantumsUsed o = q - t.totalQuantum := by omega
    rw [hleft] at hcase
    rcases hcase with ⟨hwhy, hstay⟩ | ⟨hl, _, hreq⟩
    · refine ⟨?_, ?_⟩
      · rcases lt_or_eq_of_le (show t.totalQuantum ≤ q by omega) with hlt' | heq
        · exact .countdown hlt' hstay
        · have hclock := hstay.clock
          rw [if_neg (by omega)] at hclock
          exact .last heq hstay.cell hstay.parked hclock.1
      · -- a thread that is still suspended when the countdown ends was blocked before it
        intro _ heq hnb
        have hb := hwhy.resolve_left (by omega)
        rw [hkeep (by omega)] at hb
        exact (hnb (by rw [hsusp.status, hb]; rfl)).elim
    · have heq : t.totalQuantum = q := by omega
      exact ⟨.last heq hreq.cell hreq.parked hreq.awake, fun _ _ _ =>
        appended_in_new_quantum hi hs (by omega) hreq.appended⟩
  | last heq hat hparked hawake =>
    refine ⟨?_, fun hlt => by omega⟩
    cases step_effect hi hs with
    | quiet hq =>
      obtain ⟨hat', hcur, hsleep, htot⟩ := quiet_keeps_last hi hat
        (fun hc => hterm (by rw [hc])) hq
      exact .last (htot.trans heq) hat' (by rw [hcur]; exact hparked) (hsleep.trans hawake)
    | switch =>
      have : t.totalQuantum = s.totalQuantum + 1 := htotal
      exact .past (by omega)
  | past hlt => exact ⟨.past (by omega), fun hlt' => by omega⟩

theorem phase_run {tr : List (Event × Outcome)} (hi : Invariant s) (h0 : tid ≠ mainThreadTid)
    (h : Phase q tid r s) (hx : Exec (step (uthreads remains)) s tr t)
    (hterm : ∀ x ∈ tr, x.1 ≠ .call (.terminate tid)) : Invariant t ∧ Phase q tid r t := by
  induction hx with
  | nil => exact ⟨hi, h⟩
  | cons hs _ ih =>
    exact ih (step_preserves_invariant hi hs)
      (phase_step hi h0 h (hterm _ List.mem_cons_self) hs).1
      (fun x hx => hterm x (List.mem_cons_of_mem _ hx))

/-- With a clean queue the switch of the sleep does not come back to the caller. -/
theorem clean_sleep_not_picked {next : ThreadRef} {rest : List ThreadRef} (hi : Invariant s)
    (hr : s.At tid r) (h0 : tid ≠ mainThreadTid) (hn : 0 < n) (hclean : CleanSleep s r)
    (hp : Picks (asleep n r s) r next rest) :
    r ∉ queueAtPick (asleep n r s) r ∧ next ≠ r := by
  have hid : (s.heap r).id ≠ mainThreadTid := by
    rw [(hi.at_iff (At.live hr) tid).mp hr]
    exact h0
  have hcons := consistent_asleep hi.toConsistent hn hid
  have hqueue : queueAtPick (asleep n r s) r = s.readyQueue := queueAtPick_of_stays asleep_stays
  rw [hqueue]
  refine ⟨hclean.1, ?_⟩
  rintro rfl
  cases hp with
  | entry hsweep => exact hclean.1 (hqueue ▸ sweep_mem hsweep)
  | main _ hm => exact hi.main_ne hm hr h0 rfl
  | current hne hnone =>
    rcases hclean.2 with hnil | ⟨x, hx, hlive, hready⟩
    · exact hne (hqueue.trans hnil)
    · have hxr : x ≠ next := by rintro rfl; exact hclean.1 hx
      have hst : statusAtPick (asleep n next s) next x = .ready := by
        rw [statusAtPick_of_ne hxr, asleep_of_ne hxr]
        exact hready
      exact not_ready_of_used_up hcons hlive (hqueue ▸ hx) hnone hst

/-- The switch of the sleep itself counts down once. -/
theorem clean_sleep_step (hi : Invariant s) (hc : s.curRunning = some r) (hr : s.At tid r)
    (h0 : tid ≠ mainThreadTid) (hn : 0 < n) (hclean : CleanSleep s r)
    (hs : step (uthreads remains) s (.call (.sleep n)) = .ok (o, t)) :
    Phase (s.totalQuantum + n) tid r t ∧ t.totalQuantum = s.totalQuantum + 1 ∧
      (t.totalQuantum = s.totalQuantum + n →
        AppendedBySwitch remains s (.call (.sleep n)) t r) := by
  have hid : (s.heap r).id ≠ mainThreadTid := by
    rw [(hi.at_iff (At.live hr) tid).mp hr]
    exact h0
  cases step_effect hi hs with
  | quiet hq =>
    cases hq with
    | idle _ hidle =>
      rcases hidle with hneg | ⟨c, hc', hmain⟩
      · omega
      · obtain rfl := Option.some.inj (hc.symm.trans hc')
        exact (hid hmain).elim
  | switch he hd =>
    cases he with
    | sleep hpos hc' hnm =>
      obtain rfl := Option.some.inj (hc.symm.trans hc')
      obtain ⟨rest, woke, hp, _⟩ := hd.queue
      obtain ⟨hoff, hne⟩ := clean_sleep_not_picked hi hr h0 hn hclean hp
      have hst : statusAtPick (asleep n r s) r r = if false then .blocked else .ready := by
        rw [statusAtPick_of_stays asleep_stays, asleep_self]
        rfl
      have htotal : t.totalQuantum = s.totalQuantum + 1 := hd.totalQuantum
      have hclock : if 0 < n then ((asleep n r s).heap r).isSleep = true ∧
          ((asleep n r s).heap r).waitingTime = n
          else ((asleep n r s).heap r).isSleep = false ∧ false = true := by
        rw [if_pos hn, asleep_self]
        exact ⟨rfl, rfl⟩
      have hcount := switch_countdown (consistent_asleep hi.toConsistent hn hid) hr hoff hne
        hst hclock hd.toSwitch
      have hleft : n - 1 = s.totalQuantum + n - t.totalQuantum := by omega
      have hparked : t.curRunning ≠ some r := by rw [hd.curRunning]; simpa using hne
      refine ⟨?_, htotal, ?_⟩
      · rcases hcount with ⟨hwhy, hstay⟩ | ⟨hl, _, hat, hawake, _⟩
        · have hpos := hwhy.resolve_right (by simp)
          rw [hleft] at hstay
          exact .countdown (by omega) hstay
        · exact .last (by omega) hat hparked hawake
      · intro heq
        rcases hcount with ⟨hwhy, _⟩ | ⟨_, _, _, _, hadds⟩
        · have hleft := hwhy.resolve_right (by simp)
          omega
        · exact appended_by_switch hi (.sleep hpos hc hnm) hd hadds

theorem clean_sleep_exact {tr₀ : List (Event × Outcome)} (h : Runs remains tr₀ s)
    (hc : s.curRunning = some r) (hr : s.At tid r) (h0 : tid ≠ mainThreadTid) (hn : 0 < n)
    (hclean : CleanSleep s r) : SleepsExactly remains s tid r n := by
  intro o tr u hx hterm
  have hi := reachable_invariant h
  obtain ⟨t, hs, hrest⟩ := hx.cons_inv
  obtain ⟨hphase, htotal, happend⟩ := clean_sleep_step hi hc hr h0 hn hclean hs
  have hit := step_preserves_invariant hi hs
  obtain ⟨_, hend⟩ := phase_run hit h0 hphase hrest hterm
  refine ⟨?_, ?_, ?_, ?_⟩
  · intro hle
    cases hend with
    | countdown _ hsusp => exact hsusp.parked
    | last _ _ hparked _ => exact hparked
    | past hlt => omega
  · intro hlt
    cases hend with
    | countdown _ hsusp =>
      have hclock := hsusp.clock
      rw [if_pos (by omega)] at hclock
      exact hclock.1
    | last heq => omega
    | past hlt' => omega
  · intro heq
    cases hend with
    | countdown hlt => omega
    | last _ _ _ hawake => exact hawake
    | past hlt => omega
  · intro pre e o' p hsplit hp hlt heq hnb
    cases pre with
    | nil =>
      -- the sleep lasts one quantum and its own switch ends it
      simp only [List.nil_append, List.cons.injEq] at hsplit
      obtain ⟨hcall, rfl⟩ := hsplit
      cases hcall
      cases hp
      cases hrest
      exact happend heq
    | cons x pre =>
      simp only [List.cons_append, List.cons.injEq] at hsplit
      obtain ⟨rfl, rfl⟩ := hsplit
      obtain ⟨t', hs', hpre⟩ := hp.cons_inv
      rw [hs] at hs'
      cases hs'
      obtain ⟨hip, hphasep⟩ := phase_run hit h0 hphase hpre
        fun x hx => hterm x (List.mem_append_left _ hx)
      obtain ⟨p', hp', hlast⟩ := hrest.split
      obtain rfl := hpre.deterministic hp'
      obtain ⟨u', hsu, hnil⟩ := hlast.cons_inv
      cases hnil
      exact (phase_step hip h0 hphasep (hterm (e, o') (by simp)) hsu).2 hlt heq hnb

theorem clean_sleep_exact_two_quantums :
    SleepsExactly freedRecord (after freedRecord initial [.call (.spawn (some 7)), .timer])
      1 1 2 :=
  clean_sleep_exact (runs_history freedRecord [.call (.spawn (some 7)), .timer]
    (by decide +kernel)) (by decide +kernel) ⟨1, rfl, by decide +kernel⟩ (by decide)
    (by decide) (by decide +kernel)

/-- Three entries of thread 1, of which the pick loop takes the first; the sleeper is
found again behind it in its own switch. -/
theorem stale_entry_ends_sleep :
    let es : List Event := [.call (.spawn (some 7)), .call (.block 1), .call (.resume 1),
      .call (.block 1), .call (.resume 1), .timer]
    let s := after freedRecord initial es
    Runs freedRecord (history freedRecord initial es) s ∧ s.curRunning = some 1 ∧
      s.At 1 1 ∧ ¬ SleepsExactly freedRecord s 1 1 5 := by
  intro es s
  refine ⟨runs_history freedRecord es (by decide +kernel), by decide +kernel,
    ⟨1, rfl, by decide +kernel⟩, fun h => ?_⟩
  have hx : Exec (step (uthreads freedRecord)) s
      [(.call (.sleep 5), .dispatched 1 (some 0))]
      (after freedRecord s [.call (.sleep 5)]) := by
    have := exec_history freedRecord s [.call (.sleep 5)] (by decide +kernel)
    rwa [show history freedRecord s [.call (.sleep 5)] =
      [(.call (.sleep 5), .dispatched 1 (some 0))] by decide +kernel] at this
  exact (h _ _ _ hx (by simp)).1 (by decide +kernel) (by decide +kernel)

end SleepDuration
