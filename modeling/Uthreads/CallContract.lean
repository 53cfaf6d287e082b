import Uthreads.ThreadInvariant

/-! # The contract of a public call

Which calls give the timer signal back, and leave everything as it was when they fail. -/
namespace CallContract

open ThreadLibrary SwitchSemantics CallEffects EventRuns ThreadInvariant

/-- The public calls, with `uthread_init` when it is made again with a bad quantum. -/
inductive Request where
  | init (quantumUsecs : ℤ) (nonpositive : quantumUsecs ≤ 0)
  | call (c : Call)

/-- What the caller reads, if it reads anything. -/
def valueOf : Outcome → Option ℤ
  | .returned value => some value
  | .failed _ => some (-1)
  | .dispatched _ value => value
  | .exited => none

/-- The call made in `s` returns to its caller in state `t`: at once, or when the caller
is dispatched for the first time after the switch that the call has made. -/
inductive Returns (remains : ThreadRef → Thread → Thread) (s : State) :
    Request → Option ℤ → State → Prop where
  | init {q hq o t} : uthreadInit q s = .ok (o, t) → Returns remains s (.init q hq) (valueOf o) t
  | now {call o t} : step (uthreads remains) s (.call call) = .ok (o, t) →
      (∀ next v, o ≠ .dispatched next v) → Returns remains s (.call call) (valueOf o) t
  | later {call next w tr e c v t} : s.curRunning = some c →
      Exec (step (uthreads remains)) s (tr ++ [(e, .dispatched c v)]) t →
      (tr ++ [(e, .dispatched c v)]).head? = some (.call call, .dispatched next w) →
      c ∉ dispatched tr → Returns remains s (.call call) v t

/-- The signal is unblocked again, and a call that returns -1 has changed nothing. -/
def Contract (remains : ThreadRef → Thread → Thread) (s : State) (req : Request) : Prop :=
  ∀ v t, Returns remains s req v t →
    t.masked = false ∧ (v = some (-1) → { t with masked := s.masked } = s)

def GivesBack (s : State) : Request → Prop
  | .init _ _ => False
  | .call call => ¬ Rejected s call

variable {remains : ThreadRef → Thread → Thread} {s t : State} {e : Event} {o : Outcome}

/-- A rejected call returns from inside its masked region. -/
theorem rejected_step (remains : ThreadRef → Thread → Thread) (hi : Invariant s) {call : Call}
    (hr : Rejected s call) :
    ∃ e, step (uthreads remains) s (.call call) = .ok (.failed e, maskSignals s) := by
  have hinvalid : ∀ tid, (∀ r, ¬ s.At tid r) → ∃ e, checkValidTid tid s = .ok (some e) := by
    intro tid hnone
    rcases checkValidTid_cases s tid with ⟨r, hr⟩ | ⟨_, he⟩
    · exact (hnone r hr).elim
    · exact he
  cases call with
  | terminate tid =>
    obtain ⟨e, he⟩ := hinvalid tid hr
    exact ⟨e, by simp only [step, request, uthreadTerminate_invalid he, ok_bind, pure_ok]⟩
  | resume tid =>
    obtain ⟨e, he⟩ := hinvalid tid hr
    exact ⟨e, by simp only [step, request, uthreadResume_invalid he, ok_bind, pure_ok]⟩
  | block tid =>
    rcases hr with rfl | hnone
    · obtain ⟨m, hm⟩ := hi.main_cell
      have hat : s.At mainThreadTid m := ⟨0, rfl, hm⟩
      exact ⟨.blockMain, by simp only [step, request, uthreadBlock_main hat, ok_bind, pure_ok]⟩
    · obtain ⟨e, he⟩ := hinvalid tid hnone
      exact ⟨e, by simp only [step, request, uthreadBlock_invalid he, ok_bind, pure_ok]⟩
  | sleep n =>
    by_cases hn : n ≤ 0
    · exact ⟨.sleepNotPositive, by
        simp only [step, request, uthreadSleep_nonpositive hn, ok_bind, pure_ok]⟩
    · obtain ⟨c, hc, hid⟩ := hr.resolve_left hn
      exact ⟨.mainSleeps, by
        simp only [step, request, uthreadSleep_main (not_le.mp hn) hc hid, ok_bind, pure_ok]⟩
  | _ => exact hr.elim

/-- A call that comes back without being rejected. -/
theorem quiet_contract {call : Call} (hm : s.masked = false) (hr : ¬ Rejected s call)
    (hq : Quiet remains s call o t) :
    t.masked = false ∧ (valueOf o = some (-1) → { t with masked := s.masked } = s) := by
  cases hq with
  | idle b _ _ hb =>
    have hb := hb.resolve_right hr
    exact ⟨hb.trans hm, fun _ => rfl⟩
  | @spawn pc i =>
    refine ⟨rfl, fun hv => ?_⟩
    have : ((i : ℕ) : ℤ) = -1 := Option.some.inj hv
    omega
  | block => exact ⟨rfl, fun hv => by cases hv⟩
  | resume => exact ⟨rfl, fun hv => by cases hv⟩
  | terminate => exact ⟨rfl, fun hv => by cases hv⟩

/-- A call that made a switch returns through `switchThread`, which gives the signal back. -/
theorem dispatch_contract (hi : Invariant s) {c : ThreadRef} {v : Option ℤ}
    (hs : step (uthreads remains) s e = .ok (.dispatched c v, t)) :
    t.masked = false ∧ v ≠ some (-1) := by
  cases step_effect hi hs with
  | quiet hq => exact (hq.returns _ _ rfl).elim
  | switch _ hd =>
    refine ⟨hd.unmasked, ?_⟩
    rcases hd.result with rfl | rfl <;> simp

theorem init_breaks_contract (hi : Invariant s) (q : ℤ) (hq : q ≤ 0) :
    ¬ Contract remains s (.init q hq) := by
  intro h
  obtain ⟨c, hc, _⟩ := hi.current_live
  have hinit : uthreadInit q s =
      .ok (.failed .quantumNotPositive, dispatcherInit (newScheduler s)) := by
    simp only [uthreadInit, if_pos hq, pure_ok]
  have hsame := (h _ _ (.init hinit)).2 rfl
  have hcur := congrArg State.curRunning hsame
  rw [hc] at hcur
  cases hcur

theorem call_contract_iff {tr : List (Event × Outcome)} (h : Runs remains tr s)
    (hm : s.masked = false) (req : Request) : Contract remains s req ↔ GivesBack s req := by
  have hi := reachable_invariant h
  cases req with
  | init q hq => exact iff_of_false (init_breaks_contract hi q hq) id
  | call call =>
    constructor
    · intro hc hr
      obtain ⟨e, hs⟩ := rejected_step remains hi hr
      have hmask := (hc _ _ (.now hs (by simp))).1
      cases hmask
    · intro hr v t hret
      cases hret with
      | now hs ho =>
        cases step_effect hi hs with
        | quiet hq => exact quiet_contract hm hr hq
        | switch => exact (ho _ _ rfl).elim
      | later hc hx _ _ =>
        obtain ⟨p, hp, hlast⟩ := hx.split
        obtain ⟨t', hs, hnil⟩ := hlast.cons_inv
        cases hnil
        obtain ⟨hmask, hv⟩ := dispatch_contract (reachable_invariant (h.append hp)) hs
        exact ⟨hmask, fun hv' => (hv hv').elim⟩

theorem call_contract_iff_sleeping_thread :
    let s := after freedRecord initial [.call (.spawn (some 7)), .timer]
    ∀ req, Contract freedRecord s req ↔ GivesBack s req :=
  call_contract_iff (runs_history freedRecord [.call (.spawn (some 7)), .timer]
    (by decide +kernel)) (by decide +kernel)

/-- Blocking main fails and leaves preemption switched off. -/
theorem failed_block_keeps_mask :
    Runs freedRecord [] initial ∧ initial.masked = false ∧
      step (uthreads freedRecord) initial (.call (.block 0)) =
        .ok (.failed .blockMain, maskSignals initial) ∧
      ¬ Contract freedRecord initial (.call (.block 0)) := by
  have hs : step (uthreads freedRecord) initial (.call (.block 0)) =
      .ok (.failed .blockMain, maskSignals initial) := by
    have hat : initial.At mainThreadTid 0 := ⟨0, rfl, rfl⟩
    simp only [step, request, uthreadBlock_main hat, ok_bind, pure_ok]
  refine ⟨.nil initial, rfl, hs, fun h => ?_⟩
  have hmask := (h _ _ (.now hs (by simp))).1
  cases hmask

end CallContract
