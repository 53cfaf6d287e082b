import Uthreads.CallContract
import Uthreads.QuantumAccounting
import Uthreads.ThreadTable

/-! # Failed calls

A call that reports an error leaves nothing behind but the signal mask, and the mask can be
read off the answers so far. Each of its errors has a message, and nothing else answers -1. -/
namespace CallErrors

open ThreadLibrary SwitchSemantics CallEffects EventRuns ThreadInvariant CallContract
  QuantumAccounting ThreadTable

/-- The caller reads -1 and a message is printed. -/
def failed : Event × Outcome → Bool
  | (_, .failed _) => true
  | _ => false

/-- What the event does to the signal mask: `uthread_spawn` checks before it masks, the
other failures return in between, and everything else that masks unmasks. -/
def setsMask : Event × Outcome → Option Bool
  | (.call .getTid, _) => none
  | (.call .getTotalQuantums, _) => none
  | (.call (.getQuantums _), _) => none
  | (.call (.spawn _), .failed _) => none
  | (.call _, .failed _) => some true
  | _ => some false

/-- The mask at the end of a history. -/
def maskAfter (tr : List (Event × Outcome)) : Bool := ((tr.filterMap setsMask).getLast?).getD false

variable {remains : ThreadRef → Thread → Thread} {s t : State} {e : Event} {o : Outcome}
  {tr : List (Event × Outcome)}

/-- What the call prints to `stderr`. -/
def stderr : Outcome → String
  | .failed e => e.message
  | _ => ""

/-- The helper of the test suite, for a call that ended with `o`. -/
def expectThreadLibraryError (o : Outcome) : Prop :=
  valueOf o = some (-1) ∧ "thread library error: ".toList <:+: (stderr o).toList

theorem failed_expectThreadLibraryError (err : CallError) :
    expectThreadLibraryError (.failed err) := by
  have hmessage : ∃ text, stderr (.failed err) = "thread library error: " ++ text := ⟨_, rfl⟩
  obtain ⟨text, htext⟩ := hmessage
  refine ⟨rfl, ?_⟩
  rw [htext, String.toList_append]
  exact (List.prefix_append _ _).isInfix

/-- Ids and counters are no errors. -/
theorem returned_ne_minus_one (h : Runs remains tr s) {call : Call} {v : ℤ}
    (hs : step (uthreads remains) s (.call call) = .ok (.returned v, t)) : v ≠ -1 := by
  have hi := reachable_invariant h
  obtain ⟨htotal, hquantums, _⟩ := quantum_accounting h
  cases step_effect hi hs with
  | quiet hq =>
    cases hq with
    | idle b hidle =>
      have hr : ¬ Rejected s call := by
        intro hr
        obtain ⟨err, hs'⟩ := rejected_step remains hi hr
        cases hs.symm.trans hs'
      cases call with
      | spawn entryPoint =>
        obtain ⟨err, hs'⟩ := spawn_refused remains hi.toTable
          (hidle.imp_right hi.toTable.count_full.mp)
        cases hs.symm.trans hs'
      | getTid =>
        obtain ⟨c, hc, i, hcell⟩ := hi.current_live
        simp only [step, request, uthreadGetTid, hc, deref_some, ok_bind, pure_ok,
          hi.cell_id i c hcell, Except.ok.injEq, Prod.mk.injEq, Outcome.returned.injEq] at hs
        omega
      | getTotalQuantums =>
        rw [htotal] at hs
        simp only [Except.ok.injEq, Prod.mk.injEq, Outcome.returned.injEq] at hs
        omega
      | getQuantums tid =>
        rcases checkValidTid_cases s tid with ⟨r, hr⟩ | ⟨_, err, herr⟩
        · rw [hquantums tid r hr] at hs
          simp only [Except.ok.injEq, Prod.mk.injEq, Outcome.returned.injEq] at hs
          split at hs <;> omega
        · simp [step, request, uthreadGetQuantums_invalid herr] at hs
      | _ => exact (hr hidle).elim
    | spawn => omega
    | block => decide
    | resume => decide
    | terminate => decide

/-- Every call that reads -1 has printed its message, and no other call has. -/
theorem minus_one_iff_message (h : Runs remains tr s) {call : Call}
    (hs : step (uthreads remains) s (.call call) = .ok (o, t)) :
    valueOf o = some (-1) ↔ expectThreadLibraryError o := by
  refine ⟨fun hv => ?_, fun he => he.1⟩
  cases o with
  | failed err => exact failed_expectThreadLibraryError err
  | returned v => exact (returned_ne_minus_one h hs (Option.some.inj hv)).elim
  | dispatched next v => exact ((dispatch_contract (reachable_invariant h) hs).2 hv).elim
  | exited => cases hv

theorem maskAfter_append (tr : List (Event × Outcome)) (x : Event × Outcome) :
    maskAfter (tr ++ [x]) = (setsMask x).getD (maskAfter tr) := by
  cases hx : setsMask x <;> simp [maskAfter, List.filterMap_append, hx]

theorem setsMask_rejected {call : Call} (h : Rejected s call) (err : CallError) :
    setsMask (.call call, .failed err) = some true := by
  cases call <;> first | rfl | exact h.elim

theorem step_masked (hi : Invariant s) (h : step (uthreads remains) s e = .ok (o, t)) :
    t.masked = (setsMask (e, o)).getD s.masked := by
  cases step_effect hi h with
  | @switch _ c ctx s' next v _ he hd =>
    have hset : setsMask (e, .dispatched next v) = some false := by cases he <;> rfl
    rw [hset]
    exact hd.unmasked
  | @quiet call _ _ hq =>
    by_cases hr : Rejected s call
    · obtain ⟨err, hs⟩ := rejected_step remains hi hr
      rw [hs] at h
      cases h
      rw [setsMask_rejected hr]
      rfl
    · cases hq with
      | idle b hidle ho hb =>
        obtain rfl := hb.resolve_right hr
        cases call with
        | spawn entryPoint =>
          obtain ⟨err, hs⟩ := spawn_refused remains hi.toTable
            (hidle.imp_right hi.toTable.count_full.mp)
          rw [hs] at h
          cases h
          rfl
        | getTid => rfl
        | getTotalQuantums => rfl
        | getQuantums tid => rfl
        | _ => exact (hr hidle).elim
      | spawn => rfl
      | block => rfl
      | resume => rfl
      | terminate => rfl

theorem unmaskSignals_of_not_masked (h : s.masked = false) : unmaskSignals s = s :=
  State.ext rfl rfl rfl rfl rfl rfl rfl rfl rfl h.symm

/-- What the library does with an event does not depend on the mask. -/
theorem step_unmasked (hi : Invariant s) (h : step (uthreads remains) s e = .ok (o, t))
    (ho : failed (e, o) = false) :
    step (uthreads remains) (unmaskSignals s) e = .ok (o, unmaskSignals t) := by
  have hmask := step_masked hi h
  have hunmasks : setsMask (e, o) = some false → unmaskSignals t = t := fun hset =>
    unmaskSignals_of_not_masked (by rw [hmask, hset]; rfl)
  cases e with
  | timer =>
    have hs : s.masked = false := by
      cases hm : s.masked with
      | false => rfl
      | true => simp [step, hm] at h
    rw [unmaskSignals_of_not_masked hs, hunmasks rfl]
    exact h
  | call c =>
    cases c with
    | spawn entryPoint =>
      cases hcheck : spawnCheck entryPoint s with
      | inl err =>
        simp only [step, request, uthreadSpawn_refused hcheck, ok_bind, pure_ok] at h
        cases h
        cases ho
      | inr pc =>
        have hcheck' : spawnCheck entryPoint (unmaskSignals s) = .inr pc := hcheck
        have hmasked : spawnMasked pc (unmaskSignals s) = spawnMasked pc s := rfl
        rw [hunmasks (by cases o <;> first | rfl | cases ho), ← h]
        simp only [step, request, uthreadSpawn, hcheck, hcheck', hmasked]
    | getTid =>
      obtain ⟨c, hc, _⟩ := hi.current_live
      have hc' : (unmaskSignals s).curRunning = some c := hc
      simp only [step, request, uthreadGetTid, hc, hc', deref_some, ok_bind, pure_ok] at h ⊢
      cases h
      rfl
    | getTotalQuantums =>
      cases h
      rfl
    | getQuantums tid =>
      rcases checkValidTid_cases s tid with ⟨r, hr⟩ | ⟨_, err, herr⟩
      · have hr' : (unmaskSignals s).At tid r := hr
        simp only [step, request, uthreadGetQuantums_ok hr, uthreadGetQuantums_ok hr', ok_bind,
          pure_ok] at h ⊢
        cases h
        rfl
      · simp only [step, request, uthreadGetQuantums_invalid herr, ok_bind, pure_ok] at h
        cases h
        cases ho
    -- the other calls mask the signal before anything else
    | _ =>
      rw [hunmasks (by cases o <;> first | rfl | cases ho)]
      exact h

theorem failed_step (hi : Invariant s) (h : step (uthreads remains) s e = .ok (o, t))
    (ho : failed (e, o) = true) : unmaskSignals t = unmaskSignals s := by
  cases step_effect hi h with
  | switch => cases ho
  | quiet hq =>
    cases hq with
    | idle => rfl
    | spawn => cases ho
    | block => cases ho
    | resume => cases ho
    | terminate => cases ho

/-- The failed calls of a run can be left out: all the other events end as they did, and so
does the run, with the signal unmasked. Whether it was masked shows in the answers. -/
theorem failures_erase (h : Runs remains tr s) :
    Runs remains (tr.filter fun x => !failed x) (unmaskSignals s) ∧ s.masked = maskAfter tr := by
  refine (h.history (I := fun tr s => Invariant s ∧
    Runs remains (tr.filter fun x => !failed x) (unmaskSignals s) ∧ s.masked = maskAfter tr)
    ⟨initial_invariant, .nil initial, rfl⟩ ?_).2
  intro tr s e o t ⟨hi, hrun, hmask⟩ hs
  refine ⟨step_preserves_invariant hi hs, ?_, ?_⟩
  · rw [List.filter_append]
    cases ho : failed (e, o) with
    | true =>
      simp only [List.filter_cons, ho, List.filter_nil]
      rw [failed_step hi hs ho]
      simpa using hrun
    | false =>
      simp only [List.filter_cons, ho, List.filter_nil]
      exact hrun.append (.single (step_unmasked hi hs ho))
  · rw [step_masked hi hs, maskAfter_append, hmask]

/-- The refused resume at the end leaves the signal masked. -/
theorem failures_erase_two_failures :
    let es : List Event := [.call (.block 0), .call (.spawn (some 7)), .timer, .call (.resume 9)]
    Runs freedRecord ((history freedRecord initial es).filter fun x => !failed x)
        (unmaskSignals (after freedRecord initial es)) ∧
      (after freedRecord initial es).masked = maskAfter (history freedRecord initial es) :=
  failures_erase (runs_history freedRecord
    [.call (.block 0), .call (.spawn (some 7)), .timer, .call (.resume 9)] (by decide +kernel))

end CallErrors
