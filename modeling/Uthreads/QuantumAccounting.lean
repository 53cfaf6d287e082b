import Uthreads.ThreadInvariant
import Mathlib.Algebra.BigOperators.Group.Finset.Basic
import Mathlib.Algebra.BigOperators.Group.Finset.Piecewise
import Mathlib.Algebra.BigOperators.Ring.Finset

/-! # Quantum accounting

The total, the counter of each record and the dispatches of the run agree. -/
namespace QuantumAccounting

open ThreadLibrary SwitchSemantics CallEffects EventRuns ThreadInvariant

/-- The record counts in the sum: it is undeleted, or deletion keeps the counter. -/
def Counted (remains : ThreadRef → Thread → Thread) (s : State) (r : ThreadRef) : Prop :=
  r < s.nextRef ∧ (s.deleted r = false ∨ ∀ q T, (remains q T).quantum = T.quantum)

/-- Record 0 is main, which starts in its first quantum. -/
def dispatches (tr : List (Event × Outcome)) (r : ThreadRef) : ℤ :=
  (dispatched tr).count r + if r = 0 then 1 else 0

structure Accounts (remains : ThreadRef → Thread → Thread) (tr : List (Event × Outcome))
    (s : State) : Prop where
  total : s.totalQuantum = 1 + (dispatched tr).length
  quantum : ∀ r, Counted remains s r → (s.heap r).quantum = dispatches tr r
  main : s.allThreads 0 = some 0
  known : ∀ r ∈ dispatched tr, r < s.nextRef

variable {remains : ThreadRef → Thread → Thread} {s t : State} {tr : List (Event × Outcome)}
  {e : Event} {o : Outcome}

theorem accounts_initial : Accounts remains [] initial := by
  refine ⟨rfl, ?_, rfl, by simp [dispatched]⟩
  rintro r ⟨hr, _⟩
  obtain rfl : r = 0 := Nat.lt_one_iff.mp hr
  rfl

/-- A step without a switch that leaves the counters alone. -/
theorem Accounts.quiet (h : Accounts remains tr s) (ho : ∀ next v, o ≠ .dispatched next v)
    (htotal : t.totalQuantum = s.totalQuantum) (hmain : t.allThreads 0 = s.allThreads 0)
    (hnext : s.nextRef ≤ t.nextRef)
    (hq : ∀ r, Counted remains t r → (t.heap r).quantum = dispatches tr r) :
    Accounts remains (tr ++ [(e, o)]) t := by
  have hd := dispatched_quiet tr e ho
  constructor
  case total => rw [hd, htotal]; exact h.total
  case quantum => simpa only [dispatches, hd] using hq
  case main => rw [hmain]; exact h.main
  case known => intro r hr; rw [hd] at hr; exact lt_of_lt_of_le (h.known r hr) hnext

theorem dispatches_switch (tr : List (Event × Outcome)) (e : Event) (next r : ThreadRef)
    (v : Option ℤ) : dispatches (tr ++ [(e, .dispatched next v)]) r =
      dispatches tr r + if r = next then 1 else 0 := by
  simp only [dispatches, dispatched_switch, List.count_append]
  by_cases hr : r = next
  · subst hr; simp; omega
  · simp [hr, Ne.symm hr]

theorem terminated_counted {i : Fin maxThreadNum} {r q : ThreadRef}
    (h : Counted remains (terminated remains i r s) q) :
    Counted remains s q ∧ ((terminated remains i r s).heap q).quantum = (s.heap q).quantum := by
  by_cases hq : q = r
  · subst hq
    obtain ⟨hlt, hd | hk⟩ := h
    · rw [terminated_deleted] at hd
      cases hd
    · refine ⟨⟨hlt, Or.inr hk⟩, ?_⟩
      simp [terminated, hk]
  · refine ⟨⟨h.1, h.2.imp_left fun hd => ?_⟩, by rw [terminated_of_ne hq]⟩
    simpa only [terminated_deleted_of_ne remains i s hq] using hd

/-- Entering a switch changes no counter. -/
theorem enters_counted {c : ThreadRef} {ctx : Context} {s' : State}
    (h : Enters remains s e c ctx s') :
    s'.totalQuantum = s.totalQuantum ∧ s'.nextRef = s.nextRef ∧
      s'.allThreads 0 = s.allThreads 0 ∧
      ∀ q, Counted remains s' q →
        Counted remains s q ∧ (s'.heap q).quantum = (s.heap q).quantum := by
  cases h with
  | timer => exact ⟨rfl, rfl, rfl, fun q hq => ⟨hq, rfl⟩⟩
  | @blockSelf _ c =>
    refine ⟨rfl, rfl, rfl, fun q hq => ⟨hq, ?_⟩⟩
    by_cases hqc : q = c
    · subst hqc; rw [blocked_self]
    · rw [blocked_of_ne hqc]
  | @sleep n c =>
    refine ⟨rfl, rfl, rfl, fun q hq => ⟨hq, ?_⟩⟩
    by_cases hqc : q = c
    · subst hqc; rw [asleep_self]
    · rw [asleep_of_ne hqc]
  | @exit i c hi h0 hc =>
    exact ⟨rfl, rfl, Function.update_of_ne (Ne.symm h0) .., fun q hq => terminated_counted hq⟩

theorem accounts_quiet {call : Call} (hi : Invariant s) (h : Accounts remains tr s)
    (hq : Quiet remains s call o t) : Accounts remains (tr ++ [(.call call, o)]) t := by
  cases hq with
  | idle b _ ho => exact h.quiet ho rfl rfl le_rfl h.quantum
  | @spawn pc i hfree =>
    refine h.quiet (by simp) rfl (Function.update_of_ne (Ne.symm hfree.1) ..) (Nat.le_succ _) ?_
    intro r hr
    by_cases hrn : r = s.nextRef
    · -- a fresh record has never been dispatched, whoever held its identifier before
      subst hrn
      have hcount : (dispatched tr).count s.nextRef = 0 :=
        List.count_eq_zero.mpr fun hm => lt_irrefl _ (h.known _ hm)
      have hpos : s.nextRef ≠ 0 := Nat.ne_of_gt (hi.live_allocated 0 ⟨0, h.main⟩)
      change ((spawned i pc s).heap s.nextRef).quantum = _
      rw [spawned_self]
      simp [dispatches, hcount, hpos, spawnedThread]
    · have hlt : r < s.nextRef := lt_of_le_of_ne (Nat.le_of_lt_succ hr.1) hrn
      change ((spawned i pc s).heap r).quantum = _
      rw [spawned_of_ne hrn]
      exact h.quantum r ⟨hlt, hr.2⟩
  | @block tid r c =>
    refine h.quiet (by simp) rfl rfl le_rfl fun q hq => ?_
    change ((blocked r s).heap q).quantum = _
    by_cases hqr : q = r
    · subst hqr; rw [blocked_self]; exact h.quantum q hq
    · rw [blocked_of_ne hqr]; exact h.quantum q hq
  | @resume tid r =>
    refine h.quiet (by simp) rfl rfl le_rfl fun q hq => ?_
    change ((resumed r s).heap q).quantum = _
    by_cases hqr : q = r
    · subst hqr; rw [resumed_self]; exact h.quantum q hq
    · rw [resumed_of_ne hqr]; exact h.quantum q hq
  | @terminate i r c hcell h0 =>
    refine h.quiet (by simp) rfl (Function.update_of_ne (Ne.symm h0) ..) le_rfl fun q hq => ?_
    obtain ⟨hq', hsame⟩ := terminated_counted (s := s) (i := i) hq
    exact hsame.trans (h.quantum q hq')

theorem accounts_step (hi : Invariant s) (h : Accounts remains tr s)
    (hs : step (uthreads remains) s e = .ok (o, t)) : Accounts remains (tr ++ [(e, o)]) t := by
  cases step_effect hi hs with
  | quiet hq => exact accounts_quiet hi h hq
  | @switch _ c ctx s' next v _ henters hdisp =>
    obtain ⟨htotal, hnext, hmain, hcounted⟩ := enters_counted henters
    obtain ⟨hcons, hknown, _⟩ := enters_consistent hi henters
    constructor
    case total =>
      rw [hdisp.totalQuantum, htotal, h.total, dispatched_switch]
      simp
      omega
    case quantum =>
      intro r hr
      have hr' : Counted remains s' r := by
        simpa only [Counted, hdisp.nextRef, hdisp.deleted] using hr
      obtain ⟨hrs, hsame⟩ := hcounted r hr'
      rw [hdisp.quantum, hsame, h.quantum r hrs, dispatches_switch]
    case main => rw [hdisp.allThreads, hmain]; exact h.main
    case known =>
      intro r hr
      rw [dispatched_switch] at hr
      rw [hdisp.nextRef, hnext]
      rcases List.mem_append.mp hr with hr | hr
      · exact h.known r hr
      · obtain rfl := List.mem_singleton.mp hr
        rw [← hnext]
        exact hcons.live_allocated r
          (switch_next_live hcons hknown hdisp.toSwitch hdisp.alive)

theorem reachable_accounts (h : Runs remains tr s) : Accounts remains tr s := by
  have := h.history (I := fun tr s => Invariant s ∧ Accounts remains tr s)
    ⟨initial_invariant, accounts_initial⟩
    fun tr s e o t hi hs => ⟨step_preserves_invariant hi.1 hs, accounts_step hi.1 hi.2 hs⟩
  exact this.2

/-- Summed over all records ever created, the dispatches give the total. -/
theorem sum_dispatches (n : ℕ) (hpos : 0 < n) (hknown : ∀ r ∈ dispatched tr, r < n) :
    ∑ r ∈ Finset.range n, dispatches tr r = 1 + (dispatched tr).length := by
  have hcount : ∑ r ∈ Finset.range n, ((dispatched tr).count r : ℤ) = (dispatched tr).length := by
    have := Multiset.sum_count_eq_card (s := Finset.range n) (m := (dispatched tr : Multiset ℕ))
      fun r hr => Finset.mem_range.mpr (hknown r (Multiset.mem_coe.mp hr))
    simp only [Multiset.coe_count, Multiset.coe_card] at this
    rw [← this, Nat.cast_sum]
  have hmain : ∑ r ∈ Finset.range n, (if r = 0 then (1 : ℤ) else 0) = 1 := by
    rw [Finset.sum_ite_eq', if_pos (Finset.mem_range.mpr hpos)]
  simp only [dispatches, Finset.sum_add_distrib, hcount, hmain]
  omega

theorem quantum_accounting (h : Runs remains tr s) :
    step (uthreads remains) s (.call .getTotalQuantums) =
        .ok (.returned (1 + (dispatched tr).length), s) ∧
      (∀ tid r, s.At tid r → step (uthreads remains) s (.call (.getQuantums tid)) =
        .ok (.returned ((dispatched tr).count r + if tid = mainThreadTid then 1 else 0), s)) ∧
      ((∀ r T, (remains r T).quantum = T.quantum) →
        s.totalQuantum = ∑ r ∈ Finset.range s.nextRef, (s.heap r).quantum) := by
  have hi := reachable_invariant h
  have ha := reachable_accounts h
  refine ⟨?_, ?_, ?_⟩
  · simp only [step, request, uthreadGetTotalQuantums, ok_bind, pure_ok, ha.total]
  · intro tid r hr
    have hlive := At.live hr
    have hq := ha.quantum r ⟨hi.live_allocated r hlive, Or.inl (hi.live_not_deleted r hlive)⟩
    have hmain : r = 0 ↔ tid = mainThreadTid := by
      constructor
      · rintro rfl
        obtain ⟨i, hid, hcell⟩ := hr
        have := hi.distinct i 0 0 hcell ha.main
        subst this
        exact hid.symm
      · rintro rfl
        exact At.unique hr ⟨0, rfl, ha.main⟩
    simp only [step, request, uthreadGetQuantums, checkValidTid_ok hr, readQuantum,
      threadAt_ok hr, ok_bind, pure_ok, hq, dispatches, hmain]
  · intro hkeep
    have hsum : ∀ r ∈ Finset.range s.nextRef, (s.heap r).quantum = dispatches tr r :=
      fun r hr => ha.quantum r ⟨Finset.mem_range.mp hr, Or.inr hkeep⟩
    have hpos := hi.live_allocated 0 ⟨0, ha.main⟩
    rw [Finset.sum_congr rfl hsum, sum_dispatches s.nextRef (by omega) ha.known, ha.total]

/-- A thread that terminates itself and a second one under the same identifier. -/
theorem quantum_accounting_reused_tid :
    let es : List Event := [.call (.spawn (some 7)), .timer, .call (.terminate 1),
      .call (.spawn (some 8)), .timer, .timer]
    dispatched (history freedRecord initial es) = [1, 0, 2, 0] ∧
      step (uthreads freedRecord) (after freedRecord initial es) (.call .getTotalQuantums) =
        .ok (.returned (1 + (dispatched (history freedRecord initial es)).length),
          after freedRecord initial es) ∧
      (after freedRecord initial es).totalQuantum =
        ∑ r ∈ Finset.range (after freedRecord initial es).nextRef,
          ((after freedRecord initial es).heap r).quantum := by
  intro es
  have h := quantum_accounting (runs_history freedRecord es (by decide +kernel))
  exact ⟨by decide +kernel, h.1, h.2.2 fun _ _ => rfl⟩

end QuantumAccounting
