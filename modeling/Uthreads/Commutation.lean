import Uthreads.ThreadInvariant

/-! # Operations on different threads

Block, resume and terminate change one record, one cell and the entries of one thread. Two of
them on different threads commute, but for the order in which two resumes append. -/
namespace Commutation

open ThreadLibrary SwitchSemantics CallEffects EventRuns ThreadInvariant

inductive Operation where
  | block
  | resume
  | terminate
  deriving DecidableEq, Repr

def Operation.call (tid : ℤ) : Operation → Call
  | .block => .block tid
  | .resume => .resume tid
  | .terminate => .terminate tid

/-- What the operation does to the thread `r` of cell `i`. -/
def Operation.effect (remains : ThreadRef → Thread → Thread) (i : Fin maxThreadNum)
    (r : ThreadRef) (s : State) : Operation → State
  | .block => blocked r s
  | .resume => resumed r s
  | .terminate => terminated remains i r s

variable {remains : ThreadRef → Thread → Thread} {s t : State} {i j : Fin maxThreadNum}
  {r q : ThreadRef} {tr : List (Event × Outcome)}

/-- A thread that is neither main nor running: the call returns 0 without a switch. -/
theorem operation_step (remains : ThreadRef → Thread → Thread) (op : Operation)
    (hi : Invariant s) (hr : s.allThreads i = some r)
    (h0 : i ≠ 0) (hcur : s.curRunning ≠ some r) :
    step (uthreads remains) s (.call (op.call (i : ℕ))) =
      .ok (.returned 0, unmaskSignals (op.effect remains i r s)) := by
  obtain ⟨c, hc, hlive⟩ := hi.current_live
  have hat : s.At (i : ℕ) r := ⟨i, rfl, hr⟩
  have hcr : c ≠ r := by
    rintro rfl
    exact hcur hc
  have hid : (s.heap c).id ≠ (i : ℕ) := by
    intro hid
    exact hcr (At.unique ((hi.at_iff hlive _).mpr hid) hat)
  cases op with
  | block =>
    have htid : ((i : ℕ) : ℤ) ≠ mainThreadTid := fun h => h0 (Fin.ext (by simpa using h))
    have hm : (maskSignals s).At (i : ℕ) r := hat
    have hblock := uthreadBlock_ok (V := uthreads remains) (blocked r) hat htid
      (blockThread_ok hm) hc
    have hother : ((blocked r (maskSignals s)).heap c).id ≠ (i : ℕ) := by
      rw [blocked_of_ne hcr]
      exact hid
    rw [if_neg hother] at hblock
    simp only [step, request, Operation.call, hblock, ok_bind, pure_ok]
    rfl
  | resume =>
    simp only [step, request, Operation.call, uthreadResume_ok hat, ok_bind, pure_ok]
    rfl
  | terminate =>
    have hterm := uthreadTerminate_other (V := uthreads remains) hr h0 hc hid
    simp only [step, request, Operation.call, hterm, ok_bind, pure_ok]
    rfl

section Parts

variable (remains) (i) (r) (s)

theorem requeues_congr (h : t.heap r = s.heap r) : Requeues t r ↔ Requeues s r := by
  simp only [Requeues, h]

/-- What the state says about one address: its record, and its membership in `deleted` and in
`blockedID`. -/
def view (s : State) (x : ThreadRef) : Thread × Bool × Bool :=
  (s.heap x, s.deleted x, decide (x ∈ s.blockedID))

/-- An operation is local. -/
theorem effect_view_of_ne (op : Operation) (h : q ≠ r) :
    view (op.effect remains i r s) q = view s q := by
  cases op with
  | block => simp [view, Operation.effect, blocked, modifyThread_of_ne _ _ h, h]
  | resume =>
    by_cases hreq : Requeues s r
    · simp [view, Operation.effect, resumed, modifyThread_of_ne _ _ h, hreq, h]
    · simp [view, Operation.effect, resumed, modifyThread_of_ne _ _ h, hreq]
  | terminate => simp [view, Operation.effect, terminated, h]

/-- The new view of its own thread depends on the old one and on nothing else. -/
theorem effect_view_self (op : Operation) (h : view t r = view s r) :
    view (op.effect remains i r t) r = view (op.effect remains i r s) r := by
  simp only [view, Prod.mk.injEq, decide_eq_decide] at h
  obtain ⟨hheap, hdeleted, hset⟩ := h
  have hreq := requeues_congr s r hheap
  cases op with
  | block => simp [view, Operation.effect, blocked, hheap, hdeleted]
  | resume =>
    by_cases hs : Requeues s r
    · simp [view, Operation.effect, resumed, hheap, hdeleted, hreq, hs]
    · simp [view, Operation.effect, resumed, hheap, hdeleted, hreq, hs, hset]
  | terminate => simp [view, Operation.effect, terminated, hheap, hset]

theorem effect_allThreads (op : Operation) : (op.effect remains i r s).allThreads =
    if op = .terminate then Function.update s.allThreads i none else s.allThreads := by
  cases op <;> rfl

theorem effect_countReady (op : Operation) : (op.effect remains i r s).countReady =
    s.countReady - if op = .terminate then 1 else 0 := by
  cases op with
  | block => exact (Int.sub_zero _).symm
  | resume => exact (Int.sub_zero _).symm
  | terminate => rfl

/-- The entries that survive. -/
def Operation.keeps (r : ThreadRef) : Operation → ThreadRef → Bool
  | .terminate, q => decide (q ≠ r)
  | _, _ => true

/-- The entry that is appended. -/
def Operation.pushed (s : State) (r : ThreadRef) : Operation → List ThreadRef
  | .resume => if Requeues s r then [r] else []
  | _ => []

theorem effect_readyQueue (op : Operation) : (op.effect remains i r s).readyQueue =
    s.readyQueue.filter (op.keeps r) ++ op.pushed s r := by
  have hall : s.readyQueue.filter (fun _ => true) = s.readyQueue := List.filter_true _
  cases op with
  | block => simp only [Operation.pushed, List.append_nil]; exact hall.symm
  | resume => exact congrArg (· ++ _) hall.symm
  | terminate => simp only [Operation.pushed, List.append_nil]; rfl

theorem pushed_congr (op : Operation) (h : view t r = view s r) :
    op.pushed t r = op.pushed s r := by
  have hreq := requeues_congr s r (congrArg Prod.fst h)
  cases op <;> simp only [Operation.pushed, hreq]

theorem filter_pushed (op op' : Operation) (h : r ≠ q) :
    (op.pushed s r).filter (op'.keeps q) = op.pushed s r := by
  apply List.filter_eq_self.mpr
  intro x hx
  cases op' with
  | terminate =>
    have hxr : x = r := by
      cases op with
      | resume =>
        simp only [Operation.pushed] at hx
        split at hx
        · exact List.mem_singleton.mp hx
        · cases hx
      | block => cases hx
      | terminate => cases hx
    subst hxr
    exact decide_eq_true h
  | block => rfl
  | resume => rfl

theorem effect_curRunning (op : Operation) :
    (op.effect remains i r s).curRunning = s.curRunning := by
  cases op <;> rfl

theorem effect_unmask (op : Operation) :
    op.effect remains i r (unmaskSignals s) = unmaskSignals (op.effect remains i r s) := by
  cases op <;> rfl

end Parts

/-- The two operations append the entries of two resumes. -/
def BothPush (s : State) (op op' : Operation) (r q : ThreadRef) : Prop :=
  op = .resume ∧ op' = .resume ∧ Requeues s r ∧ Requeues s q

/-- The queue after `op` on `r` and then `op'` on `q`. -/
def queueAfter (s : State) (op op' : Operation) (r q : ThreadRef) : List ThreadRef :=
  (s.readyQueue.filter (op.keeps r)).filter (op'.keeps q) ++ op.pushed s r ++ op'.pushed s q

section Pairs

variable (op op' : Operation)

theorem effects_view (remains : ThreadRef → Thread → Thread) (s : State)
    (i j : Fin maxThreadNum) (h : r ≠ q) (x : ThreadRef) :
    view (op'.effect remains j q (op.effect remains i r s)) x =
      view (op.effect remains i r (op'.effect remains j q s)) x := by
  by_cases hr : x = r
  · subst hr
    rw [effect_view_of_ne remains _ j q op' h]
    exact (effect_view_self remains s i x op (effect_view_of_ne remains s j q op' h)).symm
  · by_cases hq : x = q
    · subst hq
      rw [effect_view_of_ne remains _ i r op hr]
      exact effect_view_self remains s j x op' (effect_view_of_ne remains s i r op hr)
    · rw [effect_view_of_ne remains _ j q op' hq, effect_view_of_ne remains _ i r op hr,
        effect_view_of_ne remains _ i r op hr, effect_view_of_ne remains _ j q op' hq]

theorem effects_readyQueue (remains : ThreadRef → Thread → Thread) (s : State)
    (i j : Fin maxThreadNum) (h : r ≠ q) :
    (op'.effect remains j q (op.effect remains i r s)).readyQueue = queueAfter s op op' r q := by
  rw [effect_readyQueue, effect_readyQueue, List.filter_append, filter_pushed s r op op' h,
    pushed_congr s q op' (effect_view_of_ne remains s i r op (Ne.symm h)), queueAfter]

/-- Everything but the queue is the same in either order. -/
theorem effects_frame (remains : ThreadRef → Thread → Thread) (s : State) (h : r ≠ q)
    (hij : i ≠ j) :
    op'.effect remains j q (op.effect remains i r s) =
      { op.effect remains i r (op'.effect remains j q s) with
        readyQueue := queueAfter s op op' r q } := by
  have hview := effects_view op op' remains s i j h
  apply State.ext
  case heap => exact funext fun x => congrArg Prod.fst (hview x)
  case deleted => exact funext fun x => congrArg (fun v => v.2.1) (hview x)
  case blockedID =>
    ext x
    have hset := congrArg (fun v => v.2.2) (hview x)
    simpa only [view, decide_eq_decide] using hset
  case readyQueue => exact effects_readyQueue op op' remains s i j h
  case allThreads =>
    simp only [effect_allThreads]
    split <;> split <;> first | rfl | exact Function.update_comm hij ..
  case countReady =>
    simp only [effect_countReady]
    omega
  case nextRef => cases op <;> cases op' <;> rfl
  case curRunning => simp only [effect_curRunning]
  case totalQuantum => cases op <;> cases op' <;> rfl
  case masked => cases op <;> cases op' <;> rfl

/-- The order matters for the queue only if both operations append. -/
theorem queueAfter_comm (s : State) (r q : ThreadRef) (h : ¬ BothPush s op op' r q) :
    queueAfter s op op' r q = queueAfter s op' op q r := by
  have hone : op.pushed s r = [] ∨ op'.pushed s q = [] := by
    by_contra hboth
    obtain ⟨hop, hop'⟩ := not_or.mp hboth
    apply h
    cases op with
    | resume =>
      cases op' with
      | resume =>
        refine ⟨rfl, rfl, ?_, ?_⟩
        · exact by_contra fun hr => hop (if_neg hr)
        · exact by_contra fun hq => hop' (if_neg hq)
      | block => exact (hop' rfl).elim
      | terminate => exact (hop' rfl).elim
    | block => exact (hop rfl).elim
    | terminate => exact (hop rfl).elim
  unfold queueAfter
  rw [List.filter_comm]
  rcases hone with hnil | hnil
  · rw [hnil, List.append_nil, List.append_nil]
  · rw [hnil, List.append_nil, List.append_nil]

theorem queueAfter_bothPush (s : State) (r q : ThreadRef) (h : BothPush s op op' r q) :
    queueAfter s op op' r q = s.readyQueue ++ [r, q] ∧
      queueAfter s op' op q r = s.readyQueue ++ [q, r] := by
  obtain ⟨rfl, rfl, hr, hq⟩ := h
  have hall : ∀ l : List ThreadRef, ∀ x, l.filter (Operation.resume.keeps x) = l :=
    fun _ _ => List.filter_true _
  simp only [queueAfter, hall, Operation.pushed, if_pos hr, if_pos hq, List.append_assoc,
    List.singleton_append, and_self]

end Pairs

theorem operations_run (op op' : Operation) (hi : Invariant s) (hr : s.allThreads i = some r)
    (hq : s.allThreads j = some q) (hi0 : i ≠ 0) (hj0 : j ≠ 0) (hij : i ≠ j)
    (hcr : s.curRunning ≠ some r) (hcq : s.curRunning ≠ some q) :
    Exec (step (uthreads remains)) s
      [(.call (op.call (i : ℕ)), .returned 0), (.call (op'.call (j : ℕ)), .returned 0)]
      (unmaskSignals (op'.effect remains j q (op.effect remains i r s))) := by
  have hfirst := operation_step remains op hi hr hi0 hcr
  have hinv := step_preserves_invariant hi hfirst
  have hcell : (unmaskSignals (op.effect remains i r s)).allThreads j = some q := by
    change (op.effect remains i r s).allThreads j = some q
    rw [effect_allThreads]
    split
    · rw [Function.update_of_ne (Ne.symm hij)]
      exact hq
    · exact hq
  have hcur : (unmaskSignals (op.effect remains i r s)).curRunning ≠ some q := by
    change (op.effect remains i r s).curRunning ≠ some q
    rw [effect_curRunning]
    exact hcq
  have hsecond := operation_step remains op' hinv hcell hj0 hcur
  rw [effect_unmask] at hsecond
  exact .cons hfirst (.cons hsecond (.nil _))

/-- Both orders run and return 0, and they end in the same state, unless both calls are
resumes of BLOCKED and awake threads: then the last two entries are swapped. -/
theorem operations_commute (h : Runs remains tr s) {a b : ℤ} (ha : s.At a r) (hb : s.At b q)
    (hab : a ≠ b) (ha0 : a ≠ mainThreadTid) (hb0 : b ≠ mainThreadTid)
    (hcr : s.curRunning ≠ some r) (hcq : s.curRunning ≠ some q) (op op' : Operation) :
    ∃ t t',
      Exec (step (uthreads remains)) s
        [(.call (op.call a), .returned 0), (.call (op'.call b), .returned 0)] t ∧
      Exec (step (uthreads remains)) s
        [(.call (op'.call b), .returned 0), (.call (op.call a), .returned 0)] t' ∧
      (¬ BothPush s op op' r q → t = t') ∧
      (BothPush s op op' r q → t.readyQueue = s.readyQueue ++ [r, q] ∧
        t' = { t with readyQueue := s.readyQueue ++ [q, r] }) := by
  have hi := reachable_invariant h
  have hrq := hi.at_ne ha hb (Ne.symm hab)
  obtain ⟨i, rfl, hr⟩ := ha
  obtain ⟨j, rfl, hq⟩ := hb
  have hi0 : i ≠ 0 := by
    rintro rfl
    exact ha0 rfl
  have hj0 : j ≠ 0 := by
    rintro rfl
    exact hb0 rfl
  have hij : i ≠ j := by
    rintro rfl
    exact hab rfl
  have hframe := effects_frame op op' remains s hrq hij
  have hqueue := effects_readyQueue op' op remains s j i (Ne.symm hrq)
  refine ⟨_, _, operations_run op op' hi hr hq hi0 hj0 hij hcr hcq,
    operations_run op' op hi hq hr hj0 hi0 (Ne.symm hij) hcq hcr, ?_, ?_⟩
  · intro hnot
    rw [hframe, queueAfter_comm op op' s r q hnot, ← hqueue]
  · intro hboth
    obtain ⟨hleft, hright⟩ := queueAfter_bothPush op op' s r q hboth
    rw [hframe, hleft, ← hright, ← hqueue]
    exact ⟨rfl, rfl⟩

/-- Two blocked threads resumed in either order. -/
theorem operations_commute_two_resumes :
    let s := after freedRecord initial [.call (.spawn (some 7)), .call (.spawn (some 8)),
      .call (.block 1), .call (.block 2)]
    ∃ t t',
      Exec (step (uthreads freedRecord)) s
        [(.call (.resume 1), .returned 0), (.call (.resume 2), .returned 0)] t ∧
      Exec (step (uthreads freedRecord)) s
        [(.call (.resume 2), .returned 0), (.call (.resume 1), .returned 0)] t' ∧
      t.readyQueue = s.readyQueue ++ [1, 2] ∧
      t' = { t with readyQueue := s.readyQueue ++ [2, 1] } := by
  intro s
  have hcell : s.allThreads 1 = some 1 ∧ s.allThreads 2 = some 2 := by decide +kernel
  have hcur : s.curRunning = some 0 := by decide +kernel
  obtain ⟨t, t', hrun, hrun', _, hswap⟩ := operations_commute (r := 1) (q := 2)
    (runs_history freedRecord _ (by decide +kernel)) ⟨1, rfl, hcell.1⟩ ⟨2, rfl, hcell.2⟩
    (by decide) (by decide) (by decide) (by rw [hcur]; simp) (by rw [hcur]; simp)
    .resume .resume
  have hboth : BothPush s .resume .resume 1 2 :=
    ⟨rfl, rfl, by decide +kernel, by decide +kernel⟩
  obtain ⟨hqueue, hsame⟩ := hswap hboth
  exact ⟨t, t', hrun, hrun', hqueue, hsame⟩

end Commutation
