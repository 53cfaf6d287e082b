import Uthreads.QuantumAccounting

/-! # Waiting by polling

`threadQuantumSleep` of the test suite: a thread reads its own quantum count and polls it until
it has moved by a given number. Main uses it too, which must not call `uthread_sleep`. -/
namespace QuantumSleep

open ThreadLibrary SwitchSemantics CallEffects EventRuns ThreadInvariant QuantumAccounting

/-- Where the caller is in `threadQuantumSleep`, with the variables it has set. -/
inductive Phase where
  | entered
  | named (myId : ℤ)
  | polling (myId last : ℤ)
  | left
  deriving DecidableEq, Repr

structure Sleeper where
  lib : State
  phase : Phase

/-- The caller goes on, or something else happens: a timer signal, or any call of another
thread. -/
inductive SleeperEvent where
  | own
  | other (e : Event)
  deriving DecidableEq, Repr

inductive Stop where
  | fault (f : Fault)
  | elsewhere
  deriving DecidableEq, Repr

def nextCall : Phase → Option Call
  | .entered => some .getTid
  | .named myId => some (.getQuantums myId)
  | .polling myId _ => some (.getQuantums myId)
  | .left => none

/-- The loop goes on while the count differs from `last`. -/
def afterCall (threadQuants value : ℤ) : Phase → Phase
  | .entered => .named value
  | .named myId => .polling myId (value + threadQuants)
  | .polling myId last => if value ≠ last then .polling myId last else .left
  | .left => .left

/-- What the caller reads from a call that does not switch. -/
def valueRead : Outcome → ℤ
  | .returned value => value
  | _ => -1

/-- The thread `r` has called `threadQuantumSleep(threadQuants)`. -/
def sleepStep (V : Variant) (r : ThreadRef) (threadQuants : ℤ) (w : Sleeper) :
    SleeperEvent → Except Stop ((Event × Outcome) × Sleeper)
  | .own =>
    match nextCall w.phase with
    | none => .error .elsewhere
    | some c =>
      if w.lib.curRunning = some r then
        match step V w.lib (.call c) with
        | .error f => .error (.fault f)
        | .ok (o, s) => .ok ((.call c, o), ⟨s, afterCall threadQuants (valueRead o) w.phase⟩)
      else .error .elsewhere
  | .other e =>
    if e ≠ .timer ∧ w.lib.curRunning = some r ∧ w.phase ≠ .left then .error .elsewhere
    else
      match step V w.lib e with
      | .error f => .error (.fault f)
      | .ok (o, s) => .ok ((e, o), { w with lib := s })

/-- The quantums of `r` that began. -/
def begun (r : ThreadRef) (T : List (SleeperEvent × (Event × Outcome))) : ℕ :=
  (dispatched (T.map Prod.snd)).count r

/-- `r` goes on in the quantum that is its `n`-th from here. -/
def PollsIn (r : ThreadRef) (n : ℕ) (T : List (SleeperEvent × (Event × Outcome))) : Prop :=
  ∃ pre x post, T = pre ++ (.own, x) :: post ∧ begun r pre = n

variable {remains : ThreadRef → Thread → Thread} {s t : State} {r : ThreadRef} {e : Event}
  {o : Outcome} {tid : ℤ} {n : ℕ} {k : ℤ} {w w' : Sleeper} {x : Event × Outcome}
  {tr : List (Event × Outcome)} {T : List (SleeperEvent × (Event × Outcome))}

/-- As long as `r` is in the table it is in cell `tid`, and its address is not given again. -/
structure Keeps (s : State) (r : ThreadRef) (tid : ℤ) : Prop where
  allocated : r < s.nextRef
  cell : s.Live r → s.At tid r

theorem Keeps.frame (h : Keeps s r tid) (hnext : t.nextRef = s.nextRef)
    (htable : t.allThreads = s.allThreads) : Keeps t r tid := by
  refine ⟨hnext ▸ h.allocated, fun hr => ?_⟩
  have hat := h.cell (by simpa only [State.Live, htable] using hr)
  simpa only [State.At, htable] using hat

theorem Keeps.terminated (remains : ThreadRef → Thread → Thread) (h : Keeps s r tid)
    (ht : Table s) {i : Fin maxThreadNum} {q : ThreadRef} (hi : s.allThreads i = some q) :
    Keeps (CallEffects.terminated remains i q s) r tid := by
  refine ⟨h.allocated, fun hr => ?_⟩
  obtain ⟨hlive, hrq⟩ := (terminated_live ht remains hi r).mp hr
  exact terminated_at remains hi (h.cell hlive) hrq

theorem Keeps.step (h : Keeps s r tid) (hi : Invariant s)
    (hs : step (uthreads remains) s e = .ok (o, t)) : Keeps t r tid := by
  cases step_effect hi hs with
  | quiet hq =>
    cases hq with
    | idle => exact h.frame rfl rfl
    | @spawn pc i hfree =>
      refine ⟨h.allocated.trans (Nat.lt_succ_self _), fun hr => ?_⟩
      have hlive := ((spawned_live pc hfree r).mp hr).resolve_left h.allocated.ne
      exact spawned_at pc hfree (h.cell hlive)
    | block => exact h.frame rfl rfl
    | resume => exact h.frame rfl rfl
    | terminate hq => exact (h.terminated remains hi.toTable hq).frame rfl rfl
  | @switch _ c ctx s' _ _ _ he hd =>
    have h' : Keeps s' r tid := by
      cases he with
      | timer => exact h
      | blockSelf => exact h.frame rfl rfl
      | sleep => exact h.frame rfl rfl
      | exit hq => exact h.terminated remains hi.toTable hq
    exact h'.frame hd.nextRef hd.allThreads

/-- The caller is running, so its record is in the table and the count is its own. -/
theorem poll_reads (h : Runs remains tr s) (hc : s.curRunning = some r) (hk : Keeps s r tid) :
    step (uthreads remains) s (.call (.getQuantums tid)) =
      .ok (.returned (dispatches tr r), s) := by
  have hi := reachable_invariant h
  obtain ⟨d, hd, hlive⟩ := hi.current_live
  obtain rfl := Option.some.inj (hd.symm.trans hc)
  have hquantum := (reachable_accounts h).quantum d
    ⟨hk.allocated, Or.inl (hi.live_not_deleted d hlive)⟩
  simp only [step, request, uthreadGetQuantums_ok (hk.cell hlive), ok_bind, pure_ok, hquantum]

theorem sleepStep_contains (V : Variant) (r : ThreadRef) (k : ℤ) :
    Contains (step V) (sleepStep V r k) Sleeper.lib fun x => some x.2 := by
  intro w e x w' h
  refine ⟨fun hx => (by cases hx), fun y hy => ?_⟩
  cases hy
  cases e with
  | own =>
    simp only [sleepStep] at h
    split at h
    · cases h
    · split at h
      · split at h
        · cases h
        · rename_i hs
          cases h
          exact hs
      · cases h
  | other e =>
    simp only [sleepStep] at h
    split at h
    · cases h
    · split at h
      · cases h
      · rename_i hs
        cases h
        exact hs

theorem sleepStep_run (h : Runs remains tr w.lib)
    (hx : Exec (sleepStep (uthreads remains) r n) w T w') :
    Runs remains (tr ++ T.map Prod.snd) w'.lib := by
  have hproj := hx.project (sleepStep_contains _ r n)
  rw [List.filterMap_eq_map'] at hproj
  exact h.append hproj

theorem begun_append (T T' : List (SleeperEvent × (Event × Outcome))) :
    begun r (T ++ T') = begun r T + begun r T' := by
  simp only [begun, List.map_append, dispatched_append, List.count_append]

theorem dispatches_append (tr : List (Event × Outcome)) :
    dispatches (tr ++ T.map Prod.snd) r = dispatches tr r + begun r T := by
  simp only [dispatches, begun, dispatched_append, List.count_append]
  omega

theorem pollsIn_snoc (x : SleeperEvent × (Event × Outcome)) :
    PollsIn r n (T ++ [x]) ↔ PollsIn r n T ∨ (x.1 = .own ∧ begun r T = n) := by
  constructor
  · rintro ⟨pre, y, post, hT, hn⟩
    rcases List.eq_nil_or_concat post with rfl | ⟨post', z, rfl⟩
    · obtain ⟨rfl, rfl⟩ := List.append_inj' hT rfl |>.imp_right List.cons.inj |>.imp_right And.left
      exact Or.inr ⟨rfl, hn⟩
    · rw [List.concat_eq_append, ← List.cons_append, ← List.append_assoc] at hT
      exact Or.inl ⟨pre, y, post', (List.append_inj' hT rfl).1, hn⟩
  · rintro (⟨pre, y, post, rfl, hn⟩ | ⟨hx, hn⟩)
    · exact ⟨pre, y, post ++ [x], by simp, hn⟩
    · exact ⟨T, x.2, [], by rw [← hx], hn⟩

/-- The caller has read `v₀` quantums in state `w₀`; `T` has happened since. -/
structure Tracks (remains : ThreadRef → Thread → Thread) (tr : List (Event × Outcome))
    (r : ThreadRef) (tid : ℤ) (n : ℕ) (T : List (SleeperEvent × (Event × Outcome)))
    (w : Sleeper) : Prop where
  run : Runs remains (tr ++ T.map Prod.snd) w.lib
  keeps : Keeps w.lib r tid
  left : w.phase = .left ↔ PollsIn r n T
  stays : w.phase ≠ .left → w.phase = .polling tid (dispatches tr r + n)

/-- A caller that is running polls, whatever the others have done. -/
theorem polling_step (hp : w.phase = .polling tid k) (hrun : Runs remains tr w.lib)
    (hk : Keeps w.lib r tid) (hc : w.lib.curRunning = some r) :
    sleepStep (uthreads remains) r n w .own =
      .ok ((.call (.getQuantums tid), .returned (dispatches tr r)),
        ⟨w.lib, if dispatches tr r ≠ k then .polling tid k else .left⟩) := by
  simp only [sleepStep, hp, nextCall, hc, if_true, poll_reads hrun hc hk]
  rfl

theorem own_step (hs : sleepStep (uthreads remains) r n w .own = .ok (x, w'))
    (hp : w.phase = .polling tid k) (hrun : Runs remains tr w.lib) (hk : Keeps w.lib r tid) :
    w'.phase = if dispatches tr r ≠ k then .polling tid k else .left := by
  have hc : w.lib.curRunning = some r := by
    simp only [sleepStep, hp, nextCall] at hs
    split at hs
    · assumption
    · cases hs
  rw [polling_step hp hrun hk hc] at hs
  cases hs
  rfl

theorem other_step {e : Event} (hs : sleepStep (uthreads remains) r n w (.other e) = .ok (x, w')) :
    w'.phase = w.phase := by
  simp only [sleepStep] at hs
  split at hs
  · cases hs
  · split at hs
    · cases hs
    · cases hs
      rfl

theorem tracks_step {e : SleeperEvent} (h : Tracks remains tr r tid n T w)
    (hs : sleepStep (uthreads remains) r n w e = .ok (x, w')) :
    Tracks remains tr r tid n (T ++ [(e, x)]) w' := by
  have hrun := sleepStep_run h.run (.single hs)
  rw [List.append_assoc, ← List.map_append] at hrun
  have hlib := ((sleepStep_contains (uthreads remains) r n) w e x w' hs).2 x rfl
  have hkeeps := h.keeps.step (reachable_invariant h.run) hlib
  suffices hphase : (w'.phase = .left ↔ PollsIn r n (T ++ [(e, x)])) ∧
      (w'.phase ≠ .left → w'.phase = .polling tid (dispatches tr r + n)) from
    ⟨hrun, hkeeps, hphase.1, hphase.2⟩
  rw [pollsIn_snoc]
  cases e with
  | other e => simpa [other_step hs] using ⟨h.left, h.stays⟩
  | own =>
    have hstay : w.phase ≠ .left := by
      intro hleft
      simp only [sleepStep, hleft, nextCall] at hs
      cases hs
    have hnot : ¬ PollsIn r n T := fun hp => hstay (h.left.mpr hp)
    rw [own_step hs (h.stays hstay) h.run h.keeps, dispatches_append]
    by_cases hn : begun r T = n
    · simp [hn, hnot]
    · have hne : dispatches tr r + (begun r T : ℤ) ≠ dispatches tr r + n := by omega
      simp [hne, hn, hnot]

theorem tracks_run {T' : List (SleeperEvent × (Event × Outcome))}
    (h : Tracks remains tr r tid n T w) (hx : Exec (sleepStep (uthreads remains) r n) w T' w') :
    Tracks remains tr r tid n (T ++ T') w' := by
  induction hx generalizing T with
  | nil => rwa [List.append_nil]
  | cons hs _ ih =>
    have := ih (tracks_step h hs)
    rwa [List.append_assoc] at this

theorem waits_phase (hx : Exec (sleepStep (uthreads remains) r n) w T w')
    (hT : ∀ x ∈ T, x.1 ≠ .own) : w'.phase = w.phase := by
  induction hx with
  | nil => rfl
  | @cons w e x w₁ T w' hs _ ih =>
    rw [ih fun x hx => hT x (List.mem_cons_of_mem _ hx)]
    cases e with
    | own => exact (hT _ List.mem_cons_self rfl).elim
    | other e => exact other_step hs

theorem keeps_run (h : Runs remains tr s) (hk : Keeps s r tid) {tr' : List (Event × Outcome)}
    (hx : Exec (step (uthreads remains)) s tr' t) : Keeps t r tid := by
  have hboth := hx.invariant (I := fun s => Invariant s ∧ Keeps s r tid)
    ⟨reachable_invariant h, hk⟩
    fun _ _ _ _ hi hs => ⟨step_preserves_invariant hi.1 hs, hi.2.step hi.1 hs⟩
  exact hboth.2

/-- The caller learns its own identifier. -/
theorem entered_step (h : Runs remains tr s)
    (hs : sleepStep (uthreads remains) r n ⟨s, .entered⟩ .own = .ok (x, w)) :
    ∃ tid, w.phase = .named tid ∧ Keeps w.lib r tid := by
  have hi := reachable_invariant h
  simp only [sleepStep, nextCall] at hs
  split at hs
  · rename_i hc
    obtain ⟨d, hd, hlive⟩ := hi.current_live
    obtain rfl := Option.some.inj (hd.symm.trans hc)
    simp only [step, request, uthreadGetTid, hc, deref_some, ok_bind, pure_ok] at hs
    cases hs
    exact ⟨_, rfl, hi.live_allocated d hlive, fun _ => (hi.at_iff hlive _).mpr rfl⟩
  · cases hs

/-- The first reading fixes the end. -/
theorem named_step (h : Runs remains tr w.lib) (hp : w.phase = .named tid)
    (hk : Keeps w.lib r tid)
    (hs : sleepStep (uthreads remains) r n w .own = .ok (x, w')) :
    Tracks remains (tr ++ [x]) r tid n [] w' := by
  simp only [sleepStep, hp, nextCall] at hs
  split at hs
  · rename_i hc
    have hpoll := poll_reads h hc hk
    rw [hpoll] at hs
    cases hs
    refine ⟨?_, hk, ?_, fun _ => ?_⟩
    · rw [List.map_nil, List.append_nil]
      exact h.append (.single hpoll)
    · refine iff_of_false (fun hleft => by cases hleft) ?_
      rintro ⟨pre, y, post, hnil, _⟩
      cases pre <;> cases hnil
    · have hsame : dispatches (tr ++ [(.call (.getQuantums tid), .returned (dispatches tr r))]) r =
          dispatches tr r := by
        simp only [dispatches, dispatched_quiet tr _ (o := .returned _) (by simp)]
      rw [hsame]
      rfl
  · cases hs

theorem begun_le_of_prefix {pre : List (SleeperEvent × (Event × Outcome))} (h : T <+: pre) :
    begun r T ≤ begun r pre := by
  obtain ⟨rest, rfl⟩ := h
  rw [begun_append]
  omega

theorem tracks_after_reading (h : Runs remains tr s) {a b : Event × Outcome}
    {T₁ T₂ T₃ : List (SleeperEvent × (Event × Outcome))}
    (hx : Exec (sleepStep (uthreads remains) r n) ⟨s, .entered⟩
      (T₁ ++ (.own, a) :: (T₂ ++ (.own, b) :: T₃)) w)
    (h₁ : ∀ x ∈ T₁, x.1 ≠ .own) (h₂ : ∀ x ∈ T₂, x.1 ≠ .own) :
    ∃ tr₀ tid, Tracks remains tr₀ r tid n T₃ w := by
  obtain ⟨w₁, hx₁, hx⟩ := hx.split
  obtain ⟨w₂, hown, hx⟩ := hx.cons_inv
  obtain ⟨w₃, hx₂, hx⟩ := hx.split
  obtain ⟨w₄, hread, hx⟩ := hx.cons_inv
  have hrun₁ := sleepStep_run h hx₁
  have hrun₂ := sleepStep_run hrun₁ (.single hown)
  have hentered : w₁ = ⟨w₁.lib, .entered⟩ := by
    rw [← show w₁.phase = Phase.entered from waits_phase hx₁ h₁]
  rw [hentered] at hown
  obtain ⟨tid, hnamed, hkeeps⟩ := entered_step hrun₁ hown
  have hkeeps₃ := keeps_run hrun₂ hkeeps (hx₂.project (sleepStep_contains _ r n))
  have htracks := named_step (sleepStep_run hrun₂ hx₂) ((waits_phase hx₂ h₂).trans hnamed)
    hkeeps₃ hread
  exact ⟨_, tid, tracks_run htracks hx⟩

/-- `threadQuantumSleep` returns when the caller polls in the `n`-th quantum it gets after its
first reading. A caller that spends this quantum without polling never returns. -/
theorem quantum_sleep_exact (h : Runs remains tr s) {a b : Event × Outcome}
    {T₁ T₂ T₃ : List (SleeperEvent × (Event × Outcome))}
    (hx : Exec (sleepStep (uthreads remains) r n) ⟨s, .entered⟩
      (T₁ ++ (.own, a) :: (T₂ ++ (.own, b) :: T₃)) w)
    (h₁ : ∀ x ∈ T₁, x.1 ≠ .own) (h₂ : ∀ x ∈ T₂, x.1 ≠ .own) :
    (w.phase = .left ↔ PollsIn r n T₃) ∧
      (n < begun r T₃ → w.phase ≠ .left → ∀ T' w',
        Exec (sleepStep (uthreads remains) r n) w T' w' → w'.phase ≠ .left) ∧
      (w.phase ≠ .left → w.lib.curRunning = some r → ∃ x w',
        sleepStep (uthreads remains) r n w .own = .ok (x, w') ∧
          (w'.phase = .left ↔ begun r T₃ = n)) := by
  obtain ⟨tr₀, tid, htracks⟩ := tracks_after_reading h hx h₁ h₂
  refine ⟨htracks.left, fun hn hstay T' w' hx' hleft => ?_, fun hstay hc => ?_⟩
  · obtain ⟨pre, x, post, hsplit, hpre⟩ := (tracks_run htracks hx').left.mp hleft
    rcases List.append_eq_append_iff.mp hsplit with ⟨rest, hT, _⟩ | ⟨rest, hT, hrest⟩
    · -- the poll comes after `T₃`, when the quantum is over
      have := begun_le_of_prefix (r := r) (hT ▸ List.prefix_append T₃ rest : T₃ <+: pre)
      omega
    · cases rest with
      | nil =>
        rw [hT, List.append_nil] at hn
        omega
      | cons y rest =>
        -- it was a poll of `T₃` already
        obtain ⟨rfl, _⟩ := List.cons.inj hrest
        exact hstay (htracks.left.mpr ⟨pre, x, rest, hT, hpre⟩)
  · refine ⟨_, _, polling_step (htracks.stays hstay) htracks.run htracks.keeps hc, ?_⟩
    rw [dispatches_append]
    by_cases hn : begun r T₃ = n
    · simp [hn]
    · have hne : dispatches tr₀ r + (begun r T₃ : ℤ) ≠ dispatches tr₀ r + n := by omega
      simp [hne, hn]

/-- Main waits for one quantum, in which thread 1 runs. -/
theorem quantum_sleep_exact_main :
    let s := after freedRecord initial [.call (.spawn (some 7))]
    let T₃ : List (SleeperEvent × (Event × Outcome)) :=
      [(.other .timer, .timer, .dispatched 1 none), (.other .timer, .timer, .dispatched 0 none),
        (.own, .call (.getQuantums 0), .returned 2)]
    ∃ w, Exec (sleepStep (uthreads freedRecord) 0 (1 : ℕ)) ⟨s, .entered⟩
        ([] ++ (.own, .call .getTid, .returned 0) ::
          ([] ++ (.own, .call (.getQuantums 0), .returned 1) :: T₃)) w ∧
      (w.phase = .left ↔ PollsIn 0 1 T₃) := by
  intro s T₃
  let es : List SleeperEvent := [.own, .own, .other .timer, .other .timer, .own]
  have hexec : Exec (sleepStep (uthreads freedRecord) 0 (1 : ℕ)) ⟨s, .entered⟩
      (trace (sleepStep (uthreads freedRecord) 0 (1 : ℕ)) ⟨s, .entered⟩ es) _ :=
    exec_trace (by decide +kernel)
  have htrace : trace (sleepStep (uthreads freedRecord) 0 (1 : ℕ)) ⟨s, .entered⟩ es =
      [] ++ (.own, .call .getTid, .returned 0) ::
        ([] ++ (.own, .call (.getQuantums 0), .returned 1) :: T₃) := by decide +kernel
  rw [htrace] at hexec
  refine ⟨_, hexec, ?_⟩
  exact (quantum_sleep_exact (runs_history freedRecord [.call (.spawn (some 7))]
    (by decide +kernel)) hexec (by simp) (by simp)).1

end QuantumSleep
