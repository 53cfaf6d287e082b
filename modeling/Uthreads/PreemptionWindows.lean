import Uthreads.ThreadInvariant

/-! # Calls that are preempted between check and action

`uthread_spawn` and `uthread_get_quantums` check their arguments with SIGVTALRM
unblocked. Here each of them takes two steps, with timer switches in between; every
other call masks the signal first and stays one step. -/
namespace PreemptionWindows

open ThreadLibrary SwitchSemantics CallEffects EventRuns ThreadInvariant

/-- What a call that has made its check has still to do. -/
inductive Pending where
  | spawn (pc : ℕ)
  | getQuantums (tid : ℤ)
  deriving DecidableEq, Repr

/-- The library, and for each thread the window its call is in. -/
structure Machine where
  lib : State
  pending : ThreadRef → Option Pending

inductive Action where
  | begin (call : Call)
  | act
  | timer
  deriving DecidableEq, Repr

/-- Besides the faults of the library: a thread does not begin a call inside a call. -/
inductive Refusal where
  | fault (f : Fault)
  | inCall
  | notInCall
  deriving DecidableEq, Repr

/-- A piece of library code has run; the windows are then `pending`. -/
def settle (pending : ThreadRef → Option Pending) :
    Except Fault (Outcome × State) → Except Refusal (Option Outcome × Machine)
  | .error f => .error (.fault f)
  | .ok (o, s) => .ok (some o, ⟨s, pending⟩)

def completes (V : Variant) : Control → Except Fault (Outcome × State)
  | .returns o s => .ok (o, s)
  | .switches ctx s => switchThread V ctx s

/-- The call stops in its window, without a result yet. -/
def Machine.stops (m : Machine) (cur : ThreadRef) (p : Pending) : Option Outcome × Machine :=
  (none, { m with pending := Function.update m.pending cur (some p) })

def beginCall (V : Variant) (m : Machine) (cur : ThreadRef) :
    Call → Except Refusal (Option Outcome × Machine)
  | .spawn entryPoint =>
    match spawnCheck entryPoint m.lib with
    | .inl e => .ok (some (.failed e), m)
    | .inr pc => .ok (m.stops cur (.spawn pc))
  | .getQuantums tid =>
    match checkValidTid tid m.lib with
    | .error f => .error (.fault f)
    | .ok (some e) => .ok (some (.failed e), m)
    | .ok none => .ok (m.stops cur (.getQuantums tid))
  | call => settle m.pending (step V m.lib (.call call))

/-- The rest of a call. -/
def Pending.control (s : State) : Pending → Except Fault Control
  | .spawn pc => spawnMasked pc s
  | .getQuantums tid => readQuantum tid s

def windowStep (V : Variant) (m : Machine) (a : Action) :
    Except Refusal (Option Outcome × Machine) :=
  match m.lib.curRunning with
  | none => .error (.fault .nullThread)
  | some cur =>
    match a, m.pending cur with
    | .timer, _ => settle m.pending (step V m.lib .timer)
    | .begin call, none => beginCall V m cur call
    | .begin _, some _ => .error .inCall
    | .act, some p => settle (Function.update m.pending cur none)
        ((p.control m.lib) >>= completes V)
    | .act, none => .error .notInCall

/-- After a successful `uthread_init`, with no call under way. -/
def machine : Machine := ⟨initial, fun _ => none⟩

section Atomic

variable {V : Variant} {s t : State} {c : ThreadRef} {call : Call} {o : Outcome}

/-- A whole call is its check followed at once by its action. -/
theorem atomic_call (hc : s.curRunning = some c) (h : step V s (.call call) = .ok (o, t)) :
    ∃ tr, Exec (windowStep V) ⟨s, fun _ => none⟩ tr ⟨t, fun _ => none⟩ ∧
      tr.filterMap Prod.snd = [o] := by
  have hback : ∀ p, Function.update (Function.update (fun _ => none) c (some p)) c none =
      (fun _ => none : ThreadRef → Option Pending) := by
    intro p
    rw [Function.update_idem, Function.update_eq_self_iff]
  -- a call that does not stop is one step here too
  have hone : beginCall V ⟨s, fun _ => none⟩ c call = .ok (some o, ⟨t, fun _ => none⟩) →
      ∃ tr, Exec (windowStep V) ⟨s, fun _ => none⟩ tr ⟨t, fun _ => none⟩ ∧
        tr.filterMap Prod.snd = [o] := by
    intro hb
    refine ⟨[(.begin call, some o)], .single ?_, rfl⟩
    simp only [windowStep, hc, hb]
  have htwo : ∀ p, beginCall V ⟨s, fun _ => none⟩ c call =
        .ok (Machine.stops ⟨s, fun _ => none⟩ c p) →
      (p.control s >>= completes V) = .ok (o, t) →
      ∃ tr, Exec (windowStep V) ⟨s, fun _ => none⟩ tr ⟨t, fun _ => none⟩ ∧
        tr.filterMap Prod.snd = [o] := by
    intro p hb hp
    refine ⟨[(.begin call, none), (.act, some o)],
      .cons (t := ⟨s, Function.update (fun _ => none) c (some p)⟩) ?_ (.single ?_), rfl⟩
    · simp only [windowStep, hc, hb]
      rfl
    · simp only [windowStep, hc, Function.update_self, hp, settle, hback]
  have hstep : (request V s call >>= completes V) = .ok (o, t) := by
    simp only [step] at h
    rw [← h]
    congr 1
  cases call with
  | spawn entryPoint =>
    cases hcheck : spawnCheck entryPoint s with
    | inl e =>
      simp only [request, uthreadSpawn, hcheck, ok_bind, completes] at hstep
      cases hstep
      exact hone (by simp only [beginCall, hcheck])
    | inr pc =>
      simp only [request, uthreadSpawn, hcheck] at hstep
      exact htwo (.spawn pc) (by simp only [beginCall, hcheck]) hstep
  | getQuantums tid =>
    cases hcheck : checkValidTid tid s with
    | error f =>
      simp only [request, uthreadGetQuantums, hcheck, error_bind] at hstep
      cases hstep
    | ok e =>
      cases e with
      | some e =>
        simp only [request, uthreadGetQuantums, hcheck, ok_bind, pure_ok, completes] at hstep
        cases hstep
        exact hone (by simp only [beginCall, hcheck])
      | none =>
        simp only [request, uthreadGetQuantums, hcheck, ok_bind] at hstep
        exact htwo (.getQuantums tid) (by simp only [beginCall, hcheck]) hstep
  | _ => exact hone (by simp only [beginCall, h, settle])

/-- Every history of the library is one of the machine, with the same outcomes. -/
theorem atomic_runs {remains : ThreadRef → Thread → Thread} {tr : List (Event × Outcome)}
    (h : Runs remains tr s) :
    ∃ tr', Exec (windowStep (uthreads remains)) machine tr' ⟨s, fun _ => none⟩ ∧
      tr'.filterMap Prod.snd = tr.map Prod.snd := by
  have main := h.history (I := fun tr s => Invariant s ∧
      ∃ tr', Exec (windowStep (uthreads remains)) machine tr' ⟨s, fun _ => none⟩ ∧
        tr'.filterMap Prod.snd = tr.map Prod.snd)
    ⟨initial_invariant, [], .nil _, rfl⟩ ?_
  · exact main.2
  · rintro tr s e o t ⟨hi, tr', hx, ho⟩ hst
    obtain ⟨c, hc, _⟩ := hi.current_live
    refine ⟨step_preserves_invariant hi hst, ?_⟩
    cases e with
    | timer =>
      refine ⟨tr' ++ [(.timer, some o)], hx.append (.single ?_), by simp [ho]⟩
      simp only [windowStep, hc, hst, settle]
    | call call =>
      obtain ⟨tr₁, hx₁, ho₁⟩ := atomic_call hc hst
      exact ⟨tr' ++ tr₁, hx.append hx₁, by simp [ho, ho₁]⟩

end Atomic

/-- A thread of the table, or one that is queued or runs and is not deleted. -/
def Known (s : State) (r : ThreadRef) : Prop :=
  s.Live r ∨ s.deleted r = false ∧ (r ∈ s.readyQueue ∨ s.curRunning = some r)

/-- What the checks promise to the actions: a free cell for `addThread`, so that no thread
is made beyond the table, and a thread in the cell that `uthread_get_quantums` reads. -/
structure ChecksHold (m : Machine) : Prop where
  slot : ∀ c pc, m.lib.curRunning = some c → m.pending c = some (.spawn pc) →
    ∃ i : Fin maxThreadNum, i ≠ 0 ∧ m.lib.allThreads i = none ∧ findId m.lib = (i : ℕ)
  cell : ∀ c tid, m.lib.curRunning = some c → m.pending c = some (.getQuantums tid) →
    ∃ r, m.lib.At tid r
  bounded : ∀ known : Finset ThreadRef, (∀ r ∈ known, Known m.lib r) →
    known.card ≤ maxThreadNum

/-- Another thread that can still run is inside this window. -/
def OtherPending (m : Machine) (c : ThreadRef) (p : Pending → Prop) : Prop :=
  ∃ r q, r ≠ c ∧ m.lib.Live r ∧ m.pending r = some q ∧ p q

/-- The last free cell is not taken while another thread is between the limit test and
`addThread`, and no thread is terminated while another one is about to read its cell. -/
def KeepsChecks (m : Machine) : Action → Prop
  | .act => ∀ c pc, m.lib.curRunning = some c → m.pending c = some (.spawn pc) →
      OtherPending m c (fun q => ∃ pc', q = .spawn pc') → count m.lib + 1 < maxThreadNum
  | .begin (.terminate tid) => ∀ r, m.lib.At tid r →
      ¬ OtherPending m r (fun q => q = .getQuantums tid)
  | _ => True

/-- The windows of live threads, on top of the invariant of the library. -/
structure WindowInvariant (m : Machine) : Prop where
  lib : Invariant m.lib
  allocated : ∀ r p, m.pending r = some p → r < m.lib.nextRef
  room : ∀ r pc, m.lib.Live r → m.pending r = some (.spawn pc) →
    ∃ i, m.lib.allThreads i = none
  used : ∀ r tid, m.lib.Live r → m.pending r = some (.getQuantums tid) →
    ∃ q, m.lib.At tid q

section Windows

variable {remains : ThreadRef → Thread → Thread} {m : Machine} {s t : State} {e : Event}
  {o : Outcome} {c : ThreadRef}

theorem exists_free_iff {s : State} (h : Table s) :
    (∃ i, s.allThreads i = none) ↔ count s < maxThreadNum := by
  rw [← not_le, h.count_full]
  simp only [ne_eq, not_forall, not_not]

/-- No thread runs or is queued behind the back of the table. -/
theorem known_live {s : State} {r : ThreadRef} (hi : Invariant s) (h : Known s r) :
    s.Live r := by
  rcases h with hlive | ⟨hdel, hq | hc⟩
  · exact hlive
  · refine (hi.queue_known r hq).resolve_right fun hd => ?_
    rw [hdel] at hd
    cases hd
  · obtain ⟨d, hd, hlive⟩ := hi.current_live
    exact Option.some.inj (hd.symm.trans hc) ▸ hlive

/-- The machine's invariant is enough for the checks. -/
theorem WindowInvariant.checks (h : WindowInvariant m) : ChecksHold m := by
  obtain ⟨c, hc, hlive⟩ := h.lib.current_live
  have hcur : ∀ {d}, m.lib.curRunning = some d → d = c := fun hd =>
    Option.some.inj (hd.symm.trans hc)
  constructor
  case slot =>
    intro d pc hd hp
    obtain rfl := hcur hd
    have hroom := (exists_free_iff h.lib.toTable).mp (h.room d pc hlive hp)
    obtain ⟨i, hfree, hid⟩ := h.lib.findId_room hroom
    exact ⟨i, hfree.1, hfree.2.1, hid⟩
  case cell =>
    intro d tid hd hp
    obtain rfl := hcur hd
    exact h.used d tid hlive hp
  case bounded =>
    intro known hall
    have hsub : known.image some ⊆ Finset.univ.image m.lib.allThreads := by
      intro x hx
      obtain ⟨r, hr, rfl⟩ := Finset.mem_image.mp hx
      obtain ⟨i, hi⟩ := known_live h.lib (hall r hr)
      exact Finset.mem_image.mpr ⟨i, Finset.mem_univ i, hi⟩
    calc known.card = (known.image some).card :=
          (Finset.card_image_of_injective known (Option.some_injective _)).symm
      _ ≤ (Finset.univ.image m.lib.allThreads).card := Finset.card_le_card hsub
      _ ≤ (Finset.univ : Finset (Fin maxThreadNum)).card := Finset.card_image_le
      _ = maxThreadNum := by simp

/-- Reading behind a stale check goes through a null pointer. -/
theorem stale_read_faults (V : Variant) {i : Fin maxThreadNum} (hc : m.lib.curRunning = some c)
    (hp : m.pending c = some (.getQuantums (i : ℕ))) (hi : m.lib.allThreads i = none) :
    windowStep V m .act = .error (.fault .nullThread) := by
  simp only [windowStep, hc, hp, Pending.control, readQuantum, State.threadAt, cell_index, hi,
    ok_bind, deref, error_bind, settle]

/-- Adding behind a stale check writes in front of the table. -/
theorem stale_add_faults (V : Variant) {pc : ℕ} (hc : m.lib.curRunning = some c)
    (hp : m.pending c = some (.spawn pc)) (hid : findId m.lib = -1) :
    windowStep V m .act = .error (.fault (.outOfRange (-1))) := by
  have hid' : findId (maskSignals m.lib) = -1 := hid
  simp only [windowStep, hc, hp, Pending.control, spawnMasked, addThread, hid', State.newThread,
    State.setCell]
  rfl

/-- What an event other than a spawn does to the table: nothing, or one cell is cleared. -/
theorem step_table (hi : Invariant s) (hspawn : ∀ ep, e ≠ .call (.spawn ep))
    (h : step (uthreads remains) s e = .ok (o, t)) :
    t.nextRef = s.nextRef ∧ (t.allThreads = s.allThreads ∨
      ∃ (i : Fin maxThreadNum) (r : ThreadRef), e = .call (.terminate (i : ℕ)) ∧
        s.allThreads i = some r ∧ t.allThreads = Function.update s.allThreads i none) := by
  cases step_effect hi h with
  | quiet hq =>
    cases hq with
    | idle b => exact ⟨rfl, Or.inl rfl⟩
    | spawn => exact (hspawn _ rfl).elim
    | block => exact ⟨rfl, Or.inl rfl⟩
    | resume => exact ⟨rfl, Or.inl rfl⟩
    | @terminate i r _ hr => exact ⟨rfl, Or.inr ⟨i, r, rfl, hr, rfl⟩⟩
  | switch he hd =>
    rw [hd.nextRef, hd.allThreads]
    cases he with
    | timer => exact ⟨rfl, Or.inl rfl⟩
    | blockSelf => exact ⟨rfl, Or.inl rfl⟩
    | sleep => exact ⟨rfl, Or.inl rfl⟩
    | @exit i _ hr => exact ⟨rfl, Or.inr ⟨i, _, rfl, hr, rfl⟩⟩

/-- Library events other than a spawn keep the windows, if a terminate spares the cells
that are about to be read. -/
theorem window_step_lib (h : WindowInvariant m) (hspawn : ∀ ep, e ≠ .call (.spawn ep))
    (hk : ∀ tid, e = .call (.terminate tid) → KeepsChecks m (.begin (.terminate tid)))
    (hst : step (uthreads remains) m.lib e = .ok (o, t)) :
    WindowInvariant ⟨t, m.pending⟩ := by
  have hinv := step_preserves_invariant h.lib hst
  obtain ⟨hnext, htable⟩ := step_table h.lib hspawn hst
  have halloc : ∀ r p, m.pending r = some p → r < t.nextRef := by
    intro r p hp
    rw [hnext]
    exact h.allocated r p hp
  rcases htable with hsame | ⟨i, r, rfl, hr, hclear⟩
  · refine ⟨hinv, halloc, ?_, ?_⟩
    · intro r pc hr hp
      simp only [State.Live, hsame] at hr ⊢
      exact h.room r pc hr hp
    · intro r tid hr hp
      simp only [State.Live, State.At, hsame] at hr ⊢
      exact h.used r tid hr hp
  · have hlive : ∀ q, t.Live q → m.lib.Live q ∧ q ≠ r := by
      rintro q ⟨j, hj⟩
      rw [hclear] at hj
      have hji : j ≠ i := by rintro rfl; rw [Function.update_self] at hj; cases hj
      rw [Function.update_of_ne hji] at hj
      refine ⟨⟨j, hj⟩, ?_⟩
      rintro rfl
      exact hji (h.lib.distinct j i q hj hr)
    refine ⟨hinv, halloc, fun q pc hq hp => ⟨i, ?_⟩, fun q tid hq hp => ?_⟩
    · rw [show t.allThreads = _ from hclear, Function.update_self]
    · obtain ⟨hq, hqr⟩ := hlive q hq
      obtain ⟨x, j, rfl, hx⟩ := h.used q tid hq hp
      have hji : j ≠ i := by
        rintro rfl
        exact hk (j : ℕ) rfl r ⟨j, rfl, hr⟩ ⟨q, _, hqr, hq, hp, rfl⟩
      refine ⟨x, j, rfl, ?_⟩
      rw [show t.allThreads = _ from hclear, Function.update_of_ne hji]
      exact hx

/-- A call enters its window: the check has just been made. -/
theorem window_stops (h : WindowInvariant m) {p : Pending}
    (hc : m.lib.curRunning = some c)
    (hroom : ∀ pc, p = .spawn pc → ∃ i, m.lib.allThreads i = none)
    (hused : ∀ tid, p = .getQuantums tid → ∃ q, m.lib.At tid q) :
    WindowInvariant (m.stops c p).2 := by
  obtain ⟨d, hd, hlive⟩ := h.lib.current_live
  obtain rfl : d = c := Option.some.inj (hd.symm.trans hc)
  have hpend : ∀ r q, (m.stops d p).2.pending r = some q →
      (r = d ∧ q = p) ∨ m.pending r = some q := by
    intro r q hq
    by_cases hr : r = d
    · subst hr
      have hq : Function.update m.pending r (some p) r = some q := hq
      rw [Function.update_self] at hq
      exact Or.inl ⟨rfl, (Option.some.inj hq).symm⟩
    · have hq : Function.update m.pending d (some p) r = some q := hq
      rw [Function.update_of_ne hr] at hq
      exact Or.inr hq
  refine ⟨h.lib, fun r q hq => ?_, fun r pc hr hq => ?_, fun r tid hr hq => ?_⟩
  · rcases hpend r q hq with ⟨rfl, _⟩ | hq
    · exact h.lib.live_allocated r hlive
    · exact h.allocated r q hq
  · rcases hpend r _ hq with ⟨_, hp⟩ | hq
    · exact hroom pc hp.symm
    · exact h.room r pc hr hq
  · rcases hpend r _ hq with ⟨_, hp⟩ | hq
    · exact hused tid hp.symm
    · exact h.used r tid hr hq

/-- `addThread` fills a cell; the condition leaves another one to those who wait. -/
theorem window_spawned (h : WindowInvariant m) {i : Fin maxThreadNum} {pc : ℕ}
    (hc : m.lib.curRunning = some c) (hp : m.pending c = some (.spawn pc))
    (hk : KeepsChecks m .act) (hfree : FirstFree m.lib i) :
    WindowInvariant ⟨unmaskSignals (spawned i pc m.lib),
      Function.update m.pending c none⟩ := by
  have hdead := h.lib.fresh.1
  have hnew : m.pending m.lib.nextRef = none := by
    cases hn : m.pending m.lib.nextRef with
    | none => rfl
    | some p => exact (lt_irrefl _ (h.allocated _ p hn)).elim
  have hpend : ∀ r q, Function.update m.pending c none r = some q →
      r ≠ c ∧ m.pending r = some q := by
    intro r q hq
    have hr : r ≠ c := by rintro rfl; rw [Function.update_self] at hq; cases hq
    rw [Function.update_of_ne hr] at hq
    exact ⟨hr, hq⟩
  have hold : ∀ r q, (spawned i pc m.lib).Live r → m.pending r = some q → m.lib.Live r := by
    intro r q hr hq
    rcases (spawned_live pc hfree r).mp hr with rfl | hr
    · rw [hnew] at hq; cases hq
    · exact hr
  have hcount : count (spawned i pc m.lib) = count m.lib + 1 := by
    have ht := table_spawned h.lib.toTable pc hfree hdead
    have := ht.count_cells
    have := h.lib.count_cells
    have hc : (spawned i pc m.lib).countReady = m.lib.countReady + 1 := rfl
    rw [ht.count_eq, h.lib.count_eq]
    omega
  have hquiet : Quiet (fun _ t => t) m.lib (.spawn (some pc)) (.returned (i : ℕ))
      (unmaskSignals (spawned i pc m.lib)) := .spawn hfree
  refine ⟨quiet_invariant h.lib hquiet,
    fun r q hq => ?_, fun r pc' hr hq => ?_, fun r tid hr hq => ?_⟩
  · exact Nat.lt_succ_of_lt (h.allocated r q (hpend r q hq).2)
  · obtain ⟨hrc, hq⟩ := hpend r _ hq
    have hmore := hk c pc hc hp ⟨r, _, hrc, hold r _ hr hq, hq, pc', rfl⟩
    rw [← hcount] at hmore
    exact (exists_free_iff (table_spawned h.lib.toTable pc hfree hdead)).mpr hmore
  · obtain ⟨_, hq⟩ := hpend r _ hq
    obtain ⟨x, hx⟩ := h.used r tid (hold r _ hr hq) hq
    exact ⟨x, spawned_at pc hfree hx⟩

/-- Leaving a window does not disturb the others. -/
theorem window_leaves (h : WindowInvariant m) (c : ThreadRef) :
    WindowInvariant ⟨m.lib, Function.update m.pending c none⟩ := by
  have hpend : ∀ r q, Function.update m.pending c none r = some q → m.pending r = some q := by
    intro r q hq
    by_cases hr : r = c
    · subst hr; rw [Function.update_self] at hq; cases hq
    · rwa [Function.update_of_ne hr] at hq
  exact ⟨h.lib, fun r q hq => h.allocated r q (hpend r q hq),
    fun r pc hr hq => h.room r pc hr (hpend r _ hq),
    fun r tid hr hq => h.used r tid hr (hpend r _ hq)⟩

theorem window_begin {x : Option Outcome} {m' : Machine} {call : Call} (h : WindowInvariant m)
    (hc : m.lib.curRunning = some c) (hk : KeepsChecks m (.begin call))
    (hst : beginCall (uthreads remains) m c call = .ok (x, m')) : WindowInvariant m' := by
  -- calls that take one step
  have hwhole : (∀ ep, call ≠ .spawn ep) →
      settle m.pending (step (uthreads remains) m.lib (.call call)) = .ok (x, m') →
      WindowInvariant m' := by
    intro hspawn hs
    cases hstep : step (uthreads remains) m.lib (.call call) with
    | error f => rw [hstep] at hs; cases hs
    | ok p =>
      obtain ⟨o, t⟩ := p
      rw [hstep] at hs
      cases hs
      refine window_step_lib h (fun ep he => hspawn ep (Event.call.inj he)) ?_ hstep
      intro tid he
      rw [← Event.call.inj he]
      exact hk
  cases call with
  | spawn entryPoint =>
    simp only [beginCall] at hst
    split at hst
    · cases hst
      exact h
    · rename_i pc hcheck
      cases hst
      refine window_stops h hc (fun pc _ => ?_) (fun tid he => by cases he)
      have hroom : count m.lib < maxThreadNum := by
        unfold spawnCheck at hcheck
        split at hcheck
        · cases hcheck
        · exact not_le.mp ‹_›
      exact (exists_free_iff h.lib.toTable).mpr hroom
  | getQuantums tid =>
    rcases checkValidTid_cases m.lib tid with ⟨r, hr⟩ | ⟨_, e, he⟩
    · simp only [beginCall, checkValidTid_ok hr] at hst
      cases hst
      refine window_stops h hc (fun pc he => by cases he) (fun tid' he => ?_)
      cases he
      exact ⟨r, hr⟩
    · simp only [beginCall, he] at hst
      cases hst
      exact h
  | _ => exact hwhole (by simp) hst

theorem window_act {x : Option Outcome} {m' : Machine} {p : Pending} (h : WindowInvariant m)
    (hc : m.lib.curRunning = some c) (hp : m.pending c = some p) (hk : KeepsChecks m .act)
    (hst : settle (Function.update m.pending c none)
      ((p.control m.lib) >>= completes (uthreads remains)) = .ok (x, m')) :
    WindowInvariant m' := by
  cases p with
  | spawn pc =>
    obtain ⟨i, hi0, hi, hid⟩ := h.checks.slot c pc hc hp
    have hfree : FirstFree m.lib i := by
      rcases findId_cases m.lib with ⟨j, hj, hjd⟩ | ⟨hn, _⟩
      · have hij : i = j := Fin.ext (by rw [hid] at hjd; exact_mod_cast hjd)
        rw [hij]
        exact hj
      · rw [hid] at hn
        omega
    have hid' : findId (maskSignals m.lib) = (i : ℕ) := hid
    simp only [Pending.control, spawnMasked, addThread_ok pc hid', ok_bind, pure_ok, completes,
      settle] at hst
    cases hst
    exact window_spawned h hc hp hk hfree
  | getQuantums tid =>
    obtain ⟨r, hr⟩ := h.checks.cell c tid hc hp
    simp only [Pending.control, readQuantum, threadAt_ok hr, ok_bind, pure_ok, completes,
      settle] at hst
    cases hst
    exact window_leaves h c

theorem step_preserves_windows {x : Option Outcome} {m' : Machine} {a : Action}
    (h : WindowInvariant m) (hk : KeepsChecks m a)
    (hst : windowStep (uthreads remains) m a = .ok (x, m')) : WindowInvariant m' := by
  obtain ⟨c, hc, _⟩ := h.lib.current_live
  simp only [windowStep, hc] at hst
  cases a with
  | timer =>
    cases hstep : step (uthreads remains) m.lib .timer with
    | error f => rw [hstep] at hst; cases hst
    | ok p =>
      obtain ⟨o, t⟩ := p
      rw [hstep] at hst
      cases hst
      exact window_step_lib h (by simp) (fun tid he => by cases he) hstep
  | begin call =>
    cases hp : m.pending c with
    | none => rw [hp] at hst; exact window_begin h hc hk hst
    | some p => rw [hp] at hst; cases hst
  | act =>
    cases hp : m.pending c with
    | none => rw [hp] at hst; cases hst
    | some p => rw [hp] at hst; exact window_act h hc hp hk hst

theorem machine_windows : WindowInvariant machine :=
  ⟨initial_invariant, fun _ _ h => (by cases h), fun _ _ _ h => (by cases h),
    fun _ _ _ h => (by cases h)⟩

/-- In every interleaving whose steps meet the condition no action meets a stale check. -/
theorem no_stale_check {tr : List (Action × Option Outcome)}
    (h : Exec (windowStep (uthreads remains)) machine tr m)
    (hk : EachStep (windowStep (uthreads remains)) KeepsChecks machine tr) : ChecksHold m :=
  (h.invariant_of_eachStep hk machine_windows fun _ _ _ _ hi hki hst =>
    step_preserves_windows hi hki hst).checks

end Windows

/-- Main is preempted inside `uthread_get_quantums(1)` and comes back to its window. -/
theorem no_stale_check_preempted_reader :
    let as := [.begin (.spawn (some 7)), .act, .begin (.getQuantums 1), .timer, .timer]
    let m := final (windowStep (uthreads freedRecord)) machine as
    m.lib.curRunning = some 0 ∧ m.pending 0 = some (.getQuantums 1) ∧ ChecksHold m := by
  intro as m
  let next (m : Machine) (a : Action) := final (windowStep (uthreads freedRecord)) m [a]
  have hstep : ∀ {m a o}, trace (windowStep (uthreads freedRecord)) m [a] = [(a, o)] →
      windowStep (uthreads freedRecord) m a = .ok (o, next m a) := step_final
  let m₁ := next machine (.begin (.spawn (some 7)))
  let m₂ := next m₁ .act
  let m₃ := next m₂ (.begin (.getQuantums 1))
  let m₄ := next m₃ .timer
  have h₁ : windowStep _ machine _ = .ok (none, m₁) := hstep (by decide +kernel)
  have h₂ : windowStep _ m₁ _ = .ok (some (.returned 1), m₂) := hstep (by decide +kernel)
  have h₃ : windowStep _ m₂ _ = .ok (none, m₃) := hstep (by decide +kernel)
  have h₄ : windowStep _ m₃ _ = .ok (some (.dispatched 1 none), m₄) := hstep (by decide +kernel)
  have h₅ : windowStep _ m₄ .timer = .ok (some (.dispatched 0 none), next m₄ .timer) :=
    hstep (by decide +kernel)
  have hk : KeepsChecks m₁ .act := fun c pc _ _ _ => by decide +kernel
  have htr : trace (windowStep (uthreads freedRecord)) machine as =
      [(.begin (.spawn (some 7)), none), (.act, some (.returned 1)),
        (.begin (.getQuantums 1), none), (.timer, some (.dispatched 1 none)),
        (.timer, some (.dispatched 0 none))] := by decide +kernel
  refine ⟨by decide +kernel, by decide +kernel, no_stale_check (exec_trace (by decide +kernel)) ?_⟩
  rw [htr]
  exact .cons trivial h₁ (.cons hk h₂ (.cons trivial h₃ (.cons trivial h₄
    (.cons trivial h₅ (.nil _)))))

/-- Thread 1 terminates thread 2 while main stands between `checkValidTid(2)` and the
access to the cell: main reads through a null pointer. -/
theorem stale_check_reads_null :
    let as := [.begin (.spawn (some 7)), .act, .begin (.spawn (some 8)), .act,
      .begin (.getQuantums 2), .timer, .begin (.terminate 2), .timer]
    let m := final (windowStep (uthreads freedRecord)) machine as
    Exec (windowStep (uthreads freedRecord)) machine
        (trace (windowStep (uthreads freedRecord)) machine as) m ∧
      ¬ ChecksHold m ∧
      windowStep (uthreads freedRecord) m .act = .error (.fault .nullThread) := by
  intro as m
  have hcur : m.lib.curRunning = some 0 := by decide +kernel
  have hpending : m.pending 0 = some (.getQuantums ((2 : Fin maxThreadNum) : ℕ)) := by
    decide +kernel
  have hfree : m.lib.allThreads 2 = none := by decide +kernel
  refine ⟨exec_trace (by decide +kernel), fun h => ?_, ?_⟩
  · obtain ⟨r, i, hi, hr⟩ := h.cell 0 _ hcur hpending
    obtain rfl : i = 2 := Fin.ext (by exact_mod_cast hi)
    rw [hfree] at hr
    cases hr
  · exact stale_read_faults _ hcur hpending hfree

end PreemptionWindows
