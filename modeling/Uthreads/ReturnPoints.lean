import Uthreads.ThreadTable

/-! # Where a thread goes on

A history as the threads see it: which of them runs, the identifier each was given, and
for every other one the event by which it was created or left the processor. Each jump has
to continue that event, for that thread, and once. -/
namespace ReturnPoints

open ThreadLibrary SwitchSemantics CallEffects EventRuns ThreadInvariant ThreadTable

/-- The observer. `left r` is the event that `r` is still waiting to go on from. -/
structure View where
  running : ThreadRef
  left : ThreadRef → Option Event
  ids : List ℤ

def View.start : View := ⟨0, fun _ => none, [mainThreadTid]⟩

/-- The running thread waits for its own event, then control moves on. -/
def View.leaving (w : View) (e : Event) : ThreadRef → Option Event :=
  Function.update w.left w.running (some e)

def View.observe (w : View) : Event × Outcome → View
  | (e, .dispatched next _) =>
    { w with running := next, left := Function.update (w.leaving e) next none }
  | (.call (.spawn entryPoint), .returned id) =>
    { w with
      left := Function.update w.left w.ids.length (some (.call (.spawn entryPoint)))
      ids := w.ids ++ [id] }
  | _ => w

def view (tr : List (Event × Outcome)) : View := tr.foldl View.observe .start

/-- The place where an event that suspends its thread is continued. -/
def resumePoint : Event → Option Context
  | .call (.spawn (some pc)) => some (.entryPoint pc)
  | .timer => some .signalHandler
  | .call (.block _) => some .selfBlock
  | .call (.sleep _) => some .sleepCall
  | _ => none

/-- What the thread reads when it goes on: an interrupted thread and a new one read
nothing, a call that suspended its caller has succeeded. -/
inductive Answers : Event → Option ℤ → Prop where
  | spawn (pc) : Answers (.call (.spawn (some pc))) none
  | timer : Answers .timer none
  | block (tid) : Answers (.call (.block tid)) (some 0)
  | sleep (n) : Answers (.call (.sleep n)) (some 0)

/-- Every dispatch answers the event that its thread was waiting to go on from. -/
def Answered (tr : List (Event × Outcome)) : Prop :=
  ∀ pre e next v post, tr = pre ++ (e, .dispatched next v) :: post →
    ∃ e', (view pre).leaving e next = some e' ∧ Answers e' v

/-- The observer is right about the library. -/
structure Tracks (w : View) (s : State) : Prop where
  running : s.curRunning = some w.running
  created : w.ids.length = s.nextRef
  identity : ∀ r, s.Live r → w.ids[r]? = some (s.heap r).id
  waiting : ∀ r, s.Live r → r ≠ w.running →
    ∃ e, w.left r = some e ∧ resumePoint e = some (s.heap r).env

variable {remains : ThreadRef → Thread → Thread} {s t : State} {w : View} {e : Event}
  {o : Outcome} {tr : List (Event × Outcome)}

def delivered : Context → Option ℤ
  | .entryPoint _ => none
  | .signalHandler => none
  | _ => some 0

theorem siglongjmp_delivers {V : Variant} {next : ThreadRef}
    (henv : ∀ tid, s.deleted next = false → (s.heap next).env ≠ .selfTerminate tid)
    (h : siglongjmp V next s = .ok (o, t)) :
    o = .dispatched next (delivered (s.heap next).env) ∧ t = unmaskSignals s := by
  unfold siglongjmp at h
  split at h
  · cases h
  · rename_i hd
    have hd : s.deleted next = false := by simpa using hd
    cases he : (s.heap next).env with
    | selfTerminate tid => exact (henv tid hd he).elim
    | _ => rw [he] at h; cases h; exact ⟨rfl, rfl⟩

theorem switchThread_delivers {ctx : Context} {c next : ThreadRef} {v : Option ℤ}
    (hc : s.curRunning = some c) (hd : State.Distinct s)
    (henv : ∀ r tid, s.deleted r = false →
      (if r = c then ctx else (s.heap r).env) ≠ .selfTerminate tid)
    (h : switchThread (uthreads remains) ctx s = .ok (.dispatched next v, t)) :
    v = delivered (t.heap next).env := by
  rw [switchThread_eq _ _ hc] at h
  cases hn : (nextAvailableReady (yielded ctx c s)).1 with
  | none =>
    have hn' : ((uthreads remains).nextAvailableReady (yielded ctx c s)).1 = none := hn
    rw [hn'] at h
    cases h
  | some q =>
    have hn' : ((uthreads remains).nextAvailableReady (yielded ctx c s)).1 = some q := hn
    obtain ⟨rest, hp, hstate⟩ := nextAvailableReady_picks hc hn
    have hstate' : ((uthreads remains).nextAvailableReady (yielded ctx c s)).2 =
        pickedState ctx c rest s := hstate
    rw [hn', hstate'] at h
    have hsw : Switch s c ctx q _ := startQuantum_switch hd hp
    have hdel := startQuantum_deleted q (pickedState ctx c rest s)
    obtain ⟨ho, rfl⟩ := siglongjmp_delivers (by
      intro tid hdn
      have := henv q tid (by rw [hdel] at hdn; exact hdn)
      rwa [← hsw.env q] at this) h
    cases ho
    rfl

/-- A dispatch, with the value that its context decides. -/
theorem step_dispatch {next : ThreadRef} {v : Option ℤ} (hi : Invariant s)
    (h : step (uthreads remains) s e = .ok (.dispatched next v, t)) :
    ∃ c ctx s', Enters remains s e c ctx s' ∧ Dispatch s' c ctx next v t ∧
      v = delivered (t.heap next).env := by
  obtain ⟨c, hc, hlive⟩ := hi.current_live
  rcases step_cases remains hi.toTable hc hlive e with
    ⟨call, o', t', rfl, hs, hq⟩ | ⟨ctx, s', hs, he⟩ | ⟨f, hs, _⟩
  · rw [hs] at h
    cases h
    exact (hq.returns next v rfl).elim
  · rw [hs] at h
    obtain ⟨hcons, _, _, _, henv⟩ := enters_consistent hi he
    have hcur := enters_curRunning he
    obtain ⟨q, u, ho, hv, hn, hsw⟩ := switchThread_switch hcur hcons.distinct henv h
    cases ho
    exact ⟨c, ctx, s', he, ⟨hsw, hn, hv⟩, switchThread_delivers hcur hcons.distinct henv h⟩
  · rw [hs] at h
    cases h

theorem answers_of_resumePoint {ctx : Context} (h : resumePoint e = some ctx) :
    Answers e (delivered ctx) := by
  cases e with
  | timer => cases h; exact .timer
  | call c =>
    cases c with
    | spawn entryPoint =>
      cases entryPoint with
      | none => cases h
      | some pc => cases h; exact .spawn pc
    | block tid => cases h; exact .block tid
    | sleep n => cases h; exact .sleep n
    | _ => cases h

theorem observe_quiet (w : View) {call : Call} (ho : ∀ next v, o ≠ .dispatched next v)
    (hc : ∀ entryPoint id, call = .spawn entryPoint → o ≠ .returned id) :
    w.observe (.call call, o) = w := by
  cases o with
  | dispatched next v => exact (ho next v rfl).elim
  | returned id =>
    cases call with
    | spawn entryPoint => exact (hc entryPoint id rfl rfl).elim
    | _ => rfl
  | failed e => cases call <;> rfl
  | exited => cases call <;> rfl

theorem Tracks.frame (h : Tracks w s) (hcur : t.curRunning = s.curRunning)
    (hnext : t.nextRef = s.nextRef)
    (hlive : ∀ r, t.Live r → s.Live r ∧ (t.heap r).id = (s.heap r).id ∧
      (t.heap r).env = (s.heap r).env) : Tracks w t := by
  constructor
  case running => rw [hcur]; exact h.running
  case created => rw [hnext]; exact h.created
  case identity =>
    intro r hr
    obtain ⟨hr, hid, _⟩ := hlive r hr
    rw [hid]
    exact h.identity r hr
  case waiting =>
    intro r hr hne
    obtain ⟨hr, _, henv⟩ := hlive r hr
    rw [henv]
    exact h.waiting r hr hne

/-- A new thread waits at its entry point, under the identifier its creator was told. -/
theorem tracks_spawned (hi : Invariant s) (h : Tracks w s) {i : Fin maxThreadNum} {pc : ℕ}
    (hfree : FirstFree s i) :
    Tracks (w.observe (.call (.spawn (some pc)), .returned (i : ℕ)))
      (unmaskSignals (spawned i pc s)) := by
  have hlive := spawned_live pc hfree
  have hself : (unmaskSignals (spawned i pc s)).heap s.nextRef = spawnedThread i pc :=
    spawned_self
  have hkeeps : ∀ r, s.Live r →
      r ≠ s.nextRef ∧ (unmaskSignals (spawned i pc s)).heap r = s.heap r :=
    fun r hr => ⟨hi.ne_fresh hr, spawned_of_ne (hi.ne_fresh hr)⟩
  constructor
  case running => exact h.running
  case created =>
    have : (w.ids ++ [((i : ℕ) : ℤ)]).length = s.nextRef + 1 := by simp [h.created]
    exact this
  case identity =>
    intro r hr
    change (w.ids ++ [((i : ℕ) : ℤ)])[r]? = _
    rcases (hlive r).mp hr with rfl | hr
    · rw [hself, ← h.created]
      simp [spawnedThread]
    · obtain ⟨_, hheap⟩ := hkeeps r hr
      rw [hheap, List.getElem?_append_left (by rw [h.created]; exact hi.live_allocated r hr)]
      exact h.identity r hr
  case waiting =>
    intro r hr hne
    change ∃ e, Function.update w.left w.ids.length _ r = some e ∧ _
    rw [h.created]
    rcases (hlive r).mp hr with rfl | hr
    · refine ⟨_, Function.update_self .., ?_⟩
      rw [hself]
      rfl
    · obtain ⟨hfresh, hheap⟩ := hkeeps r hr
      rw [Function.update_of_ne hfresh, hheap]
      exact h.waiting r hr hne

theorem quiet_tracks (hi : Invariant s) (h : Tracks w s) {call : Call}
    (hs : step (uthreads remains) s (.call call) = .ok (o, t))
    (hq : Quiet remains s call o t) : Tracks (w.observe (.call call, o)) t := by
  have hstill : ∀ {call : Call} {o : Outcome}, Quiet remains s call o t →
      (∀ entryPoint, call ≠ .spawn entryPoint) → w.observe (.call call, o) = w :=
    fun hq hc => observe_quiet w hq.returns fun entryPoint _ h => (hc entryPoint h).elim
  cases hq with
  | @idle _ _ b hidle ho =>
    have hsame : w.observe (.call call, o) = w := by
      refine observe_quiet w ho ?_
      rintro entryPoint id rfl
      have hr : Refuses s entryPoint := hidle.imp_right hi.count_full.mp
      obtain ⟨err, hs'⟩ := spawn_refused remains hi.toTable hr
      rw [hs'] at hs
      have ho : Outcome.failed err = o := congrArg Prod.fst (Except.ok.inj hs)
      simp [← ho]
    rw [hsame]
    exact h.frame rfl rfl fun r hr => ⟨hr, rfl, rfl⟩
  | spawn hfree => exact tracks_spawned hi h hfree
  | @block tid q d hq h0 hd hne =>
    rw [hstill (.block hq h0 hd hne) (by simp)]
    refine h.frame rfl rfl fun r hr => ⟨hr, ?_⟩
    by_cases hrq : r = q
    · subst hrq
      simp only [unmaskSignals, blocked_self, and_self]
    · simp only [unmaskSignals, blocked_of_ne hrq, and_self]
  | @resume tid q hq =>
    rw [hstill (.resume hq) (by simp)]
    refine h.frame rfl rfl fun r hr => ⟨hr, ?_⟩
    by_cases hrq : r = q
    · subst hrq
      simp only [unmaskSignals, resumed_self, and_self]
    · simp only [unmaskSignals, resumed_of_ne hrq, and_self]
  | @terminate i q d hq h0 hd hne =>
    rw [hstill (.terminate hq h0 hd hne) (by simp)]
    refine h.frame rfl rfl fun r hr => ?_
    obtain ⟨hr, hrq⟩ := (terminated_live hi.toTable remains hq r).mp hr
    have hheap : (terminated remains i q s).heap r = s.heap r := terminated_of_ne hrq
    simp only [unmaskSignals, hheap, hr, and_self]

/-- On the way into a switch the records of the other threads stay as they are, and the
caller is either gone or about to save the place where its event goes on. -/
theorem enters_frame (hi : Invariant s) {c r : ThreadRef} {ctx : Context} {s' : State}
    (he : Enters remains s e c ctx s') (hr : s'.Live r) :
    s.Live r ∧ (s'.heap r).id = (s.heap r).id ∧ (r ≠ c → (s'.heap r).env = (s.heap r).env) ∧
      (r = c → resumePoint e = some ctx) := by
  cases he with
  | timer => exact ⟨hr, rfl, fun _ => rfl, fun _ => rfl⟩
  | blockSelf =>
    refine ⟨hr, ?_, fun hrc => by rw [blocked_of_ne hrc], fun _ => rfl⟩
    by_cases hrc : r = c
    · subst hrc; rw [blocked_self]
    · rw [blocked_of_ne hrc]
  | sleep =>
    refine ⟨hr, ?_, fun hrc => by rw [asleep_of_ne hrc], fun _ => rfl⟩
    by_cases hrc : r = c
    · subst hrc; rw [asleep_self]
    · rw [asleep_of_ne hrc]
  | @exit i _ hcell =>
    obtain ⟨hr, hrc⟩ := (terminated_live hi.toTable remains hcell r).mp hr
    have hheap : (terminated remains i c s).heap r = s.heap r := terminated_of_ne hrc
    exact ⟨hr, by rw [hheap], fun _ => by rw [hheap], fun h => (hrc h).elim⟩

/-- In the middle of a switch the observer knows about every live thread where its saved
context goes on, the caller included. -/
theorem dispatch_tracks (hi : Invariant s) (h : Tracks w s) {c next : ThreadRef}
    {ctx : Context} {s' : State} {v : Option ℤ} (he : Enters remains s e c ctx s')
    (hd : Dispatch s' c ctx next v t) {r : ThreadRef} (hr : t.Live r) :
    ∃ e', w.leaving e r = some e' ∧ resumePoint e' = some (t.heap r).env := by
  obtain ⟨_, _, hc, _⟩ := enters_consistent hi he
  have hcw : c = w.running := Option.some.inj (hc.symm.trans h.running)
  have hr' : s'.Live r := by simpa only [State.Live, hd.allThreads] using hr
  obtain ⟨hlive, _, henv, hpoint⟩ := enters_frame hi he hr'
  rw [hd.env]
  by_cases hrc : r = c
  · rw [if_pos hrc, View.leaving, hrc, hcw, Function.update_self]
    exact ⟨e, rfl, hpoint hrc⟩
  · rw [if_neg hrc, View.leaving, Function.update_of_ne (by rw [← hcw]; exact hrc), henv hrc]
    exact h.waiting r hlive (by rw [← hcw]; exact hrc)

theorem switch_tracks (hi : Invariant s) (h : Tracks w s) {next : ThreadRef} {v : Option ℤ}
    (hs : step (uthreads remains) s e = .ok (.dispatched next v, t)) :
    Tracks (w.observe (e, .dispatched next v)) t ∧
      ∃ e', w.leaving e next = some e' ∧ Answers e' v := by
  obtain ⟨c, ctx, s', he, hd, hv⟩ := step_dispatch hi hs
  have hwait := fun {r} (hr : t.Live r) => dispatch_tracks hi h he hd hr
  obtain ⟨q, hq, hlive⟩ := (step_preserves_invariant hi hs).current_live
  obtain rfl : next = q := Option.some.inj (hd.curRunning.symm.trans hq)
  have hobserve : w.observe (e, .dispatched next v) =
      { w with running := next, left := Function.update (w.leaving e) next none } := by
    cases e with
    | timer => rfl
    | call call => cases call <;> rfl
  rw [hobserve]
  refine ⟨⟨hd.curRunning, ?_, fun r hr => ?_, fun r hr hne => ?_⟩, ?_⟩
  · have hnext : s'.nextRef = s.nextRef := by cases he <;> rfl
    rw [hd.nextRef, hnext]
    exact h.created
  · have hr' : s'.Live r := by simpa only [State.Live, hd.allThreads] using hr
    obtain ⟨hlive, hid, _⟩ := enters_frame hi he hr'
    rw [hd.id, hid]
    exact h.identity r hlive
  · have hleft : Function.update (w.leaving e) next none r = w.leaving e r :=
      Function.update_of_ne hne ..
    simp only [hleft]
    exact hwait hr
  · obtain ⟨e', hleft, hpoint⟩ := hwait hlive
    refine ⟨e', hleft, ?_⟩
    rw [hv]
    exact answers_of_resumePoint hpoint

theorem view_append (tr : List (Event × Outcome)) (x : Event × Outcome) :
    view (tr ++ [x]) = (view tr).observe x := by
  rw [view, List.foldl_append]
  rfl

theorem answered_append (h : Answered tr)
    (hlast : ∀ next v, o = .dispatched next v →
      ∃ e', (view tr).leaving e next = some e' ∧ Answers e' v) : Answered (tr ++ [(e, o)]) := by
  intro pre e₁ next v post hsplit
  rcases List.eq_nil_or_concat post with rfl | ⟨post, x, rfl⟩
  · obtain ⟨rfl, hx⟩ := List.append_inj' hsplit rfl
    cases hx
    exact hlast next v rfl
  · have hsplit' : tr ++ [(e, o)] = (pre ++ (e₁, .dispatched next v) :: post) ++ [x] := by
      rw [hsplit]
      simp
    obtain ⟨htr, _⟩ := List.append_inj' hsplit' rfl
    exact h pre e₁ next v post htr

theorem initial_tracks : Tracks .start initial := by
  have hlive : ∀ r, initial.Live r → r = 0 := by
    rintro r ⟨i, hi⟩
    by_cases h0 : i = 0
    · subst h0
      simpa [initial] using hi.symm
    · simp [initial, Function.update_of_ne h0] at hi
  constructor
  case running => rfl
  case created => rfl
  case identity => intro r hr; rw [hlive r hr]; rfl
  case waiting => intro r hr hne; exact (hne (hlive r hr)).elim

theorem step_tracks (hi : Invariant s) (h : Tracks w s)
    (hs : step (uthreads remains) s e = .ok (o, t)) : Tracks (w.observe (e, o)) t := by
  cases step_effect hi hs with
  | quiet hq => exact quiet_tracks hi h hs hq
  | switch => exact (switch_tracks hi h hs).1

theorem reachable_tracks (h : Runs remains tr s) :
    Invariant s ∧ Tracks (view tr) s ∧ Answered tr := by
  refine h.history (I := fun tr s => Invariant s ∧ Tracks (view tr) s ∧ Answered tr)
    ⟨initial_invariant, initial_tracks, ?_⟩ ?_
  · intro pre e next v post hsplit
    cases pre <;> cases hsplit
  · intro tr s e o t ⟨hi, hw, ha⟩ hs
    refine ⟨step_preserves_invariant hi hs, ?_, answered_append ha ?_⟩
    · rw [view_append]
      exact step_tracks hi hw hs
    · rintro next v rfl
      exact (switch_tracks hi hw hs).2

/-- Control is where the threads can tell that it should be: each dispatch continues the
thread at the place and with the answer of its own last event. -/
theorem resumes_where_left (h : Runs remains tr s) : Tracks (view tr) s ∧ Answered tr :=
  (reachable_tracks h).2

/-- A thread that blocked itself is resumed and reads the 0 of its own call. -/
theorem resumes_where_left_blocked :
    let es : List Event := [.call (.spawn (some 7)), .timer, .call (.block 1),
      .call (.resume 1), .timer]
    (history freedRecord initial es).getLast? = some (.timer, .dispatched 1 (some 0)) ∧
      Tracks (view (history freedRecord initial es)) (after freedRecord initial es) ∧
      Answered (history freedRecord initial es) := by
  intro es
  exact ⟨by decide +kernel, resumes_where_left (runs_history freedRecord es (by decide +kernel))⟩

/-- A call made in `s` under the identifier that `spawn` told the creator of `r` reaches
`r`, and `r` learns the same identifier about itself. -/
def NamedBy (remains : ThreadRef → Thread → Thread) (s : State) (r : ThreadRef) (id : ℤ) :
    Prop :=
  (∀ q, s.At id q ↔ q = r) ∧
    (s.curRunning = some r → step (uthreads remains) s (.call .getTid) = .ok (.returned id, s))

/-- Reuse of identifiers confuses no one: what `spawn` returned names the thread that it
created, for as long as that thread lives. -/
theorem names_reach (h : Runs remains tr s) {r : ThreadRef} (hr : s.Live r) :
    ∃ id, (view tr).ids[r]? = some id ∧ NamedBy remains s r id := by
  have hi := reachable_invariant h
  refine ⟨(s.heap r).id, (reachable_tracks h).2.1.identity r hr, ?_, fun hc => ?_⟩
  · have hat : s.At (s.heap r).id r := (hi.at_iff hr _).mpr rfl
    exact fun q => ⟨fun hq => At.unique hq hat, fun hq => hq ▸ hat⟩
  · simp only [step, request, uthreadGetTid, hc, deref_some, ok_bind, pure_ok]

/-- Identifier 1 is taken a second time, by record 2. -/
theorem names_reach_reused :
    let es : List Event := [.call (.spawn (some 7)), .call (.terminate 1), .call (.spawn (some 8))]
    (view (history freedRecord initial es)).ids = [0, 1, 1] ∧
      ∃ id, (view (history freedRecord initial es)).ids[2]? = some id ∧
        NamedBy freedRecord (after freedRecord initial es) 2 id := by
  intro es
  exact ⟨by decide +kernel, names_reach (runs_history freedRecord es (by decide +kernel))
    (by decide +kernel)⟩

end ReturnPoints
