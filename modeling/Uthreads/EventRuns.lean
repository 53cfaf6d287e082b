import Mathlib.Data.List.Basic
import Mathlib.Tactic.Common

/-! # Runs of a deterministic event machine

A machine maps a state and an event to an outcome and a next state, or refuses the
event with a fault. A run is a list of accepted events with their outcomes. -/
namespace EventRuns

variable {σ ε ω φ : Type*} {step : σ → ε → Except φ (ω × σ)}

inductive Exec (step : σ → ε → Except φ (ω × σ)) : σ → List (ε × ω) → σ → Prop where
  | nil (s) : Exec step s [] s
  | cons {s e o t tr u} : step s e = .ok (o, t) → Exec step t tr u →
      Exec step s ((e, o) :: tr) u

/-- The computable form: the trace and the last state of a list of events. -/
def run (step : σ → ε → Except φ (ω × σ)) : σ → List ε → Except φ (List (ε × ω) × σ)
  | s, [] => .ok ([], s)
  | s, e :: es =>
    match step s e with
    | .error f => .error f
    | .ok (o, t) =>
      match run step t es with
      | .error f => .error f
      | .ok (tr, u) => .ok ((e, o) :: tr, u)

theorem run_exec {s u : σ} {es : List ε} {tr : List (ε × ω)}
    (h : run step s es = .ok (tr, u)) : Exec step s tr u := by
  induction es generalizing s tr with
  | nil => cases h; exact .nil u
  | cons e es ih =>
    rw [run] at h
    split at h
    · cases h
    · rename_i o t hs
      split at h
      · cases h
      · rename_i tr' v hr
        cases h
        exact .cons hs (ih hr)

/-- The trace of a list of events, for evaluation; meaningful when all are accepted. -/
def trace (step : σ → ε → Except φ (ω × σ)) (s : σ) (es : List ε) : List (ε × ω) :=
  match run step s es with
  | .ok (tr, _) => tr
  | .error _ => []

def final (step : σ → ε → Except φ (ω × σ)) (s : σ) (es : List ε) : σ :=
  match run step s es with
  | .ok (_, t) => t
  | .error _ => s

theorem exec_trace {s : σ} {es : List ε} (h : (run step s es).isOk = true) :
    Exec step s (trace step s es) (final step s es) := by
  cases hr : run step s es with
  | error f => rw [hr] at h; cases h
  | ok x =>
    have hx := run_exec hr
    simpa only [trace, final, hr] using hx

theorem step_final {s : σ} {e : ε} {o : ω} (h : trace step s [e] = [(e, o)]) :
    step s e = .ok (o, final step s [e]) := by
  cases hs : step s e with
  | error f => simp [trace, run, hs] at h
  | ok x =>
    simp only [trace, run, hs, List.cons.injEq, Prod.mk.injEq, true_and, and_true] at h
    simp only [final, run, hs, ← h]

theorem Exec.single {s t : σ} {e : ε} {o : ω} (h : step s e = .ok (o, t)) :
    Exec step s [(e, o)] t := .cons h (.nil t)

theorem Exec.append {s t u : σ} {tr tr' : List (ε × ω)} (h : Exec step s tr t)
    (k : Exec step t tr' u) : Exec step s (tr ++ tr') u := by
  induction h with
  | nil => exact k
  | cons hs _ ih => exact .cons hs (ih k)

theorem Exec.split {s u : σ} {tr tr' : List (ε × ω)} (h : Exec step s (tr ++ tr') u) :
    ∃ t, Exec step s tr t ∧ Exec step t tr' u := by
  induction tr generalizing s with
  | nil => exact ⟨s, .nil s, h⟩
  | cons x tr ih =>
    cases h with
    | cons hs hr =>
      obtain ⟨t, h1, h2⟩ := ih hr
      exact ⟨t, .cons hs h1, h2⟩

theorem Exec.cons_inv {s u : σ} {e : ε} {o : ω} {tr : List (ε × ω)}
    (h : Exec step s ((e, o) :: tr) u) :
    ∃ t, step s e = .ok (o, t) ∧ Exec step t tr u := by
  cases h with
  | cons hs hr => exact ⟨_, hs, hr⟩

theorem Exec.deterministic {s t u : σ} {tr : List (ε × ω)} (h : Exec step s tr t)
    (k : Exec step s tr u) : t = u := by
  induction h with
  | nil => cases k; rfl
  | cons hs _ ih =>
    obtain ⟨v, hv, hr⟩ := k.cons_inv
    rw [hs] at hv
    cases hv
    exact ih hr

/-- Also the outcomes are determined by the events. -/
theorem Exec.trace_deterministic {s t u : σ} {tr tr' : List (ε × ω)} (h : Exec step s tr t)
    (k : Exec step s tr' u) (he : tr.map Prod.fst = tr'.map Prod.fst) : tr = tr' := by
  induction h generalizing tr' with
  | nil => cases tr' with
    | nil => rfl
    | cons => cases he
  | cons hs _ ih =>
    cases k with
    | nil => cases he
    | cons hs' hr =>
      simp only [List.map_cons, List.cons.injEq] at he
      obtain ⟨rfl, he⟩ := he
      rw [hs] at hs'
      cases hs'
      rw [ih hr he]

theorem Exec.invariant {I : σ → Prop} {s t : σ} {tr : List (ε × ω)} (h : Exec step s tr t)
    (h0 : I s) (hstep : ∀ s e o t, I s → step s e = .ok (o, t) → I t) : I t := by
  induction h with
  | nil => exact h0
  | cons hs _ ih => exact ih (hstep _ _ _ _ h0 hs)

/-- A potential that only the steps in `p` raise, each by at most 1. -/
theorem Exec.potential_le {I : σ → Prop} {Φ : σ → ℕ} {p : ε × ω → Bool} {s t : σ}
    {tr : List (ε × ω)} (h : Exec step s tr t) (h0 : I s)
    (hstep : ∀ s e o t, I s → step s e = .ok (o, t) →
      I t ∧ Φ t ≤ Φ s + if p (e, o) then 1 else 0) : Φ t ≤ Φ s + tr.countP p := by
  induction h with
  | nil => exact Nat.le_add_right ..
  | @cons _ e o _ tr _ hs _ ih =>
    obtain ⟨h1, hle⟩ := hstep _ _ _ _ h0 hs
    have hrest := ih h1
    rw [List.countP_cons]
    omega

/-- Invariants that speak about the trace so far. -/
theorem Exec.history {I : List (ε × ω) → σ → Prop} {s t : σ} {tr : List (ε × ω)}
    (h : Exec step s tr t) (h0 : I [] s)
    (hstep : ∀ tr s e o t, I tr s → step s e = .ok (o, t) → I (tr ++ [(e, o)]) t) : I tr t := by
  have main : ∀ {s t tr}, Exec step s tr t → ∀ pre, I pre s → I (pre ++ tr) t := by
    intro s t tr h
    induction h with
    | nil => intro pre hp; simpa using hp
    | cons hs _ ih =>
      intro pre hp
      have := ih _ (hstep _ _ _ _ _ hp hs)
      simpa using this
  exact main h [] h0

/-- Every state of the run, the first and the last included, satisfies `P`. -/
def Always (step : σ → ε → Except φ (ω × σ)) (P : σ → Prop) (s : σ) (tr : List (ε × ω)) : Prop :=
  ∀ pre post t, tr = pre ++ post → Exec step s pre t → P t

/-- Every step of the run is taken in a state and with an event that satisfy `C`. -/
def EachStep (step : σ → ε → Except φ (ω × σ)) (C : σ → ε → Prop) (s : σ)
    (tr : List (ε × ω)) : Prop :=
  ∀ pre e o post t, tr = pre ++ (e, o) :: post → Exec step s pre t → C t e

theorem EachStep.of_append {C : σ → ε → Prop} {s : σ} {tr tr' : List (ε × ω)}
    (h : EachStep step C s (tr ++ tr')) : EachStep step C s tr :=
  fun pre e o post t he ht => h pre e o (post ++ tr') t (by rw [he]; simp) ht

theorem EachStep.after {C : σ → ε → Prop} {s t : σ} {tr tr' : List (ε × ω)}
    (h : EachStep step C s (tr ++ tr')) (ht : Exec step s tr t) : EachStep step C t tr' :=
  fun pre e o post u he hu =>
    h (tr ++ pre) e o post u (by rw [he]; simp) (ht.append hu)

theorem EachStep.head {C : σ → ε → Prop} {s : σ} {e : ε} {o : ω} {tr : List (ε × ω)}
    (h : EachStep step C s ((e, o) :: tr)) : C s e :=
  h [] e o tr s rfl (.nil s)

theorem EachStep.tail {C : σ → ε → Prop} {s t : σ} {e : ε} {o : ω} {tr : List (ε × ω)}
    (h : EachStep step C s ((e, o) :: tr)) (hs : step s e = .ok (o, t)) :
    EachStep step C t tr :=
  fun pre e' o' post u he hu =>
    h ((e, o) :: pre) e' o' post u (by rw [he]; rfl) (.cons hs hu)

theorem EachStep.nil {C : σ → ε → Prop} (s : σ) : EachStep step C s [] :=
  fun pre _ _ _ _ he => by cases pre <;> cases he

theorem EachStep.cons {C : σ → ε → Prop} {s t : σ} {e : ε} {o : ω} {tr : List (ε × ω)}
    (hc : C s e) (hs : step s e = .ok (o, t)) (h : EachStep step C t tr) :
    EachStep step C s ((e, o) :: tr) := by
  intro pre e' o' post u he hu
  cases pre with
  | nil =>
    cases he
    cases hu
    exact hc
  | cons x pre =>
    obtain ⟨rfl, rfl⟩ := List.cons.inj he
    obtain ⟨v, hv, hr⟩ := hu.cons_inv
    rw [hs] at hv
    cases hv
    exact h pre e' o' post u rfl hr

/-- The condition along a list of accepted events, for evaluation. -/
def meets (step : σ → ε → Except φ (ω × σ)) (C : σ → ε → Prop) [∀ s e, Decidable (C s e)] :
    σ → List ε → Bool
  | _, [] => true
  | s, e :: es =>
    match step s e with
    | .error _ => false
    | .ok (_, t) => decide (C s e) && meets step C t es

theorem exec_of_meets {C : σ → ε → Prop} [∀ s e, Decidable (C s e)] {s : σ} {es : List ε}
    (h : meets step C s es = true) :
    ∃ tr t, run step s es = .ok (tr, t) ∧ Exec step s tr t ∧ EachStep step C s tr := by
  induction es generalizing s with
  | nil => exact ⟨[], s, rfl, .nil s, .nil s⟩
  | cons e es ih =>
    rw [meets] at h
    split at h
    · cases h
    · rename_i o t hs
      obtain ⟨hc, hrest⟩ := Bool.and_eq_true_iff.mp h
      obtain ⟨tr, u, hrun, hexec, heach⟩ := ih hrest
      refine ⟨(e, o) :: tr, u, ?_, .cons hs hexec, .cons (of_decide_eq_true hc) hs heach⟩
      simp only [run, hs, hrun]

theorem eachStep_of_meets {C : σ → ε → Prop} [∀ s e, Decidable (C s e)] {s : σ} {es : List ε}
    (h : meets step C s es = true) :
    Exec step s (trace step s es) (final step s es) ∧ EachStep step C s (trace step s es) := by
  obtain ⟨tr, t, hrun, hexec, heach⟩ := exec_of_meets h
  simp only [trace, final, hrun]
  exact ⟨hexec, heach⟩

theorem Always.tail {P : σ → Prop} {s t : σ} {e : ε} {o : ω} {tr : List (ε × ω)}
    (h : Always step P s ((e, o) :: tr)) (hs : step s e = .ok (o, t)) : Always step P t tr :=
  fun pre post u he hu => h ((e, o) :: pre) post u (by rw [he]; rfl) (.cons hs hu)

/-- The invariant rule for runs whose steps all meet a condition. -/
theorem Exec.invariant_of_eachStep {I : σ → Prop} {C : σ → ε → Prop} {s t : σ}
    {tr : List (ε × ω)} (h : Exec step s tr t) (hc : EachStep step C s tr) (h0 : I s)
    (hstep : ∀ s e o t, I s → C s e → step s e = .ok (o, t) → I t) : I t := by
  induction h with
  | nil => exact h0
  | cons hs _ ih => exact ih (hc.tail hs) (hstep _ _ _ _ h0 hc.head hs)

/-- When, in the states of an invariant `I`, the condition `C` decides whether a step
keeps `P`, then `P` holds along a run exactly if every step meets `C`. -/
theorem always_iff_eachStep {I P : σ → Prop} {C : σ → ε → Prop} {s t : σ}
    {tr : List (ε × ω)} (h : Exec step s tr t) (h0 : I s) (hP : P s)
    (hI : ∀ s e o t, I s → step s e = .ok (o, t) → I t)
    (hC : ∀ s e o t, I s → P s → step s e = .ok (o, t) → (P t ↔ C s e)) :
    Always step P s tr ↔ EachStep step C s tr := by
  constructor
  · intro ha pre e o post u he hu
    subst he
    have hu0 : I u := hu.invariant h0 hI
    obtain ⟨v, hv, hr⟩ := h.split
    obtain rfl := hu.deterministic hv
    obtain ⟨w, hw, _⟩ := hr.cons_inv
    have hPu : P u := ha pre _ u rfl hu
    have hPw : P w := ha (pre ++ [(e, o)]) post w (by simp) (hu.append (.single hw))
    exact (hC u e o w hu0 hPu hw).mp hPw
  · intro hc pre post u he hu
    subst he
    have : I u ∧ P u := hu.invariant_of_eachStep (I := fun s => I s ∧ P s) hc.of_append ⟨h0, hP⟩
      (fun s e o t hs hCs hst => ⟨hI s e o t hs.1 hst, (hC s e o t hs.1 hs.2 hst).mpr hCs⟩)
    exact this.2

/-- A step-by-step simulation that keeps outcomes carries whole runs over. -/
theorem Exec.simulation {τ ψ : Type*} {step' : τ → ε → Except ψ (ω × τ)} {R : σ → τ → Prop}
    {C : σ → ε → Prop} {s t : σ} {s' : τ} {tr : List (ε × ω)} (h : Exec step s tr t)
    (hc : EachStep step C s tr) (h0 : R s s')
    (hstep : ∀ s s' e o t, R s s' → C s e → step s e = .ok (o, t) →
      ∃ t', step' s' e = .ok (o, t') ∧ R t t') :
    ∃ t', Exec step' s' tr t' ∧ R t t' := by
  induction h generalizing s' with
  | nil => exact ⟨s', .nil s', h0⟩
  | cons hs _ ih =>
    obtain ⟨u', hu, hR⟩ := hstep _ _ _ _ _ h0 hc.head hs
    obtain ⟨t', ht, hR'⟩ := ih (hc.tail hs) hR
    exact ⟨t', .cons hu ht, hR'⟩

/-- A machine that does the same to renamed states has the renamed runs, and no others. -/
theorem exec_image_iff {τ ω' : Type*} {step' : τ → ε → Except φ (ω' × τ)} {f : σ → τ}
    {g : ω → ω'} (hstep : ∀ s e, step' (f s) e = (step s e).map fun x => (g x.1, f x.2)) {s : σ}
    {tr' : List (ε × ω')} {u' : τ} :
    Exec step' (f s) tr' u' ↔
      ∃ tr u, Exec step s tr u ∧ tr' = tr.map (Prod.map id g) ∧ u' = f u := by
  constructor
  · intro h
    generalize hs : f s = s' at h
    induction h generalizing s with
    | nil => exact ⟨[], s, .nil s, rfl, hs.symm⟩
    | @cons _ e _ _ _ _ h _ ih =>
      subst hs
      rw [hstep] at h
      cases hx : step s e with
      | error => rw [hx] at h; cases h
      | ok x =>
        rw [hx] at h
        cases h
        obtain ⟨tr, u, hrun, rfl, rfl⟩ := ih rfl
        exact ⟨(e, x.1) :: tr, u, .cons hx hrun, rfl, rfl⟩
  · rintro ⟨tr, u, h, rfl, rfl⟩
    induction h with
    | nil => exact .nil _
    | cons hs _ ih => exact .cons ((hstep _ _).trans (congrArg _ hs)) ih

section Refinement

variable {τ α : Type*}

/-- The runs that a specification permits, event by event and answer by answer. -/
inductive Permitted (permits : τ → ε → α → τ → Prop) : τ → List (ε × α) → τ → Prop where
  | nil (a) : Permitted permits a [] a
  | cons {a b c e x l} : permits a e x b → Permitted permits b l c →
      Permitted permits a ((e, x) :: l) c

/-- A run of the machine and what its user reads from the outcomes. -/
inductive ReadAs (step : σ → ε → Except φ (ω × σ)) (reads : σ → ω → α → Prop) :
    σ → List (ε × ω) → List (ε × α) → σ → Prop where
  | nil (s) : ReadAs step reads s [] [] s
  | cons {s t u e o x tr l} : step s e = .ok (o, t) → reads t o x →
      ReadAs step reads t tr l u → ReadAs step reads s ((e, o) :: tr) ((e, x) :: l) u

/-- A relation that every step can restore, with an answer that is permitted, carries
whole runs over. -/
theorem Exec.refines {permits : τ → ε → α → τ → Prop} {reads : σ → ω → α → Prop}
    {R : σ → τ → Prop} {C : σ → ε → Prop} {s t : σ} {a : τ} {tr : List (ε × ω)}
    (h : Exec step s tr t) (hc : EachStep step C s tr) (h0 : R s a)
    (hstep : ∀ s a e o t, R s a → C s e → step s e = .ok (o, t) →
      ∃ x b, reads t o x ∧ permits a e x b ∧ R t b) :
    ∃ l b, ReadAs step reads s tr l t ∧ Permitted permits a l b ∧ R t b := by
  induction h generalizing a with
  | nil s => exact ⟨[], a, .nil s, .nil a, h0⟩
  | cons hs _ ih =>
    obtain ⟨x, b, hread, hpermit, hR⟩ := hstep _ _ _ _ _ h0 hc.head hs
    obtain ⟨l, d, hreads, hpermits, hR'⟩ := ih (hc.tail hs) hR
    exact ⟨_ :: l, d, .cons hs hread hreads, .cons hpermit hpermits, hR'⟩

/-- The invariant rule for specifications. -/
theorem Permitted.invariant {permits : τ → ε → α → τ → Prop} {I : τ → Prop} {a b : τ}
    {l : List (ε × α)} (h : Permitted permits a l b) (h0 : I a)
    (hstep : ∀ a e x b, I a → permits a e x b → I b) : I b := by
  induction h with
  | nil => exact h0
  | cons hp _ ih => exact ih (hstep _ _ _ _ h0 hp)

end Refinement

section Detail

variable {τ ε' ω' ψ : Type*} {fine : τ → ε' → Except ψ (ω' × τ)} {inner : τ → σ}
  {seen : ε' × ω' → Option (ε × ω)} {I : τ → Prop}

/-- A detailed step is a step of the inner machine or leaves it alone, as `seen` says. -/
def Contains (step : σ → ε → Except φ (ω × σ)) (fine : τ → ε' → Except ψ (ω' × τ))
    (inner : τ → σ) (seen : ε' × ω' → Option (ε × ω)) : Prop :=
  ∀ w e o w', fine w e = .ok (o, w') →
    (seen (e, o) = none → inner w' = inner w) ∧
      ∀ x, seen (e, o) = some x → step (inner w) x.1 = .ok (x.2, inner w')

theorem Exec.project {w w' : τ} {tr : List (ε' × ω')} (h : Exec fine w tr w')
    (hc : Contains step fine inner seen) :
    Exec step (inner w) (tr.filterMap seen) (inner w') := by
  induction h with
  | nil => exact .nil _
  | @cons w e o t tr u hs _ ih =>
    obtain ⟨hskip, htake⟩ := hc w e o t hs
    cases hx : seen (e, o) with
    | none =>
      rw [List.filterMap_cons_none hx, ← hskip hx]
      exact ih
    | some x =>
      rw [List.filterMap_cons_some hx]
      exact .cons (htake x hx) ih

/-- When every inner step can be played in detail, so can every inner run. What the invariant
says may depend on the rest of the run. -/
theorem Exec.realise {I : List (ε × ω) → τ → Prop} {P : ε' × ω' → Prop} {s t : σ}
    {tr : List (ε × ω)} (h : Exec step s tr t) (inner : τ → σ)
    (seen : ε' × ω' → Option (ε × ω)) {w : τ} (hw : inner w = s) (h0 : I tr w)
    (hstep : ∀ w e o tr t, I ((e, o) :: tr) w → step (inner w) e = .ok (o, t) →
      ∃ tr' w', Exec fine w tr' w' ∧ (∀ x ∈ tr', P x) ∧ tr'.filterMap seen = [(e, o)] ∧
        inner w' = t ∧ I tr w') :
    ∃ tr' w', Exec fine w tr' w' ∧ (∀ x ∈ tr', P x) ∧ tr'.filterMap seen = tr ∧
      inner w' = t := by
  induction h generalizing w with
  | nil => exact ⟨[], w, .nil w, by simp, rfl, hw⟩
  | cons hs _ ih =>
    obtain ⟨tr₁, w₁, hrun₁, hP₁, hseen₁, hinner₁, hI₁⟩ :=
      hstep w _ _ _ _ h0 (by rw [hw]; exact hs)
    obtain ⟨tr₂, w₂, hrun₂, hP₂, hseen₂, hinner₂⟩ := ih hinner₁ hI₁
    refine ⟨tr₁ ++ tr₂, w₂, hrun₁.append hrun₂, fun x hx => ?_, ?_, hinner₂⟩
    · exact (List.mem_append.mp hx).elim (hP₁ x) (hP₂ x)
    · rw [List.filterMap_append, hseen₁, hseen₂]
      rfl

/-- What `f` reads off the steps of a run, in order. -/
def collect {β : Type*} (step : σ → ε → Except φ (ω × σ)) (f : σ → ε → ω → Option β) :
    σ → List (ε × ω) → List β
  | _, [] => []
  | s, (e, o) :: tr =>
    match step s e with
    | .error _ => []
    | .ok (_, t) => (f s e o).toList ++ collect step f t tr

theorem collect_cons {β : Type*} (f : σ → ε → ω → Option β) {s t : σ} {e : ε} {o : ω}
    (h : step s e = .ok (o, t)) (tr : List (ε × ω)) :
    collect step f s ((e, o) :: tr) = (f s e o).toList ++ collect step f t tr := by
  simp only [collect, h]

theorem Exec.collect_filterMap {β γ : Type*} {s t : σ} {tr : List (ε × ω)}
    (h : Exec step s tr t) (f : σ → ε → ω → Option β) (g : β → Option γ) :
    (collect step f s tr).filterMap g = collect step (fun s e o => (f s e o).bind g) s tr := by
  induction h with
  | nil => rfl
  | @cons s e o _ _ _ hs _ ih =>
    rw [collect_cons _ hs, collect_cons _ hs, List.filterMap_append, ih]
    cases f s e o with
    | none => rfl
    | some b => cases hg : g b <;> simp [hg]

/-- Detailed steps that are no step of the inner machine until the moment they take effect. -/
theorem Exec.takes_effect {take : τ → ε' → ω' → Option (ε × ω)} {w w' : τ}
    {tr : List (ε' × ω')} (h : Exec fine w tr w') (inner : τ → σ) (h0 : I w)
    (hstep : ∀ w e o w', I w → fine w e = .ok (o, w') → I w' ∧
      (take w e o = none → inner w' = inner w) ∧
        ∀ x, take w e o = some x → step (inner w) x.1 = .ok (x.2, inner w')) :
    Exec step (inner w) (collect fine take w tr) (inner w') := by
  induction h with
  | nil => exact .nil _
  | @cons w e o w₁ tr w' hs _ ih =>
    obtain ⟨h1, hskip, htake⟩ := hstep w e o w₁ h0 hs
    rw [collect_cons _ hs]
    cases hx : take w e o with
    | none =>
      rw [← hskip hx]
      exact ih h1
    | some x => exact .cons (htake x hx) (ih h1)

end Detail

end EventRuns
