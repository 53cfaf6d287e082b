import Uthreads.ThreadTable
import Uthreads.Commutation

/-! # Identifiers are handed out in order

Whatever was spawned and terminated before, and in whatever order identifiers came back, a
series of spawns gets the free ones from the smallest up, and then is refused. -/
namespace IdentifierReuse

open ThreadLibrary SwitchSemantics CallEffects EventRuns ThreadInvariant ThreadTable
  Commutation

def Free (s : State) (i : Fin maxThreadNum) : Prop := i ≠ 0 ∧ s.allThreads i = none

instance (s : State) : DecidablePred (Free s) := fun _ => inferInstanceAs (Decidable (_ ∧ _))

/-- In ascending order. -/
def freeIds (s : State) : List (Fin maxThreadNum) := (List.finRange maxThreadNum).filter (Free s)

/-- Neither main nor the running thread. -/
def Other (s : State) (i : Fin maxThreadNum) : Prop :=
  i ≠ 0 ∧ ∃ r, s.allThreads i = some r ∧ s.curRunning ≠ some r

variable {remains : ThreadRef → Thread → Thread} {s t : State} {i : Fin maxThreadNum}
  {ids : List (Fin maxThreadNum)} {tr : List (Event × Outcome)}

theorem freeIds_sorted (s : State) : (freeIds s).Pairwise (· < ·) :=
  (List.pairwise_lt_finRange maxThreadNum).filter _

theorem mem_freeIds : i ∈ freeIds s ↔ Free s i := by simp [freeIds]

/-- Two ascending lists with the same members are equal. -/
theorem freeIds_congr {p : Fin maxThreadNum → Prop} [DecidablePred p]
    (h : ∀ i, Free s i ↔ p i) : freeIds s = (List.finRange maxThreadNum).filter p := by
  apply List.filter_congr
  intro i _
  exact decide_eq_decide.mpr (h i)

/-- `findId` finds the head of the list. -/
theorem firstFree_of_freeIds (h : freeIds s = i :: ids) : FirstFree s i := by
  have hi : Free s i := mem_freeIds.mp (by rw [h]; exact List.mem_cons_self)
  refine ⟨hi.1, hi.2, fun j hj hj0 hnone => ?_⟩
  have hmem : j ∈ freeIds s := mem_freeIds.mpr ⟨hj0, hnone⟩
  have hsorted := freeIds_sorted s
  rw [h] at hmem hsorted
  rcases List.mem_cons.mp hmem with rfl | hmem
  · exact lt_irrefl _ hj
  · exact lt_asymm hj (List.rel_of_pairwise_cons hsorted hmem)

theorem freeIds_spawned (pc : ℕ) (h : freeIds s = i :: ids) :
    freeIds (unmaskSignals (spawned i pc s)) = ids := by
  have hfree : ∀ j, Free (unmaskSignals (spawned i pc s)) j ↔ Free s j ∧ j ≠ i := by
    intro j
    by_cases hj : j = i
    · subst hj
      have hcell := spawned_cell j pc s
      exact iff_of_false (fun hf => by cases hcell.symm.trans hf.2) fun hf => hf.2 rfl
    · have hcell : (unmaskSignals (spawned i pc s)).allThreads j = s.allThreads j :=
        spawned_cell_of_ne pc s hj
      simp only [Free, hcell, hj, ne_eq, not_false_eq_true, and_true]
  have hn : (i :: ids).Nodup := by
    rw [← h]
    exact (List.nodup_finRange maxThreadNum).filter _
  have hi : i ∉ ids := (List.nodup_cons.mp hn).1
  calc freeIds (unmaskSignals (spawned i pc s))
      = (freeIds s).filter (· ≠ i) := by
        rw [freeIds_congr hfree, freeIds, List.filter_filter]
        apply List.filter_congr
        intro j _
        simp only [Bool.decide_and, Bool.and_comm]
    _ = ids := by
        rw [h, List.filter_cons_of_neg (by simp)]
        refine List.filter_eq_self.mpr fun j hj => decide_eq_true ?_
        rintro rfl
        exact hi hj

/-- A series of spawns, with what they return. -/
def spawnTrace (pcs : List ℕ) (ids : List (Fin maxThreadNum)) : List (Event × Outcome) :=
  List.zipWith (fun pc (i : Fin maxThreadNum) => (.call (.spawn (some pc)), .returned (i : ℕ)))
    pcs ids

variable (remains) in
theorem spawn_step (hi : Invariant s) (h : freeIds s = i :: ids) (pc : ℕ) :
    step (uthreads remains) s (.call (.spawn (some pc))) =
      .ok (.returned (i : ℕ), unmaskSignals (spawned i pc s)) := by
  have hfirst := firstFree_of_freeIds h
  have hroom : count s < maxThreadNum := by
    apply not_le.mp
    intro hfull
    exact hi.count_full.mp hfull i hfirst.2.1
  have hid : findId s = (i : ℕ) := by
    rcases findId_cases s with ⟨j, hj, hjid⟩ | ⟨_, hnone⟩
    · rcases lt_trichotomy i j with hij | rfl | hij
      · exact (hj.2.2 i hij hfirst.1 hfirst.2.1).elim
      · exact hjid
      · exact (hfirst.2.2 j hij hj.1 hj.2.1).elim
    · exact (hnone i hfirst.1 hfirst.2.1).elim
  simp only [step, request, uthreadSpawn_ok hroom hid, ok_bind, pure_ok]

theorem spawn_run (remains : ThreadRef → Thread → Thread) (hi : Invariant s) (pcs : List ℕ)
    (hlen : pcs.length ≤ (freeIds s).length) :
    ∃ t, Exec (step (uthreads remains)) s (spawnTrace pcs (freeIds s)) t ∧ Invariant t ∧
      freeIds t = (freeIds s).drop pcs.length := by
  induction pcs generalizing s with
  | nil => exact ⟨s, .nil s, hi, rfl⟩
  | cons pc pcs ih =>
    cases h : freeIds s with
    | nil =>
      rw [h] at hlen
      cases hlen
    | cons i ids =>
      have hs := spawn_step remains hi h pc
      have hrest := freeIds_spawned pc h
      rw [h] at hlen
      obtain ⟨t, hrun, hti, hdrop⟩ := ih (step_preserves_invariant hi hs)
        (by rw [hrest]; exact Nat.le_of_succ_le_succ hlen)
      rw [hrest] at hrun hdrop
      exact ⟨t, .cons hs hrun, hti, hdrop⟩

def terminateTrace (ids : List (Fin maxThreadNum)) : List (Event × Outcome) :=
  ids.map fun i => (.call (.terminate (i : ℕ)), .returned 0)

/-- Terminating other threads frees their identifiers and no more. -/
theorem terminate_run (remains : ThreadRef → Thread → Thread) (hi : Invariant s)
    (hn : ids.Nodup) (ho : ∀ i ∈ ids, Other s i) :
    ∃ t, Exec (step (uthreads remains)) s (terminateTrace ids) t ∧ Invariant t ∧
      ∀ i, Free t i ↔ Free s i ∨ i ∈ ids := by
  induction ids generalizing s with
  | nil => exact ⟨s, .nil s, hi, fun i => by simp⟩
  | cons i ids ih =>
    obtain ⟨hnew, hn⟩ := List.nodup_cons.mp hn
    obtain ⟨h0, r, hr, hidle⟩ := ho i List.mem_cons_self
    have hs : step (uthreads remains) s (.call (.terminate (i : ℕ))) =
        .ok (.returned 0, unmaskSignals (terminated remains i r s)) :=
      operation_step remains .terminate hi hr h0 hidle
    have hcell : ∀ j, j ≠ i →
        (unmaskSignals (terminated remains i r s)).allThreads j = s.allThreads j :=
      fun j hj => terminated_cell_of_ne remains r s hj
    have hgone : (unmaskSignals (terminated remains i r s)).allThreads i = none :=
      terminated_cell remains i r s
    obtain ⟨t, hrun, hti, hfree⟩ := ih (step_preserves_invariant hi hs) hn fun j hj => by
      obtain ⟨hj0, q, hq, hqidle⟩ := ho j (List.mem_cons_of_mem i hj)
      have hji : j ≠ i := by rintro rfl; exact hnew hj
      exact ⟨hj0, q, (hcell j hji).trans hq, hqidle⟩
    refine ⟨t, .cons hs hrun, hti, fun j => ?_⟩
    rw [hfree, List.mem_cons]
    by_cases hj : j = i
    · subst hj
      exact iff_of_true (Or.inl ⟨h0, hgone⟩) (Or.inr (Or.inl rfl))
    · simp only [Free, hcell j hj, hj, false_or]

/-- Threads are terminated in any order, and as many entry points are spawned as there are
free identifiers then: they get these from the smallest up, and the next spawn fails. -/
theorem released_ids_in_order (h : Runs remains tr s) (hn : ids.Nodup)
    (ho : ∀ i ∈ ids, Other s i) (pcs : List ℕ)
    (hlen : pcs.length =
      ((List.finRange maxThreadNum).filter fun i => Free s i ∨ i ∈ ids).length) :
    ∃ t, Exec (step (uthreads remains)) s (terminateTrace ids ++ spawnTrace pcs
        ((List.finRange maxThreadNum).filter fun i => Free s i ∨ i ∈ ids)) t ∧
      ∀ entryPoint, ∃ err,
        step (uthreads remains) t (.call (.spawn entryPoint)) = .ok (.failed err, t) := by
  obtain ⟨u, hterm, hui, hfree⟩ := terminate_run remains (reachable_invariant h) hn ho
  have hids := freeIds_congr hfree
  rw [← hids] at hlen ⊢
  obtain ⟨t, hspawn, hti, hdrop⟩ := spawn_run remains hui pcs hlen.le
  refine ⟨t, hterm.append hspawn, fun entryPoint => ?_⟩
  have hnone : freeIds t = [] := by
    rw [hdrop, hlen]
    exact List.drop_length
  refine spawn_refused remains hti.toTable (Or.inr fun i hi => ?_)
  by_cases h0 : i = 0
  · obtain ⟨m, hm⟩ := hti.main_cell
    rw [h0, hm] at hi
    cases hi
  · have hmem : i ∈ freeIds t := mem_freeIds.mpr ⟨h0, hi⟩
    rw [hnone] at hmem
    cases hmem

/-- Identifiers 3 and 1 are released, in this order, and 98 spawns fill the table again. -/
theorem released_ids_in_order_two_released :
    let s := after freedRecord initial [.call (.spawn (some 7)), .call (.spawn (some 8)),
      .call (.spawn (some 9))]
    let ids := (List.finRange maxThreadNum).filter fun i => Free s i ∨ i ∈ [3, 1]
    ids.take 3 = [1, 3, 4] ∧
      ∃ t, Exec (step (uthreads freedRecord)) s
          (terminateTrace [3, 1] ++ spawnTrace (List.replicate 98 5) ids) t ∧
        ∀ entryPoint, ∃ err,
          step (uthreads freedRecord) t (.call (.spawn entryPoint)) = .ok (.failed err, t) := by
  intro s ids
  have h := runs_history freedRecord [.call (.spawn (some 7)), .call (.spawn (some 8)),
    .call (.spawn (some 9))] (by decide +kernel)
  refine ⟨by decide +kernel, released_ids_in_order h (by decide) ?_ (List.replicate 98 5)
    (by decide +kernel)⟩
  intro i hi
  rcases List.mem_cons.mp hi with rfl | hi
  · exact ⟨by decide, 3, by decide +kernel, by decide +kernel⟩
  · rw [List.mem_singleton.mp hi]
    exact ⟨by decide, 1, by decide +kernel, by decide +kernel⟩

end IdentifierReuse
