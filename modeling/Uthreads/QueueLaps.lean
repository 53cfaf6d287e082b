import Uthreads.LazyQueue

/-! # Laps of a rotating queue

A taken element goes back to the end of the queue. The test spares ready elements, except
an entry that has exactly one successor: the usual guess at a stale entry. A lap is what
one pass over the queue takes. -/
namespace LazyQueue

variable {α : Type*} [DecidableEq α]

/-- The elements that a number of sweeps take, each put back at the end. -/
inductive Spins (take : α → ℕ → Prop) [∀ a k, Decidable (take a k)] :
    List α → List α → List α → Prop where
  | nil (q) : Spins take q [] q
  | cons {q rest q' ds a} : sweep take q = some (a, rest) →
      Spins take (rest ++ [a]) ds q' → Spins take q (a :: ds) q'

/-- The entries of `pending` that are taken in one pass, with `again` put back before. -/
def lapFrom (take : α → ℕ → Prop) [∀ a k, Decidable (take a k)] :
    List α → List α → List α
  | [], _ => []
  | a :: pending, again =>
    if take a ((pending ++ again).count a) then a :: lapFrom take pending (again ++ [a])
    else lapFrom take pending again

def lap (take : α → ℕ → Prop) [∀ a k, Decidable (take a k)] (q : List α) : List α :=
  lapFrom take q []

/-- The guess at a stale entry. -/
def Spares (ready : α → Prop) (a : α) (k : ℕ) : Prop := ready a ∧ k ≠ 1

instance (ready : α → Prop) [DecidablePred ready] (a : α) (k : ℕ) :
    Decidable (Spares ready a k) := inferInstanceAs (Decidable (_ ∧ _))

section Spins

variable {take : α → ℕ → Prop} [∀ a k, Decidable (take a k)]

theorem Spins.append {q q' q'' ds ds' : List α} (h : Spins take q ds q')
    (k : Spins take q' ds' q'') : Spins take q (ds ++ ds') q'' := by
  induction h with
  | nil => exact k
  | cons hs _ ih => exact .cons hs (ih k)

/-- An entry that is not taken delays no one. -/
theorem Spins.cons_dropped {q q' ds : List α} {a : α} (h : Spins take q ds q')
    (ha : ¬ take a (q.count a)) (hne : ds ≠ []) : Spins take (a :: q) ds q' := by
  cases h with
  | nil => exact (hne rfl).elim
  | cons hs hrest => exact .cons ((sweep_cons_dropped ha).trans hs) hrest

theorem Spins.repeat {q : List α} {ds : List α} (h : Spins take q ds q) (m : ℕ) :
    Spins take q (List.replicate m ds).flatten q := by
  induction m with
  | zero => exact .nil q
  | succ m ih => exact h.append ih

theorem sweep_congr {take' : α → ℕ → Prop} [∀ a k, Decidable (take' a k)] {q : List α}
    (h : ∀ a ∈ q, ∀ k, take a k ↔ take' a k) : sweep take q = sweep take' q := by
  induction q with
  | nil => rfl
  | cons a q ih =>
    have ha := h a List.mem_cons_self (q.count a)
    have hq := ih fun b hb => h b (List.mem_cons_of_mem a hb)
    simp only [sweep, ha, hq]

theorem lapFrom_taken {a : α} {pending again : List α}
    (h : take a ((pending ++ again).count a)) :
    lapFrom take (a :: pending) again = a :: lapFrom take pending (again ++ [a]) := if_pos h

theorem lapFrom_dropped {a : α} {pending again : List α}
    (h : ¬ take a ((pending ++ again).count a)) :
    lapFrom take (a :: pending) again = lapFrom take pending again := if_neg h

end Spins

section Laps

variable {ready : α → Prop} [DecidablePred ready]

/-- An element with two entries in all has none among those put back. -/
def Unsplit (ready : α → Prop) (pending again : List α) : Prop :=
  ∀ a, ready a → (pending ++ again).count a = 2 → a ∉ again

omit [DecidablePred ready] in
theorem unsplit_nil (q : List α) : Unsplit ready q [] := fun _ _ _ => List.not_mem_nil

omit [DecidablePred ready] in
theorem count_again (a b : α) (pending again : List α) :
    (pending ++ (again ++ [a])).count b = (a :: pending ++ again).count b := by
  simp only [List.count_append, List.cons_append, List.count_cons, List.count_nil]
  omega

omit [DecidablePred ready] in
theorem Unsplit.taken {a : α} {pending again : List α} (h : Unsplit ready (a :: pending) again)
    (ha : Spares ready a ((pending ++ again).count a)) :
    Unsplit ready pending (again ++ [a]) := by
  intro b hb hcount hmem
  rw [count_again] at hcount
  rcases List.mem_append.mp hmem with hmem | hmem
  · exact h b hb hcount hmem
  · obtain rfl := List.mem_singleton.mp hmem
    rw [List.cons_append, List.count_cons_self] at hcount
    exact ha.2 (by omega)

omit [DecidablePred ready] in
theorem Unsplit.dropped {a : α} {pending again : List α}
    (h : Unsplit ready (a :: pending) again)
    (ha : ¬ Spares ready a ((pending ++ again).count a)) : Unsplit ready pending again := by
  intro b hb hcount
  by_cases hab : a = b
  · -- a ready element is dropped only while one other entry is left
    subst hab
    refine (ha ⟨hb, ?_⟩).elim
    rw [hcount]
    omega
  · apply h b hb
    rw [List.cons_append, List.count_cons_of_ne hab]
    exact hcount

omit [DecidablePred ready] in
/-- The last of two entries, or the last of several, is taken. -/
theorem Unsplit.last {a : α} {again : List α} (h : Unsplit ready [a] again) (ha : ready a) :
    Spares ready a (([] ++ again).count a) := by
  refine ⟨ha, fun hone => ?_⟩
  rw [List.nil_append] at hone
  have htwo : ([a] ++ again).count a = 2 := by
    rw [List.cons_append, List.nil_append, List.count_cons_self]
    omega
  exact h a ha htwo (List.count_pos_iff.mp (by omega))

/-- One pass over `pending`, when its last element is ready. -/
theorem spins_lapFrom {pending again : List α} (h : Unsplit ready pending again)
    (hlast : ∀ a, pending.getLast? = some a → ready a) :
    Spins (Spares ready) (pending ++ again) (lapFrom (Spares ready) pending again)
        (again ++ lapFrom (Spares ready) pending again) ∧
      (pending ≠ [] → lapFrom (Spares ready) pending again ≠ []) := by
  induction pending generalizing again with
  | nil =>
    refine ⟨?_, fun hne => (hne rfl).elim⟩
    rw [lapFrom, List.append_nil]
    exact .nil again
  | cons a pending ih =>
    have hrest : ∀ b, pending.getLast? = some b → ready b := by
      intro b hb
      apply hlast b
      cases pending with
      | nil => cases hb
      | cons c pending => rwa [List.getLast?_cons_cons]
    by_cases ha : Spares ready a ((pending ++ again).count a)
    · rw [lapFrom_taken ha]
      obtain ⟨hspin, _⟩ := ih (h.taken ha) hrest
      have hback : pending ++ again ++ [a] = pending ++ (again ++ [a]) := List.append_assoc ..
      have hend : again ++ a :: lapFrom (Spares ready) pending (again ++ [a]) =
          again ++ [a] ++ lapFrom (Spares ready) pending (again ++ [a]) := by simp
      refine ⟨.cons (sweep_cons_taken ha) ?_, fun _ => List.cons_ne_nil _ _⟩
      rw [hend]
      exact hback ▸ hspin
    · rw [lapFrom_dropped ha]
      obtain ⟨hspin, hne⟩ := ih (h.dropped ha) hrest
      have hpending : pending ≠ [] := by
        rintro rfl
        exact ha (h.last (hlast a rfl))
      exact ⟨hspin.cons_dropped ha (hne hpending), fun _ => hne hpending⟩

theorem lapFrom_ready {pending again : List α} {a : α}
    (h : a ∈ lapFrom (Spares ready) pending again) : ready a := by
  induction pending generalizing again with
  | nil => cases h
  | cons b pending ih =>
    by_cases hb : Spares ready b ((pending ++ again).count b)
    · rw [lapFrom_taken hb] at h
      rcases List.mem_cons.mp h with rfl | h
      · exact hb.1
      · exact ih h
    · rw [lapFrom_dropped hb] at h
      exact ih h

/-- No entry is spared for an element whose entries are not two. -/
theorem lapFrom_count {pending again : List α} {a : α} (ha : ready a)
    (h : (pending ++ again).count a ≠ 2) :
    (lapFrom (Spares ready) pending again).count a = pending.count a := by
  induction pending generalizing again with
  | nil => rfl
  | cons b pending ih =>
    by_cases hb : Spares ready b ((pending ++ again).count b)
    · rw [lapFrom_taken hb, List.count_cons, List.count_cons, ih]
      rw [count_again]
      exact h
    · have hba : b ≠ a := by
        rintro rfl
        refine hb ⟨ha, fun hone => h ?_⟩
        rw [List.cons_append, List.count_cons_self, hone]
      rw [lapFrom_dropped hb, List.count_cons_of_ne hba, ih]
      rwa [List.cons_append, List.count_cons_of_ne hba] at h

theorem lapFrom_count_two {pending again : List α} {a : α} (ha : ready a)
    (hp : pending.count a = 2) (hagain : a ∉ again) :
    (lapFrom (Spares ready) pending again).count a = 1 := by
  have hzero := List.count_eq_zero.mpr hagain
  induction pending generalizing again with
  | nil => cases hp
  | cons b pending ih =>
    by_cases hba : b = a
    · -- the first of the two is spared, and the second is then the only one
      subst hba
      rw [List.count_cons_self] at hp
      have hone : (pending ++ again).count b = 1 := by
        rw [List.count_append]
        omega
      have hb : ¬ Spares ready b ((pending ++ again).count b) := fun h => h.2 hone
      rw [lapFrom_dropped hb, lapFrom_count ha (by omega)]
      omega
    · rw [List.count_cons_of_ne hba] at hp
      by_cases hb : Spares ready b ((pending ++ again).count b)
      · have hmem : a ∉ again ++ [b] := by simp [hagain, Ne.symm hba]
        rw [lapFrom_taken hb, List.count_cons_of_ne hba]
        exact ih hp hmem (List.count_eq_zero.mpr hmem)
      · rw [lapFrom_dropped hb]
        exact ih hp hagain hzero

/-- How often an element is taken in a lap. -/
def share (ready : α → Prop) [DecidablePred ready] (q : List α) (a : α) : ℕ :=
  if ready a then if q.count a = 2 then 1 else q.count a else 0

theorem lap_count (q : List α) (a : α) : (lap (Spares ready) q).count a = share ready q a := by
  unfold share
  split
  · rename_i ha
    split
    · exact lapFrom_count_two ha ‹_› List.not_mem_nil
    · exact lapFrom_count ha (by rwa [List.append_nil])
  · rename_i ha
    exact List.count_eq_zero.mpr fun h => ha (lapFrom_ready h)

theorem lapFrom_of_steady {pending again : List α} (hready : ∀ a ∈ pending, ready a)
    (h : ∀ a ∈ pending, (pending ++ again).count a ≠ 2) :
    lapFrom (Spares ready) pending again = pending := by
  induction pending generalizing again with
  | nil => rfl
  | cons a pending ih =>
    have ha : Spares ready a ((pending ++ again).count a) := by
      refine ⟨hready a List.mem_cons_self, fun hone => h a List.mem_cons_self ?_⟩
      rw [List.cons_append, List.count_cons_self, hone]
    rw [lapFrom_taken ha, ih (fun b hb => hready b (List.mem_cons_of_mem a hb))]
    intro b hb
    rw [count_again]
    exact h b (List.mem_cons_of_mem a hb)

/-- After one lap the queue is in its final order: every further lap is the same. -/
theorem lap_lap (q : List α) :
    lap (Spares ready) (lap (Spares ready) q) = lap (Spares ready) q := by
  apply lapFrom_of_steady
  · exact fun a ha => lapFrom_ready ha
  · intro a ha
    rw [List.append_nil, lap_count, share, if_pos (lapFrom_ready ha)]
    split <;> omega

/-- The rotation, lap by lap. -/
theorem spins_laps {q : List α} {a : α} (hlast : q.getLast? = some a) (ha : ready a) (m : ℕ) :
    ∃ q', Spins (Spares ready) q (List.replicate m (lap (Spares ready) q)).flatten q' ∧
      (0 < m → q' = lap (Spares ready) q) := by
  have hready : ∀ b, q.getLast? = some b → ready b := by
    intro b hb
    rw [hlast] at hb
    obtain rfl := Option.some.inj hb
    exact ha
  obtain ⟨hfirst, hne⟩ := spins_lapFrom (unsplit_nil q) hready
  rw [List.append_nil, List.nil_append] at hfirst
  change Spins _ q (lap (Spares ready) q) (lap (Spares ready) q) at hfirst
  have hlapready : ∀ b, (lap (Spares ready) q).getLast? = some b → ready b := by
    intro b hb
    exact lapFrom_ready (List.mem_of_getLast? hb)
  obtain ⟨hnext, _⟩ := spins_lapFrom (unsplit_nil (lap (Spares ready) q)) hlapready
  rw [List.append_nil, List.nil_append] at hnext
  change Spins _ _ (lap (Spares ready) (lap (Spares ready) q))
    (lap (Spares ready) (lap (Spares ready) q)) at hnext
  rw [lap_lap] at hnext
  cases m with
  | zero => exact ⟨q, .nil q, fun h => (Nat.lt_irrefl 0 h).elim⟩
  | succ m => exact ⟨_, hfirst.append (hnext.repeat m), fun _ => rfl⟩

end Laps

end LazyQueue
