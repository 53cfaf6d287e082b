import Mathlib.Data.List.Basic
import Mathlib.Data.List.Nodup
import Mathlib.Order.Basic
import Mathlib.Tactic.Common

/-! # Queues with lazy deletion

An element is withdrawn by changing its own record; its entries stay behind and are
dropped when a later sweep reaches them. The decision on an entry may only depend
on the element and on how many of its entries still follow. -/
namespace LazyQueue

variable {α : Type*} [DecidableEq α]

/-- Pop from the front until an entry is taken. `take a k` decides about an entry
of `a` that is followed by `k` further entries of `a`. -/
def sweep (take : α → ℕ → Prop) [∀ a k, Decidable (take a k)] : List α → Option (α × List α)
  | [] => none
  | a :: q => if take a (q.count a) then some (a, q) else sweep take q

section Sweep

variable {take : α → ℕ → Prop} [∀ a k, Decidable (take a k)]

theorem sweep_cons_taken {a : α} {q : List α} (h : take a (q.count a)) :
    sweep take (a :: q) = some (a, q) := by simp [sweep, h]

theorem sweep_cons_dropped {a : α} {q : List α} (h : ¬ take a (q.count a)) :
    sweep take (a :: q) = sweep take q := by simp [sweep, h]

theorem sweep_split {q rest : List α} {a : α} (h : sweep take q = some (a, rest)) :
    take a (rest.count a) ∧ ∃ dropped, q = dropped ++ a :: rest := by
  induction q with
  | nil => cases h
  | cons b q ih =>
    by_cases hb : take b (q.count b)
    · rw [sweep_cons_taken hb] at h
      cases h
      exact ⟨hb, [], rfl⟩
    · rw [sweep_cons_dropped hb] at h
      obtain ⟨ha, dropped, rfl⟩ := ih h
      exact ⟨ha, b :: dropped, rfl⟩

theorem sweep_mem {q rest : List α} {a : α} (h : sweep take q = some (a, rest)) : a ∈ q := by
  obtain ⟨_, dropped, rfl⟩ := sweep_split h
  simp

/-- An element whose last entry would be taken is never swept away: the sweep
stops at it or before it. -/
theorem sweep_reaches {q : List α} {a : α} (hlast : take a 0) (ha : a ∈ q) :
    ∃ b rest, sweep take q = some (b, rest) ∧ (b = a ∨ a ∈ rest) := by
  induction q with
  | nil => cases ha
  | cons b q ih =>
    by_cases hb : take b (q.count b)
    · refine ⟨b, q, sweep_cons_taken hb, ?_⟩
      rcases List.mem_cons.mp ha with rfl | ha
      · exact Or.inl rfl
      · exact Or.inr ha
    · rw [sweep_cons_dropped hb]
      rcases List.mem_cons.mp ha with rfl | ha
      · by_cases hq : a ∈ q
        · exact ih hq
        · exact (hb (by rwa [List.count_eq_zero.mpr hq])).elim
      · exact ih ha

/-- The entry at position `i` passes the test. -/
def TakenAt (take : α → ℕ → Prop) (q : List α) (i : ℕ) : Prop :=
  ∃ a, q[i]? = some a ∧ take a ((q.drop (i + 1)).count a)

omit [∀ a k, Decidable (take a k)] in
theorem takenAt_cons_zero {b : α} {q : List α} :
    TakenAt take (b :: q) 0 ↔ take b (q.count b) := by
  simp [TakenAt]

omit [∀ a k, Decidable (take a k)] in
theorem takenAt_cons_succ {b : α} {q : List α} {i : ℕ} :
    TakenAt take (b :: q) (i + 1) ↔ TakenAt take q i := by
  simp [TakenAt]

/-- A sweep stops at the first position that passes the test. -/
theorem sweep_of_first {q : List α} {i : ℕ} (h : TakenAt take q i)
    (hfirst : ∀ j < i, ¬ TakenAt take q j) :
    ∃ a, q[i]? = some a ∧ sweep take q = some (a, q.drop (i + 1)) := by
  induction q generalizing i with
  | nil =>
    obtain ⟨a, ha, _⟩ := h
    simp at ha
  | cons b q ih =>
    cases i with
    | zero =>
      have hb := takenAt_cons_zero.mp h
      exact ⟨b, rfl, sweep_cons_taken hb⟩
    | succ i =>
      have hb : ¬ take b (q.count b) := by
        intro hb
        exact hfirst 0 (Nat.succ_pos i) (takenAt_cons_zero.mpr hb)
      have hrest : ∀ j < i, ¬ TakenAt take q j := by
        intro j hj hq
        exact hfirst (j + 1) (Nat.succ_lt_succ hj) (takenAt_cons_succ.mpr hq)
      obtain ⟨a, ha, hs⟩ := ih (takenAt_cons_succ.mp h) hrest
      refine ⟨a, ha, ?_⟩
      rw [sweep_cons_dropped hb]
      exact hs

theorem sweep_none_of_no_position {q : List α} (h : ∀ i, ¬ TakenAt take q i) :
    sweep take q = none := by
  induction q with
  | nil => rfl
  | cons b q ih =>
    rw [sweep_cons_dropped fun hb => h 0 (takenAt_cons_zero.mpr hb)]
    apply ih
    intro i hi
    exact h (i + 1) (takenAt_cons_succ.mpr hi)

theorem sweep_none_of_all {q : List α} (h : ∀ a ∈ q, ∀ k, ¬ take a k) :
    sweep take q = none := by
  induction q with
  | nil => rfl
  | cons b q ih =>
    rw [sweep_cons_dropped (h b List.mem_cons_self _)]
    exact ih (fun a ha => h a (List.mem_cons_of_mem b ha))

end Sweep

/-- Position of the last entry of `a`, counted from the front; 0 when there is none. -/
def lastIndex (a : α) : List α → ℕ
  | [] => 0
  | _ :: q => if a ∈ q then lastIndex a q + 1 else 0

theorem lastIndex_cons_of_mem {a b : α} {q : List α} (h : a ∈ q) :
    lastIndex a (b :: q) = lastIndex a q + 1 := by simp [lastIndex, h]

theorem lastIndex_of_not_mem {a : α} {q : List α} (h : a ∉ q) : lastIndex a q = 0 := by
  cases q with
  | nil => rfl
  | cons b q => exact if_neg fun hq => h (List.mem_cons_of_mem b hq)

theorem lastIndex_le_length (a : α) (q : List α) : lastIndex a q ≤ q.length := by
  induction q with
  | nil => exact Nat.le_refl 0
  | cons b q ih =>
    by_cases h : a ∈ q
    · rw [lastIndex_cons_of_mem h]
      exact Nat.succ_le_succ ih
    · simp [lastIndex, h]

theorem lastIndex_append {a : α} {q l : List α} (ha : a ∈ q) (hl : a ∉ l) :
    lastIndex a (q ++ l) = lastIndex a q := by
  induction q with
  | nil => cases ha
  | cons b q ih =>
    by_cases hq : a ∈ q
    · rw [List.cons_append, lastIndex_cons_of_mem (List.mem_append_left l hq),
        lastIndex_cons_of_mem hq, ih hq]
    · simp [lastIndex, hq, hl]

theorem lastIndex_filter_le (p : α → Bool) {a : α} (q : List α) (hp : p a = true) :
    lastIndex a (q.filter p) ≤ lastIndex a q := by
  induction q with
  | nil => simp
  | cons b q ih =>
    have hm : a ∈ q.filter p ↔ a ∈ q := by simp [hp]
    by_cases hq : a ∈ q
    · rw [lastIndex_cons_of_mem hq]
      by_cases hb : p b = true
      · rw [List.filter_cons_of_pos hb, lastIndex_cons_of_mem (hm.mpr hq)]
        omega
      · rw [List.filter_cons_of_neg hb]
        omega
    · have hn : lastIndex a ((b :: q).filter p) = 0 := by
        by_cases hb : p b = true
        · simp [List.filter_cons_of_pos hb, lastIndex, hq]
        · rw [List.filter_cons_of_neg hb, lastIndex_of_not_mem (fun h => hq (hm.mp h))]
      omega

theorem lastIndex_lt_of_suffix {a : α} (dropped : List α) {rest : List α} (h : dropped ≠ [])
    (ha : a ∈ rest) : lastIndex a rest < lastIndex a (dropped ++ rest) := by
  induction dropped with
  | nil => exact (h rfl).elim
  | cons b dropped ih =>
    rw [List.cons_append, lastIndex_cons_of_mem (List.mem_append_right _ ha)]
    by_cases hd : dropped = []
    · subst hd; simp
    · have := ih hd; omega

/-- A sweep that does not stop at `a` moves the last entry of `a` forward. -/
theorem sweep_advances {take : α → ℕ → Prop} [∀ a k, Decidable (take a k)] {q rest : List α}
    {a b : α} (h : sweep take q = some (b, rest)) (ha : a ∈ rest) :
    lastIndex a rest < lastIndex a q := by
  obtain ⟨_, dropped, rfl⟩ := sweep_split h
  have := lastIndex_lt_of_suffix (dropped ++ [b]) (by simp) ha
  simpa using this

/-- In front of the first last entry of a live element, no live element has an entry with
two or more successors. -/
def PlainFront (live : α → Prop) : List α → Prop
  | [] => True
  | a :: q => (live a ∧ a ∉ q) ∨ ((live a → q.count a < 2) ∧ PlainFront live q)

instance PlainFront.decidable (live : α → Prop) [DecidablePred live] :
    (q : List α) → Decidable (PlainFront live q)
  | [] => inferInstanceAs (Decidable True)
  | a :: q =>
    have := PlainFront.decidable live q
    inferInstanceAs (Decidable ((live a ∧ a ∉ q) ∨ ((live a → q.count a < 2) ∧ _)))

/-- A test that spares only entries with exactly one successor stops at a last entry, if
the front of the queue is plain. -/
theorem sweep_plainFront {take : α → ℕ → Prop} [∀ a k, Decidable (take a k)]
    {live : α → Prop} {q rest : List α} {a : α} (hlive : ∀ b ∈ q, live b → take b 0)
    (htake : ∀ b ∈ q, ∀ k, take b k → live b ∧ k ≠ 1) (hq : PlainFront live q)
    (h : sweep take q = some (a, rest)) : a ∉ rest := by
  induction q with
  | nil => cases h
  | cons b q ih =>
    by_cases hb : take b (q.count b)
    · rw [sweep_cons_taken hb] at h
      cases h
      obtain ⟨hl, hk⟩ := htake a List.mem_cons_self _ hb
      rcases hq with hlast | ⟨hfew, _⟩
      · exact hlast.2
      · have := hfew hl
        exact List.count_eq_zero.mp (by omega)
    · rw [sweep_cons_dropped hb] at h
      rcases hq with ⟨hl, hlast⟩ | ⟨_, hq⟩
      · refine (hb ?_).elim
        rw [List.count_eq_zero.mpr hlast]
        exact hlive b List.mem_cons_self hl
      · exact ih (fun c hc => hlive c (List.mem_cons_of_mem b hc))
          (fun c hc => htake c (List.mem_cons_of_mem b hc)) hq h

/-- The entries that eager deletion would have kept: the last entry of each live element. -/
def standing (live : α → Prop) [DecidablePred live] : List α → List α
  | [] => []
  | a :: q => if live a ∧ a ∉ q then a :: standing live q else standing live q

section Standing

variable {live : α → Prop} [DecidablePred live]

theorem mem_standing {a : α} {q : List α} : a ∈ standing live q ↔ live a ∧ a ∈ q := by
  induction q with
  | nil => simp [standing]
  | cons b q ih =>
    by_cases hb : live b ∧ b ∉ q
    · simp only [standing, if_pos hb, List.mem_cons, ih]
      constructor
      · rintro (rfl | h)
        · exact ⟨hb.1, Or.inl rfl⟩
        · exact ⟨h.1, Or.inr h.2⟩
      · rintro ⟨hl, rfl | h⟩
        · exact Or.inl rfl
        · exact Or.inr ⟨hl, h⟩
    · simp only [standing, if_neg hb, List.mem_cons, ih]
      constructor
      · exact fun h => ⟨h.1, Or.inr h.2⟩
      · rintro ⟨hl, rfl | h⟩
        · exact ⟨hl, by_contra fun hq => hb ⟨hl, hq⟩⟩
        · exact ⟨hl, h⟩

theorem standing_congr {live' : α → Prop} [DecidablePred live'] {q : List α}
    (h : ∀ a ∈ q, live a ↔ live' a) : standing live q = standing live' q := by
  induction q with
  | nil => rfl
  | cons b q ih =>
    have hb := h b List.mem_cons_self
    have hq := ih (fun a ha => h a (List.mem_cons_of_mem b ha))
    simp only [standing, hb, hq]

/-- Withdrawing `a` by its record or removing its entries leaves the same standing queue. -/
theorem standing_filter_ne (a : α) (q : List α) :
    standing live (q.filter (· ≠ a)) = (standing live q).filter (· ≠ a) := by
  induction q with
  | nil => rfl
  | cons b q ih =>
    by_cases hb : b = a
    · subst hb
      rw [List.filter_cons_of_neg (by simp), ih]
      by_cases hl : live b ∧ b ∉ q
      · simp only [standing, if_pos hl]
        rw [List.filter_cons_of_neg (by simp)]
      · simp only [standing, if_neg hl]
    · have hm : b ∈ q.filter (· ≠ a) ↔ b ∈ q := by simp [hb]
      rw [List.filter_cons_of_pos (by simpa using hb)]
      by_cases hl : live b ∧ b ∉ q
      · have hl' : live b ∧ b ∉ q.filter (· ≠ a) := ⟨hl.1, fun h => hl.2 (hm.mp h)⟩
        simp only [standing, if_pos hl, if_pos hl', ih]
        rw [List.filter_cons_of_pos (by simpa using hb)]
      · have hl' : ¬ (live b ∧ b ∉ q.filter (· ≠ a)) :=
          fun h => hl ⟨h.1, fun hq => h.2 (hm.mpr hq)⟩
        simp only [standing, if_neg hl, if_neg hl', ih]

theorem standing_withdraw {live' : α → Prop} [DecidablePred live'] {a : α} {q : List α}
    (ha : ¬ live' a) (h : ∀ b, b ≠ a → (live' b ↔ live b)) :
    standing live' q = (standing live q).filter (· ≠ a) := by
  induction q with
  | nil => rfl
  | cons b q ih =>
    by_cases hb : b = a
    · subst hb
      simp only [standing, ha, false_and, if_false, ih]
      split
      · rw [List.filter_cons_of_neg (by simp)]
      · rfl
    · simp only [standing, h b hb, ih]
      split
      · rw [List.filter_cons_of_pos (by simpa using hb)]
      · rfl

/-- Appending a live element supersedes its earlier entries. -/
theorem standing_append {a : α} (ha : live a) (q : List α) :
    standing live (q ++ [a]) = (standing live q).filter (· ≠ a) ++ [a] := by
  induction q with
  | nil => simp [standing, ha]
  | cons b q ih =>
    by_cases hb : b = a
    · subst hb
      simp only [List.cons_append, standing, List.mem_append, List.mem_singleton, or_true,
        not_true_eq_false, and_false, if_false, ih]
      split
      · rw [List.filter_cons_of_neg (by simp)]
      · rfl
    · simp only [List.cons_append, standing, List.mem_append, List.mem_singleton, hb,
        or_false, ih]
      split
      · rw [List.filter_cons_of_pos (by simpa using hb), List.cons_append]
      · rfl

theorem standing_append_new {a : α} (ha : live a) {q : List α} (hq : a ∉ q) :
    standing live (q ++ [a]) = standing live q ++ [a] := by
  rw [standing_append ha, List.filter_eq_self.mpr]
  intro b hb
  have : b ≠ a := fun h => hq (h ▸ (mem_standing.mp hb).2)
  simpa using this

theorem standing_append_nodup {l q : List α} (hl : ∀ a ∈ l, live a) (hn : l.Nodup)
    (hq : ∀ a ∈ l, a ∉ q) : standing live (q ++ l) = standing live q ++ l := by
  induction l generalizing q with
  | nil => simp
  | cons a l ih =>
    obtain ⟨ha, hn⟩ := List.nodup_cons.mp hn
    have hla := hl a List.mem_cons_self
    have hqa := hq a List.mem_cons_self
    have hsplit : q ++ a :: l = q ++ [a] ++ l := by simp
    rw [hsplit, ih (fun b hb => hl b (List.mem_cons_of_mem a hb)) hn, standing_append_new hla hqa]
    · simp
    · intro b hb hmem
      rcases List.mem_append.mp hmem with hmem | hmem
      · exact hq b (List.mem_cons_of_mem a hb) hmem
      · exact ha (List.mem_singleton.mp hmem ▸ hb)

variable {take : α → ℕ → Prop} [∀ a k, Decidable (take a k)]

/-- A sweep that stops at a last entry does what popping the standing queue does. -/
theorem sweep_standing {q rest : List α} {a : α} (hlive : ∀ b ∈ q, live b → take b 0)
    (htake : ∀ b k, take b k → live b) (h : sweep take q = some (a, rest))
    (hlast : a ∉ rest) : standing live q = a :: standing live rest := by
  induction q with
  | nil => cases h
  | cons b q ih =>
    by_cases hb : take b (q.count b)
    · rw [sweep_cons_taken hb] at h
      cases h
      simp [standing, htake _ _ hb, hlast]
    · rw [sweep_cons_dropped hb] at h
      have hn : ¬ (live b ∧ b ∉ q) := by
        rintro ⟨hl, hq⟩
        exact hb (by rw [List.count_eq_zero.mpr hq]; exact hlive b List.mem_cons_self hl)
      simp only [standing, if_neg hn]
      exact ih (fun c hc => hlive c (List.mem_cons_of_mem b hc)) h

theorem standing_eq_nil {q : List α} (h : ∀ a ∈ q, ¬ live a) : standing live q = [] := by
  apply List.eq_nil_iff_forall_not_mem.mpr
  intro a ha
  exact h a (mem_standing.mp ha).2 (mem_standing.mp ha).1

end Standing

end LazyQueue
