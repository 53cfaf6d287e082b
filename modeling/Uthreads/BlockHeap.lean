import Mathlib.Data.Nat.Notation
import Mathlib.Logic.Function.Basic
import Mathlib.Order.Nat
import Mathlib.Tactic.Common

/-! # Blocks and their owners

A heap of blocks of several kinds, and the statement that it is exactly what its owners hold:
no block is leaked, and no two owners share one. -/
namespace BlockHeap

variable {κ ι : Type*}

/-- `blocks b` is how block `b` was allocated, as long as it is. -/
structure Heap (κ : Type*) where
  next : ℕ
  blocks : ℕ → Option κ

def empty : Heap κ := ⟨0, fun _ => none⟩

def allocate (k : κ) (h : Heap κ) : ℕ × Heap κ :=
  (h.next, ⟨h.next + 1, Function.update h.blocks h.next (some k)⟩)

/-- Only an allocated block can be released. The flag says whether it is of kind `k`, as the
release takes it to be. -/
def release [DecidableEq κ] (k : κ) (b : ℕ) (h : Heap κ) : Option (Bool × Heap κ) :=
  match h.blocks b with
  | none => none
  | some kind => some (kind = k, { h with blocks := Function.update h.blocks b none })

structure Owned (h : Heap κ) (owner : ι → Option ℕ) : Prop where
  disjoint : ∀ i j b, owner i = some b → owner j = some b → i = j
  exact : ∀ b, h.blocks b ≠ none ↔ ∃ i, owner i = some b
  fresh : ∀ b, h.next ≤ b → h.blocks b = none

variable {h : Heap κ} {owner : ι → Option ℕ} {i : ι} {b : ℕ}

theorem owned_empty : Owned (empty : Heap κ) (fun _ : ι => none) := by
  constructor
  case disjoint => intro i j b hi; cases hi
  case exact => exact fun b => iff_of_false (fun hb => hb rfl) fun ⟨_, hi⟩ => by cases hi
  case fresh => exact fun b _ => rfl

theorem Owned.allocated (ho : Owned h owner) (hi : owner i = some b) : h.blocks b ≠ none :=
  (ho.exact b).mpr ⟨i, hi⟩

theorem Owned.next_free (ho : Owned h owner) (i : ι) : owner i ≠ some h.next :=
  fun hi => ho.allocated hi (ho.fresh h.next le_rfl)

variable [DecidableEq ι] {j : ι} {c : ℕ}

theorem update_some_eq : Function.update owner i (some b) j = some c ↔
    (j = i ∧ b = c) ∨ (j ≠ i ∧ owner j = some c) := by
  by_cases hj : j = i
  · subst hj
    simp
  · simp [hj]

theorem update_none_eq :
    Function.update owner i none j = some c ↔ j ≠ i ∧ owner j = some c := by
  by_cases hj : j = i
  · subst hj
    simp
  · simp [hj]

theorem Owned.allocate (ho : Owned h owner) (hi : owner i = none) (k : κ) :
    Owned (allocate k h).2 (Function.update owner i (some h.next)) := by
  constructor
  case disjoint =>
    intro j l b hj hl
    rcases update_some_eq.mp hj with ⟨hji, hjb⟩ | ⟨_, hj⟩ <;>
      rcases update_some_eq.mp hl with ⟨hli, hlb⟩ | ⟨_, hl⟩
    · exact hji.trans hli.symm
    · exact (ho.next_free l (hjb ▸ hl)).elim
    · exact (ho.next_free j (hlb ▸ hj)).elim
    · exact ho.disjoint j l b hj hl
  case exact =>
    intro b
    simp only [update_some_eq]
    by_cases hb : b = h.next
    · subst hb
      refine iff_of_true ?_ ⟨i, Or.inl ⟨rfl, rfl⟩⟩
      simp [BlockHeap.allocate]
    · simp only [BlockHeap.allocate, Function.update_of_ne hb, ho.exact b]
      constructor
      · rintro ⟨j, hj⟩
        have hji : j ≠ i := by rintro rfl; cases hi.symm.trans hj
        exact ⟨j, Or.inr ⟨hji, hj⟩⟩
      · rintro ⟨j, ⟨_, hnext⟩ | ⟨_, hj⟩⟩
        · exact (hb hnext.symm).elim
        · exact ⟨j, hj⟩
  case fresh =>
    intro b hb
    have hne : b ≠ h.next := Nat.ne_of_gt hb
    simp only [BlockHeap.allocate, Function.update_of_ne hne]
    exact ho.fresh b (Nat.le_of_succ_le hb)

theorem release_allocated [DecidableEq κ] {kind : κ} (hb : h.blocks b = some kind) (k : κ) :
    release k b h =
      some (decide (kind = k), { h with blocks := Function.update h.blocks b none }) := by
  rw [release, hb]

/-- What an owner holds can be released, once. -/
theorem Owned.release [DecidableEq κ] {kind : κ} (ho : Owned h owner) (hi : owner i = some b)
    (hb : h.blocks b = some kind) (k : κ) :
    ∃ h', release k b h = some (decide (kind = k), h') ∧
      h'.blocks = Function.update h.blocks b none ∧
      Owned h' (Function.update owner i none) := by
  refine ⟨_, release_allocated hb k, rfl, ?_⟩
  constructor
  case disjoint =>
    intro j l c hj hl
    exact ho.disjoint j l c (update_none_eq.mp hj).2 (update_none_eq.mp hl).2
  case exact =>
    intro c
    simp only [update_none_eq]
    by_cases hc : c = b
    · subst hc
      refine iff_of_false (by simp) ?_
      rintro ⟨j, hji, hj⟩
      exact hji (ho.disjoint j i c hj hi)
    · simp only [Function.update_of_ne hc, ho.exact c]
      constructor
      · rintro ⟨j, hj⟩
        have hji : j ≠ i := by rintro rfl; exact hc (Option.some.inj (hj.symm.trans hi))
        exact ⟨j, hji, hj⟩
      · rintro ⟨j, _, hj⟩
        exact ⟨j, hj⟩
  case fresh =>
    intro c hc
    have hcb : c ≠ b := by
      rintro rfl
      exact ho.allocated hi (ho.fresh c hc)
    simp only [Function.update_of_ne hcb]
    exact ho.fresh c hc

end BlockHeap
