import Mathlib.Data.List.Basic
import Mathlib.Tactic.Common

/-! # Computations that may fault, and records moved behind others

Rules for `Except` computations: a postcondition of the result, and the image of a
computation under a change of its data. Then the change itself: an array of records placed
behind `k` records that were there before. -/
namespace FallibleCode

section Rules

universe u v w

variable {φ : Type u} {α β : Type v} {α' β' : Type w} {P : α → Prop} {Q : β → Prop}

/-- The value satisfies `P`, if there is one. -/
def Ensures (x : Except φ α) (P : α → Prop) : Prop := ∀ a, x = .ok a → P a

theorem Ensures.ok {a : α} (h : P a) : Ensures (φ := φ) (.ok a) P := by
  rintro b ⟨⟩
  exact h

theorem Ensures.error (f : φ) : Ensures (.error f) P := by rintro b ⟨⟩

theorem Ensures.bind {x : Except φ α} {g : α → Except φ β} (h : Ensures x P)
    (hg : ∀ a, P a → Ensures (g a) Q) : Ensures (x >>= g) Q := by
  cases x with
  | error f => exact .error f
  | ok a => exact hg a (h a rfl)

/-- Both computations do the same to data that `f` relates. -/
theorem bind_image {x' : Except φ α'} {x : Except φ α} {f : α → α'} {g' : α' → Except φ β'}
    {g : α → Except φ β} {h : β → β'} (hx : x' = x.map f) (hg : ∀ a, g' (f a) = (g a).map h) :
    (x' >>= g') = (x >>= g).map h := by
  subst hx
  cases x with
  | error => rfl
  | ok a => exact hg a

end Rules

section Placement

variable {α : Type*} {k r : ℕ} (old new : ℕ → α)

/-- Up to `k` the old records, from `k` on the new ones. -/
def place (k : ℕ) (old new : ℕ → α) (r : ℕ) : α := if r < k then old r else new (r - k)

@[simp] theorem place_apply : place k old new (k + r) = new r := by
  rw [place, if_neg (by omega), Nat.add_sub_cancel_left]

theorem update_place (x : α) :
    Function.update (place k old new) (k + r) x = place k old (Function.update new r x) := by
  funext q
  by_cases hq : q = k + r
  · subst hq
    simp
  · rw [Function.update_of_ne hq]
    unfold place
    split
    · rfl
    · rw [Function.update_of_ne (by omega)]

/-- When the old array reads the same everywhere from `k` on, the new one starts there. -/
theorem place_self {a : α} (h : ∀ r, k ≤ r → old r = a) : place k old (fun _ => a) = old := by
  funext r
  unfold place
  split
  · rfl
  · rw [h r (by omega)]

end Placement

end FallibleCode
