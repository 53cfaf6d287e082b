import Mathlib.Data.List.Basic
import Mathlib.Data.List.Pairwise
import Mathlib.Tactic.Common

/-! # Updates that are local to a component

A state is seen through one view for each component, and an update changes the view of one
component, by what that view was. Then only the order of the updates of each single
component matters. -/
namespace LocalUpdates

variable {σ ι ν κ : Type*} [DecidableEq ι] {tag : κ → ι} {view : σ → ι → ν}
  {update : κ → σ → σ} {s t : σ} {i : ι} {xs ys : List κ}

structure Local (tag : κ → ι) (view : σ → ι → ν) (update : κ → σ → σ) : Prop where
  other : ∀ x s i, i ≠ tag x → view (update x s) i = view s i
  own : ∀ x s t, view s (tag x) = view t (tag x) →
    view (update x s) (tag x) = view (update x t) (tag x)

def applyAll (update : κ → σ → σ) : List κ → σ → σ
  | [], s => s
  | x :: xs, s => applyAll update xs (update x s)

theorem applyAll_invariant {P : σ → Prop} (hs : P s) (h : ∀ x s, P s → P (update x s))
    (xs : List κ) : P (applyAll update xs s) := by
  induction xs generalizing s with
  | nil => exact hs
  | cons x xs ih => exact ih (h x s hs)

/-- The updates of one component, in their order. -/
def updatesOf (tag : κ → ι) (i : ι) (xs : List κ) : List κ := xs.filter fun x => tag x = i

theorem mem_updatesOf {x : κ} : x ∈ updatesOf tag i xs ↔ x ∈ xs ∧ tag x = i := by
  simp [updatesOf]

theorem Local.view_updatesOf (h : Local tag view update) (hv : view s i = view t i)
    (xs : List κ) :
    view (applyAll update xs s) i = view (applyAll update (updatesOf tag i xs) t) i := by
  induction xs generalizing s t with
  | nil => exact hv
  | cons x xs ih =>
    by_cases hx : tag x = i
    · subst hx
      have hkeep : updatesOf tag (tag x) (x :: xs) = x :: updatesOf tag (tag x) xs :=
        List.filter_cons_of_pos (decide_eq_true rfl)
      rw [hkeep]
      exact ih (h.own x s t hv)
    · have hdrop : updatesOf tag i (x :: xs) = updatesOf tag i xs :=
        List.filter_cons_of_neg (by simpa using hx)
      rw [hdrop]
      exact ih ((h.other x s i (Ne.symm hx)).trans hv)

theorem Local.interleave (h : Local tag view update) (s : σ)
    (hi : updatesOf tag i xs = updatesOf tag i ys) :
    view (applyAll update xs s) i = view (applyAll update ys s) i := by
  rw [h.view_updatesOf rfl xs, h.view_updatesOf rfl ys, hi]

theorem mem_of_updatesOf (h : ∀ i, updatesOf tag i xs = updatesOf tag i ys) {x : κ} :
    x ∈ xs ↔ x ∈ ys := by
  have hx := congrArg (x ∈ ·) (h (tag x))
  simpa only [mem_updatesOf, and_true, eq_iff_iff] using hx

/-- Also when the components that occur are known under other names. -/
theorem updatesOf_rename {ι' : Type*} [DecidableEq ι'] {name : ι → ι'}
    (hname : ∀ x ∈ xs, ∀ y ∈ xs, name (tag x) = name (tag y) → tag x = tag y)
    (h : ∀ i, updatesOf tag i xs = updatesOf tag i ys) (j : ι') :
    updatesOf (fun x => name (tag x)) j xs = updatesOf (fun x => name (tag x)) j ys := by
  by_cases hj : ∃ x ∈ xs, name (tag x) = j
  · obtain ⟨x, hx, rfl⟩ := hj
    have hsame : ∀ zs : List κ, (∀ z ∈ zs, z ∈ xs) →
        updatesOf (fun x => name (tag x)) (name (tag x)) zs = updatesOf tag (tag x) zs := by
      intro zs hzs
      apply List.filter_congr
      intro z hz
      exact decide_eq_decide.mpr ⟨hname z (hzs z hz) x hx, congrArg name⟩
    rw [hsame xs fun _ hz => hz, hsame ys fun _ hz => (mem_of_updatesOf h).mpr hz, h]
  · have hnone : ∀ zs : List κ, (∀ z ∈ zs, z ∈ xs) →
        updatesOf (fun x => name (tag x)) j zs = [] := by
      intro zs hzs
      apply List.filter_eq_nil_iff.mpr
      intro z hz hzj
      exact hj ⟨z, hzs z hz, of_decide_eq_true hzj⟩
    rw [hnone xs fun _ hz => hz, hnone ys fun _ hz => (mem_of_updatesOf h).mpr hz]

/-- A condition on two updates of one component is one on each component's updates. -/
theorem pairwise_of_updatesOf {R : κ → κ → Prop} (hR : ∀ x y, tag x ≠ tag y → R x y)
    (h : ∀ i, updatesOf tag i xs = updatesOf tag i ys) (hxs : xs.Pairwise R) :
    ys.Pairwise R := by
  rw [List.pairwise_iff_forall_sublist] at hxs ⊢
  intro x y hxy
  by_cases htag : tag x = tag y
  · apply hxs
    have hpair : updatesOf tag (tag y) [x, y] = [x, y] := by simp [updatesOf, htag]
    have hsub : (updatesOf tag (tag y) [x, y]).Sublist (updatesOf tag (tag y) ys) :=
      hxy.filter _
    rw [hpair, ← h] at hsub
    exact hsub.trans List.filter_sublist
  · exact hR x y htag

end LocalUpdates
