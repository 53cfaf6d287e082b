import Mathlib.Algebra.BigOperators.Group.Finset.Basic
import Mathlib.Algebra.BigOperators.Ring.Finset
import Mathlib.Algebra.Order.BigOperators.Group.Finset
import Mathlib.Data.Int.Notation
import Mathlib.Logic.Function.Iterate
import Mathlib.Tactic.Common
import Mathlib.Tactic.Linarith

/-! # Interval timers

A periodic timer and the one pending signal that its expiries leave. Setting the timer does
not take a pending signal back. When the timer expires is up to the kernel: of its choice a
user knows only that no expiry comes early, and how late one may come. Time is counted in
microseconds. -/
namespace IntervalTimer

abbrev microsPerSec : ℤ := 1000000

structure TimeVal where
  sec : ℤ
  usec : ℤ
  deriving DecidableEq, Repr

def TimeVal.micros (v : TimeVal) : ℤ := v.sec * microsPerSec + v.usec

def TimeVal.Valid (v : TimeVal) : Prop := 0 ≤ v.sec ∧ 0 ≤ v.usec ∧ v.usec < microsPerSec

instance (v : TimeVal) : Decidable v.Valid := inferInstanceAs (Decidable (_ ∧ _ ∧ _))

structure Setting where
  interval : TimeVal
  value : TimeVal
  deriving DecidableEq, Repr

/-- The timer goes on and starts over after each expiry. -/
def Setting.Periodic (v : Setting) : Prop := 0 < v.value.micros ∧ 0 < v.interval.micros

/-- `wait l v n` is the time from one expiry to the next, after the `l`-th setting of the
timer to `v`: up to the first one for `n = 0`, between the `n`-th and the one after it
otherwise. It may depend on everything that happens. -/
structure Kernel where
  wait : ℕ → Setting → ℕ → ℕ
  wait_pos : ∀ l v n, 0 < wait l v n

/-- The `n`-th expiry never comes before the time for which it was requested. -/
def Kernel.NeverEarly (K : Kernel) : Prop :=
  ∀ l v n, v.Periodic →
    v.value.micros + n * v.interval.micros ≤ ∑ i ∈ Finset.range (n + 1), (K.wait l v i : ℤ)

/-- The timer expires, at most `slack` after it could. The slack depends on the resolution
of the clock and on the load of the system. -/
def Kernel.Prompt (K : Kernel) (slack : ℕ) : Prop :=
  ∀ l v, v.Periodic → (K.wait l v 0 : ℤ) ≤ v.value.micros + slack ∧
    ∀ n, (K.wait l v (n + 1) : ℤ) ≤ v.interval.micros + slack

/-- `remaining` is the time to the next expiry, and 0 while the timer is off. -/
structure Timer where
  settings : ℕ
  setting : Setting
  expiries : ℕ
  remaining : ℕ
  pending : Bool
  deriving DecidableEq, Repr

def off : Timer := ⟨0, ⟨⟨0, 0⟩, ⟨0, 0⟩⟩, 0, 0, false⟩

/-- Invalid times are refused, and the value 0 stops the timer. -/
def setTimer (K : Kernel) (v : Setting) (k : Timer) : Option Timer :=
  if v.value.Valid ∧ v.interval.Valid then
    some { k with
      settings := k.settings + 1
      setting := v
      expiries := 0
      remaining := if v.value.micros = 0 then 0 else K.wait (k.settings + 1) v 0 }
  else none

/-- Without an interval the timer stops. -/
def expire (K : Kernel) (k : Timer) : Timer :=
  { k with
    expiries := k.expiries + 1
    remaining :=
      if k.setting.interval.micros = 0 then 0 else K.wait k.settings k.setting (k.expiries + 1)
    pending := true }

def tick (K : Kernel) (k : Timer) : Timer :=
  match k.remaining with
  | 0 => k
  | 1 => expire K k
  | n + 2 => { k with remaining := n + 1 }

def elapse (K : Kernel) (n : ℕ) (k : Timer) : Timer := (tick K)^[n] k

def deliver (k : Timer) : Timer := { k with pending := false }

/-- The timer is on and periodic. -/
structure Ticking (K : Kernel) (k : Timer) : Prop where
  remaining_pos : 0 < k.remaining
  remaining_le : k.remaining ≤ K.wait k.settings k.setting k.expiries
  periodic : k.setting.Periodic

/-- From the setting of the timer to its next expiry. -/
def Timer.horizon (K : Kernel) (k : Timer) : ℕ :=
  ∑ i ∈ Finset.range (k.expiries + 1), K.wait k.settings k.setting i

variable {K : Kernel} {k : Timer} {v : Setting} {n m : ℕ}

@[simp] theorem deliver_remaining (k : Timer) : (deliver k).remaining = k.remaining := rfl

theorem elapse_add (K : Kernel) (n m : ℕ) (k : Timer) :
    elapse K (n + m) k = elapse K m (elapse K n k) := by
  rw [Nat.add_comm]
  exact Function.iterate_add_apply (tick K) m n k

theorem elapse_succ (K : Kernel) (n : ℕ) (k : Timer) :
    elapse K (n + 1) k = tick K (elapse K n k) :=
  Function.iterate_succ_apply' (tick K) n k

theorem tick_of_lt (h : 1 < k.remaining) :
    tick K k = { k with remaining := k.remaining - 1 } := by
  obtain ⟨settings, setting, expiries, remaining, pending⟩ := k
  match remaining, h with
  | n + 2, _ => rfl

theorem tick_of_one (h : k.remaining = 1) : tick K k = expire K k := by
  simp only [tick, h]

theorem expire_remaining (h : k.setting.Periodic) :
    (expire K k).remaining = K.wait k.settings k.setting (k.expiries + 1) :=
  if_neg h.2.ne'

theorem expire_ticking (h : Ticking K k) : Ticking K (expire K k) :=
  ⟨(expire_remaining h.periodic).symm ▸ K.wait_pos _ _ _, (expire_remaining h.periodic).le,
    h.periodic⟩

theorem tick_ticking (h : Ticking K k) : Ticking K (tick K k) := by
  rcases Nat.lt_or_ge 1 k.remaining with hlt | hge
  · rw [tick_of_lt hlt]
    exact ⟨Nat.sub_pos_of_lt hlt, (Nat.sub_le _ _).trans h.remaining_le, h.periodic⟩
  · rw [tick_of_one (Nat.le_antisymm hge h.remaining_pos)]
    exact expire_ticking h

theorem elapse_ticking (h : Ticking K k) (n : ℕ) : Ticking K (elapse K n k) := by
  induction n with
  | zero => exact h
  | succ n ih => rw [elapse_succ]; exact tick_ticking ih

theorem deliver_ticking (h : Ticking K k) : Ticking K (deliver k) := ⟨h.1, h.2, h.3⟩

@[simp] theorem tick_setting (k : Timer) : (tick K k).setting = k.setting := by
  unfold tick
  split <;> rfl

@[simp] theorem elapse_setting (n : ℕ) (k : Timer) :
    (elapse K n k).setting = k.setting := by
  induction n with
  | zero => rfl
  | succ n ih => rw [elapse_succ, tick_setting, ih]

/-- Before the next expiry only the rest of the time changes. -/
theorem elapse_of_lt (h : n < k.remaining) :
    elapse K n k = { k with remaining := k.remaining - n } := by
  induction n with
  | zero => rfl
  | succ n ih =>
    have hrest : 1 < k.remaining - n := by omega
    rw [elapse_succ, ih (by omega), tick_of_lt (by exact hrest)]
    simp only [Nat.sub_sub]

/-- At the expiry the signal is raised and the timer starts over. -/
theorem elapse_remaining (h : 0 < k.remaining) : elapse K k.remaining k = expire K k := by
  obtain ⟨n, hn⟩ := Nat.exists_eq_add_of_le' h
  have hrest : (elapse K n k).remaining = 1 := by rw [elapse_of_lt (by omega)]; simp [hn]
  rw [hn, elapse_succ, tick_of_one hrest, elapse_of_lt (by omega)]
  rfl

theorem tick_pending (h : k.pending = true) : (tick K k).pending = true := by
  unfold tick
  split
  · exact h
  · rfl
  · exact h

theorem elapse_pending (h : k.pending = true) (n : ℕ) : (elapse K n k).pending = true := by
  induction n with
  | zero => exact h
  | succ n ih => rw [elapse_succ]; exact tick_pending ih

/-- No signal after some time means that there was none before and no expiry since. -/
theorem elapse_quiet (h : Ticking K k) (hp : (elapse K n k).pending = false) :
    k.pending = false ∧ n < k.remaining := by
  constructor
  · cases hk : k.pending with
    | false => rfl
    | true => cases hp.symm.trans (elapse_pending hk n)
  · apply not_le.mp
    intro hle
    obtain ⟨m, rfl⟩ := Nat.exists_eq_add_of_le hle
    have hraised : (elapse K k.remaining k).pending = true := by
      rw [elapse_remaining h.remaining_pos]
      rfl
    rw [elapse_add] at hp
    cases hp.symm.trans (elapse_pending hraised m)

theorem setTimer_periodic (hvalue : v.value.Valid) (hinterval : v.interval.Valid)
    (hv : v.Periodic) (k : Timer) :
    setTimer K v k = some ⟨k.settings + 1, v, 0, K.wait (k.settings + 1) v 0, k.pending⟩ := by
  rw [setTimer, if_pos ⟨hvalue, hinterval⟩, if_neg hv.1.ne']

theorem expire_horizon (h : k.setting.Periodic) :
    (expire K k).horizon K = k.horizon K + (expire K k).remaining := by
  rw [expire_remaining h]
  exact Finset.sum_range_succ _ _

theorem Kernel.NeverEarly.horizon (h : K.NeverEarly) (hv : k.setting.Periodic) :
    k.setting.value.micros + k.expiries * k.setting.interval.micros ≤ (k.horizon K : ℤ) := by
  rw [Timer.horizon, Nat.cast_sum]
  exact h k.settings k.setting k.expiries hv

/-- A kernel that looks at its timers every `r` microseconds: each time is rounded up. -/
def coarse (r : ℕ) (hr : 0 < r) : Kernel where
  wait _ v n :=
    let requested := if n = 0 then v.value.micros.toNat else v.interval.micros.toNat
    max r ((requested + r - 1) / r * r)
  wait_pos _ _ _ := hr.trans_le (le_max_left _ _)

theorem le_round_up {r : ℕ} (hr : 0 < r) (t : ℕ) : t ≤ max r ((t + r - 1) / r * r) := by
  have := Nat.lt_div_mul_add hr (a := t + r - 1)
  omega

theorem round_up_le {r : ℕ} (hr : 0 < r) (t : ℕ) : max r ((t + r - 1) / r * r) ≤ t + r := by
  have := Nat.div_mul_le_self (t + r - 1) r
  omega

theorem coarse_prompt {r : ℕ} (hr : 0 < r) : (coarse r hr).Prompt r := by
  intro l v hv
  have hvalue := hv.1
  have hinterval := hv.2
  have hfirst := round_up_le hr v.value.micros.toNat
  have hnext := round_up_le hr v.interval.micros.toNat
  constructor
  · simp only [coarse, if_true]
    omega
  · intro n
    simp only [coarse, Nat.succ_ne_zero, if_false]
    omega

theorem coarse_neverEarly {r : ℕ} (hr : 0 < r) : (coarse r hr).NeverEarly := by
  intro l v n hv
  have hvalue := hv.1
  have hinterval := hv.2
  induction n with
  | zero =>
    have hfirst := le_round_up hr v.value.micros.toNat
    simp only [coarse, zero_add, Finset.sum_range_one, if_true, Nat.cast_zero, zero_mul, add_zero]
    omega
  | succ n ih =>
    have hnext := le_round_up hr v.interval.micros.toNat
    have hwait : v.interval.micros ≤ ((coarse r hr).wait l v (n + 1) : ℤ) := by
      simp only [coarse, Nat.succ_ne_zero, if_false]
      omega
    rw [Finset.sum_range_succ, Nat.cast_succ, add_mul, one_mul]
    linarith

end IntervalTimer
