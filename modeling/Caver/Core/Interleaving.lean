import Mathlib.Data.Nat.Count

/-!
# Caver.Core.Interleaving — runs of a system, one move at a time

A schedule says which move comes next. What an observer counts or remembers of a
run is a function of the number of moves.

* `exists_change`: what differs at two times was changed in between.
* `latest`: the last time before now at which something happened.
-/

namespace Caver.Core

universe u v w

variable {σ : Type u} {μ : Type v} {step : σ → μ → σ} {init : σ} {sched : ℕ → μ}

/-- The states of a run: `runFrom step init sched n` is the one before move `n`. -/
def runFrom (step : σ → μ → σ) (init : σ) (sched : ℕ → μ) : ℕ → σ
  | 0 => init
  | n + 1 => step (runFrom step init sched n) (sched n)

/-- What is different later has been changed by some move. -/
theorem exists_change {β : Type w} (f : ℕ → β) {k n : ℕ} (hkn : k ≤ n) (hne : f k ≠ f n) :
    ∃ i, k ≤ i ∧ i < n ∧ f (i + 1) ≠ f i := by
  induction n, hkn using Nat.le_induction with
  | base => exact absurd rfl hne
  | succ n hkn ih =>
    by_cases heq : f (n + 1) = f n
    · rcases ih (heq ▸ hne) with ⟨i, hki, hin, hi⟩
      exact ⟨i, hki, Nat.lt_succ_of_lt hin, hi⟩
    · exact ⟨n, hkn, Nat.lt_succ_self n, heq⟩

/-- The last time before `n` at which `p` held; `0` if it never did. -/
def latest (p : ℕ → Bool) : ℕ → ℕ
  | 0 => 0
  | n + 1 => if p n then n else latest p n

theorem latest_le (p : ℕ → Bool) (n : ℕ) : latest p n ≤ n := by
  induction n with
  | zero => exact Nat.le_refl 0
  | succ n ih =>
    rw [latest]
    split <;> omega

theorem latest_succ_of_true {p : ℕ → Bool} {n : ℕ} (h : p n = true) :
    latest p (n + 1) = n := by
  rw [latest, if_pos h]

theorem latest_succ_of_false {p : ℕ → Bool} {n : ℕ} (h : p n = false) :
    latest p (n + 1) = latest p n := by
  rw [latest, if_neg (by rw [h]; decide)]

end Caver.Core
