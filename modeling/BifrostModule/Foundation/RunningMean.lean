import Mathlib

/-! # A running mean in the naturals

The mean of n+1 values is made of the mean of n values and the last value. Both
divisions of an update truncate, so the mean that is kept falls behind.
-/
namespace BifrostModule.Foundation.RunningMean

def next (n avg value : ℕ) : ℕ := avg * n / (n + 1) + value / (n + 1)

/-- The mean of `n` values is not above theirs and behind by less than `n`. -/
def Tracks (n avg sum : ℕ) : Prop := n * avg ≤ sum ∧ sum + n ≤ n * (avg + n)

theorem tracks_zero (avg : ℕ) : Tracks 0 avg 0 := ⟨by simp, by simp⟩

theorem le_mul_div_add (n a : ℕ) : a ≤ (n + 1) * (a / (n + 1)) + n :=
  Nat.le_of_lt_succ (by
    have hlt := Nat.lt_mul_div_succ a (Nat.succ_pos n)
    rw [Nat.mul_succ] at hlt
    omega)

theorem mul_next_le (n avg value : ℕ) : (n + 1) * next n avg value ≤ avg * n + value := by
  rw [next, Nat.mul_add]
  exact Nat.add_le_add (Nat.mul_div_le _ _) (Nat.mul_div_le _ _)

/-- Two divisions by n+1 lose at most n each. -/
theorem le_mul_next (n avg value : ℕ) :
    avg * n + value ≤ (n + 1) * next n avg value + 2 * n := by
  have hold := le_mul_div_add n (avg * n)
  have hnew := le_mul_div_add n value
  rw [next, Nat.mul_add]
  omega

theorem Tracks.next {n avg sum : ℕ} (h : Tracks n avg sum) (value : ℕ) :
    Tracks (n + 1) (next n avg value) (sum + value) := by
  obtain ⟨hle, hbehind⟩ := h
  have hupper := mul_next_le n avg value
  have hlower := le_mul_next n avg value
  constructor
  · calc (n + 1) * RunningMean.next n avg value ≤ avg * n + value := hupper
      _ ≤ sum + value := by linarith
  · nlinarith

/-- The mean that is kept lies in `(mean - (n + 1), mean]`. -/
theorem Tracks.within {n avg sum : ℕ} (h : Tracks n avg sum) (hn : n ≠ 0) :
    0 ≤ (sum : ℚ) / n - avg ∧ (sum : ℚ) / n - avg < n + 1 := by
  have hpos : (0 : ℚ) < n := by exact_mod_cast Nat.pos_of_ne_zero hn
  have hle : (n : ℚ) * avg ≤ sum := by exact_mod_cast h.1
  have hbehind : (sum : ℚ) + n ≤ n * (avg + n) := by exact_mod_cast h.2
  constructor
  · rw [sub_nonneg, le_div_iff₀ hpos]
    linarith
  · rw [sub_lt_iff_lt_add, div_lt_iff₀ hpos]
    nlinarith

/-- An update that loses as much as n+1 times n+2 is further behind than the truncations go. -/
theorem not_within_of_lost {n avg sum value lost kept : ℕ} (h : Tracks n avg sum)
    (hlost : (n + 1) * (n + 2) ≤ lost) (hkept : (n + 1) * kept + lost ≤ avg * n + value) :
    ¬ ((sum + value : ℕ) : ℚ) / (n + 1 : ℕ) - kept < (n + 1 : ℕ) + 1 := by
  have hpos : (0 : ℚ) < (n + 1 : ℕ) := by exact_mod_cast Nat.succ_pos n
  have hsum : (n + 1) * (kept + (n + 2)) ≤ sum + value := by
    have hle := h.1
    nlinarith
  have hcast : ((n + 1 : ℕ) : ℚ) * (kept + (n + 2)) ≤ (sum + value : ℕ) := by exact_mod_cast hsum
  rw [not_lt, le_sub_iff_add_le, le_div_iff₀ hpos]
  push_cast at hcast ⊢
  linarith

end BifrostModule.Foundation.RunningMean
