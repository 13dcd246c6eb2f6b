import BifrostModule.Foundation.Machine

/-! # Multiples of an alignment

The least multiple of an alignment that is not below a number, and the masks that
compute it where the alignment is a power of two.
-/
namespace BifrostModule.Foundation

/-- The least multiple of `a` from `n` on. -/
def roundUp (a n : ℕ) : ℕ := (n + (a - 1)) / a * a

theorem dvd_roundUp (a n : ℕ) : a ∣ roundUp a n := Dvd.intro_left _ rfl

theorem roundUp_of_mod_eq_zero {a n : ℕ} (ha : 0 < a) (h : n % a = 0) : roundUp a n = n := by
  obtain ⟨k, rfl⟩ := Nat.dvd_of_mod_eq_zero h
  have hdiv : (a * k + (a - 1)) / a = k := by
    rw [Nat.mul_add_div ha, Nat.div_eq_of_lt (by omega), Nat.add_zero]
  rw [roundUp, hdiv, Nat.mul_comm]

theorem roundUp_of_dvd {a n : ℕ} (ha : 0 < a) (h : a ∣ n) : roundUp a n = n :=
  roundUp_of_mod_eq_zero ha (Nat.mod_eq_zero_of_dvd h)

theorem roundUp_of_mod_ne_zero {a n : ℕ} (ha : 0 < a) (h : n % a ≠ 0) :
    roundUp a n = n + (a - n % a) := by
  have hlt := Nat.mod_lt n ha
  have hsplit := Nat.div_add_mod n a
  have hsum : n + (a - 1) = a * (n / a + 1) + (n % a - 1) := by
    rw [Nat.mul_add]
    omega
  have hdiv : (n + (a - 1)) / a = n / a + 1 := by
    rw [hsum, Nat.mul_add_div ha, Nat.div_eq_of_lt (show n % a - 1 < a by omega), Nat.add_zero]
  rw [roundUp, hdiv, Nat.add_mul, Nat.mul_comm]
  omega

theorem le_roundUp {a : ℕ} (ha : 0 < a) (n : ℕ) : n ≤ roundUp a n := by
  by_cases h : n % a = 0
  · exact (roundUp_of_mod_eq_zero ha h).ge
  · rw [roundUp_of_mod_ne_zero ha h]
    omega

theorem roundUp_lt_add {a : ℕ} (ha : 0 < a) (n : ℕ) : roundUp a n < n + a := by
  by_cases h : n % a = 0
  · rw [roundUp_of_mod_eq_zero ha h]
    omega
  · rw [roundUp_of_mod_ne_zero ha h]
    omega

theorem roundUp_le {a m n : ℕ} (ha : 0 < a) (hm : a ∣ m) (h : n ≤ m) : roundUp a n ≤ m := by
  by_contra hover
  have hlt := roundUp_lt_add ha n
  have hdvd := Nat.dvd_sub (dvd_roundUp a n) hm
  exact absurd (Nat.le_of_dvd (by omega) hdvd) (by omega)

theorem roundUp_pos {a n : ℕ} (ha : 0 < a) (hn : 0 < n) : 0 < roundUp a n :=
  hn.trans_le (le_roundUp ha n)

theorem and_pred_two_pow (n k : ℕ) : n &&& (2 ^ k - 1) = n % 2 ^ k :=
  Nat.and_two_pow_sub_one_eq_mod n k

end BifrostModule.Foundation
