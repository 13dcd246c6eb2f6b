import BifrostModule.Foundation.Machine

/-! # Bitmaps in a machine word

Setting, clearing and finding bits of a fixed-width word, with one reading
lemma for each operation, so that users reason about bits and not about shifts.
-/
namespace BifrostModule.Foundation.Bitmap

variable {w : ℕ}

def setBit (v : BitVec w) (i : ℕ) : BitVec w := v ||| 1#w <<< i

def clearBit (v : BitVec w) (i : ℕ) : BitVec w := v &&& ~~~(1#w <<< i)

/-- The lowest set bit, as `ffs` finds it. -/
def firstSet (v : BitVec w) : Option (Fin w) :=
  (List.finRange w).find? fun i => v.getLsbD i

theorem getLsbD_one_shiftLeft (i j : ℕ) :
    (1#w <<< i).getLsbD j = (decide (j < w) && decide (j = i)) := by
  by_cases hj : j < w
  · by_cases hi : j < i
    · have hne : j ≠ i := by omega
      simp [hj, hi, hne]
    · by_cases he : j = i
      · subst he
        simp [hj]
      · have hsub : j - i ≠ 0 := by omega
        simp [he, hsub]
  · simp [hj]

@[simp] theorem getLsbD_setBit (v : BitVec w) (i j : ℕ) :
    (setBit v i).getLsbD j = (v.getLsbD j || (decide (j < w) && decide (j = i))) := by
  rw [setBit, BitVec.getLsbD_or, getLsbD_one_shiftLeft]

@[simp] theorem getLsbD_clearBit (v : BitVec w) (i j : ℕ) :
    (clearBit v i).getLsbD j = (v.getLsbD j && !decide (j = i)) := by
  rw [clearBit, BitVec.getLsbD_and, BitVec.getLsbD_not, getLsbD_one_shiftLeft]
  by_cases hj : j < w
  · simp [hj]
  · simp [hj, BitVec.getLsbD_of_ge v j (by omega)]

theorem getLsbD_lowMask {k : ℕ} (hk : k < w) (n : ℕ) :
    (1#w <<< k - 1#w).getLsbD n = decide (n < k) := by
  have hpow : 2 ^ k < 2 ^ w := Nat.pow_lt_pow_right (by omega) hk
  have hpos : 0 < 2 ^ k := Nat.two_pow_pos k
  have hone : 1 % 2 ^ w = 1 := Nat.mod_eq_of_lt (by omega)
  have hval : (1#w <<< k - 1#w).toNat = 2 ^ k - 1 := by
    simp only [BitVec.toNat_sub, BitVec.toNat_shiftLeft, BitVec.toNat_ofNat, Nat.shiftLeft_eq,
      hone, one_mul, Nat.mod_eq_of_lt hpow]
    rw [show 2 ^ w - 1 + 2 ^ k = 2 ^ w + (2 ^ k - 1) by omega, Nat.add_mod_left,
      Nat.mod_eq_of_lt (by omega)]
  rw [BitVec.getLsbD, hval, Nat.testBit_two_pow_sub_one]

theorem firstSet_getLsbD {v : BitVec w} {i : Fin w} (h : firstSet v = some i) :
    v.getLsbD i = true := by
  have hp := List.find?_some (p := fun j : Fin w => v.getLsbD j) h
  exact hp

theorem firstSet_eq_none {v : BitVec w} :
    firstSet v = none ↔ ∀ i : Fin w, v.getLsbD i = false := by
  simp [firstSet, List.find?_eq_none]

end BifrostModule.Foundation.Bitmap
