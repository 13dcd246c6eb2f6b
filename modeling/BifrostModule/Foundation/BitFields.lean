import BifrostModule.Foundation.Machine

/-! # Words that are packed from fields

A field is a value with the place of its lowest bit in a word. A word that is packed
from fields that lie apart gives each of them back.
-/
namespace BifrostModule.Foundation

structure BitField (w : ℕ) where
  offset : ℕ
  width : ℕ
  value : BitVec width

namespace BitField
variable {w : ℕ}

def bits (f : BitField w) : BitVec w := f.value.setWidth w <<< f.offset

def Apart (f g : BitField w) : Prop :=
  f.offset + f.width ≤ g.offset ∨ g.offset + g.width ≤ f.offset

instance (f g : BitField w) : Decidable (f.Apart g) := inferInstanceAs (Decidable (_ ∨ _))

instance : Std.Symm (Apart (w := w)) where
  symm _ _ h := Or.symm h

def pack (fs : List (BitField w)) : BitVec w := fs.foldl (fun word f => word ||| f.bits) 0

def InWord (f : BitField w) (word : BitVec w) : Prop := word.extractLsb' f.offset f.width = f.value

instance (f : BitField w) (word : BitVec w) : Decidable (f.InWord word) :=
  inferInstanceAs (Decidable (_ = _))

theorem getLsbD_bits (f : BitField w) (i : ℕ) :
    f.bits.getLsbD i = (decide (i < w) && decide (f.offset ≤ i) &&
      f.value.getLsbD (i - f.offset)) := by
  rw [bits, BitVec.getLsbD_shiftLeft, BitVec.getLsbD_setWidth]
  by_cases hi : i < w
  · have hsub : i - f.offset < w := by omega
    by_cases hle : f.offset ≤ i
    · simp [hi, hsub, hle]
    · simp [hi, hle, Nat.not_le.mp hle]
  · simp [hi]

theorem mem_place {f : BitField w} {i : ℕ} (h : f.bits.getLsbD i = true) :
    f.offset ≤ i ∧ i < f.offset + f.width := by
  rw [getLsbD_bits] at h
  simp only [Bool.and_eq_true, decide_eq_true_eq] at h
  have hlt := BitVec.lt_of_getLsbD h.2
  omega

theorem getLsbD_foldl (fs : List (BitField w)) (word : BitVec w) (i : ℕ) :
    (fs.foldl (fun word f => word ||| f.bits) word).getLsbD i =
      (word.getLsbD i || fs.any fun f => f.bits.getLsbD i) := by
  induction fs generalizing word with
  | nil => simp
  | cons f fs ih => rw [List.foldl_cons, ih, BitVec.getLsbD_or, List.any_cons, Bool.or_assoc]

theorem getLsbD_pack (fs : List (BitField w)) (i : ℕ) :
    (pack fs).getLsbD i = fs.any fun f => f.bits.getLsbD i := by
  rw [pack, getLsbD_foldl]
  simp

/-- In the place of a field, a word packed from fields that lie apart has its bits only. -/
theorem getLsbD_pack_of_mem {fs : List (BitField w)} (hapart : fs.Pairwise Apart)
    {f : BitField w} (hf : f ∈ fs) {i : ℕ} (hi : f.offset ≤ i ∧ i < f.offset + f.width) :
    (pack fs).getLsbD i = f.bits.getLsbD i := by
  rw [getLsbD_pack, Bool.eq_iff_iff, List.any_eq_true]
  constructor
  · rintro ⟨g, hg, hbit⟩
    by_cases hfg : f = g
    · rw [hfg]
      exact hbit
    · have hplace := mem_place hbit
      have hpair := hapart.forall hf hg hfg
      unfold Apart at hpair
      omega
  · intro hbit
    exact ⟨f, hf, hbit⟩

theorem inWord_pack {fs : List (BitField w)} (hapart : fs.Pairwise Apart) {f : BitField w}
    (hf : f ∈ fs) (hfit : f.offset + f.width ≤ w) : f.InWord (pack fs) := by
  apply BitVec.eq_of_getLsbD_eq
  intro i hi
  have hplace : f.offset ≤ f.offset + i ∧ f.offset + i < f.offset + f.width := by omega
  have hlt : f.offset + i < w := by omega
  rw [BitVec.getLsbD_extractLsb', getLsbD_pack_of_mem hapart hf hplace, getLsbD_bits]
  simp [hi, hlt]

/-- Masking with the bits of a field cuts the field out. -/
theorem shift_and_mask (x : BitVec w) (start n : ℕ) :
    (x >>> start) &&& BitVec.ofNat w (2 ^ n - 1) = (x.extractLsb' start n).setWidth w := by
  apply BitVec.eq_of_getLsbD_eq
  intro i hi
  rw [BitVec.getLsbD_and, BitVec.getLsbD_ushiftRight, BitVec.getLsbD_ofNat,
    BitVec.getLsbD_setWidth, BitVec.getLsbD_extractLsb', Nat.testBit_two_pow_sub_one]
  cases decide (i < n) <;> simp [hi]

theorem and_mask (x : BitVec w) (n : ℕ) :
    x &&& BitVec.ofNat w (2 ^ n - 1) = (x.extractLsb' 0 n).setWidth w := by
  have h := shift_and_mask x 0 n
  rwa [BitVec.ushiftRight_zero] at h

/-- A mask that is shifted itself leaves the field where it is. -/
theorem and_shifted_mask (x : BitVec w) (start n : ℕ) :
    x &&& (BitVec.ofNat w (2 ^ n - 1) <<< start) = bits ⟨start, n, x.extractLsb' start n⟩ := by
  apply BitVec.eq_of_getLsbD_eq
  intro i hi
  rw [BitVec.getLsbD_and, BitVec.getLsbD_shiftLeft, BitVec.getLsbD_ofNat, getLsbD_bits,
    BitVec.getLsbD_extractLsb', Nat.testBit_two_pow_sub_one]
  by_cases hle : start ≤ i
  · have hsub : i - start < w := by omega
    have hadd : start + (i - start) = i := by omega
    simp [hi, hle, hsub, hadd, Nat.not_lt.mpr hle, Bool.and_comm]
  · simp [hi, hle, Nat.not_le.mp hle]

/-- A shift to the top of the word keeps the field that is not shifted out. -/
theorem shiftLeft_low (x : BitVec w) (start n : ℕ) (h : w ≤ start + n) :
    x <<< start = bits ⟨start, n, x.extractLsb' 0 n⟩ := by
  apply BitVec.eq_of_getLsbD_eq
  intro i hi
  rw [BitVec.getLsbD_shiftLeft, getLsbD_bits, BitVec.getLsbD_extractLsb', Nat.zero_add]
  by_cases hle : start ≤ i
  · have hlt : i - start < n := by omega
    simp [hi, hle, hlt, Nat.not_lt.mpr hle]
  · simp [hi, hle, Nat.not_le.mp hle]

theorem bits_of_bit (x : BitVec w) (i j : ℕ) :
    bits ⟨j, 1, x.extractLsb' i 1⟩ = if x.getLsbD i then BitVec.twoPow w j else 0 := by
  apply BitVec.eq_of_getLsbD_eq
  intro k hk
  rw [getLsbD_bits, BitVec.getLsbD_extractLsb']
  by_cases hkj : k = j
  · subst hkj
    cases hbit : x.getLsbD i <;> simp [hk, hbit]
  · have hout : (decide (j ≤ k) && decide (k - j < 1)) = false := by
      simp only [Bool.and_eq_false_iff, decide_eq_false_iff_not]
      omega
    rw [Bool.and_assoc, ← Bool.and_assoc (decide (j ≤ k)), hout]
    cases x.getLsbD i <;> simp [Ne.symm hkj]

/-- Set a bit of a word if another word has a certain bit. -/
def flag (x : BitVec w) (i j : ℕ) (word : BitVec w) : BitVec w :=
  if x &&& BitVec.twoPow w i ≠ 0 then word ||| BitVec.twoPow w j else word

theorem flag_eq (x : BitVec w) {i : ℕ} (hi : i < w) (j : ℕ) (word : BitVec w) :
    flag x i j word = word ||| bits ⟨j, 1, x.extractLsb' i 1⟩ := by
  rw [flag, bits_of_bit, BitVec.and_twoPow]
  cases x.getLsbD i with
  | false => simp
  | true =>
    have hne : BitVec.twoPow w i ≠ 0 := by
      intro hzero
      have hbit := congrArg (fun y => y.getLsbD i) hzero
      simp [hi] at hbit
    rw [if_pos rfl, if_pos rfl, if_pos hne]

end BitField
end BifrostModule.Foundation
