import BifrostModule.Foundation.Alignment
import BifrostModule.Foundation.Extents
import BifrostModule.Cmem.HeapMem

/-! # What fits in a free block

The masks and the wrapping sums of `HeapMem_alloc` compute the place of an aligned block,
for requests that name a size and a power of two and do not exceed a word.
-/
namespace BifrostModule.Cmem
open Foundation

theorem pageSize_pos : 0 < pageSize := by decide

theorem pageSize_eq : pageSize = 2 ^ 12 := rfl

theorem addWord_eq {w a b : ℕ} (h : a + b < 2 ^ w) : addWord w a b = a + b :=
  Nat.mod_eq_of_lt h

theorem subWord_eq {w a b : ℕ} (hab : b ≤ a) (ha : a < 2 ^ w) : subWord w a b = a - b := by
  rw [subWord, show a + (2 ^ w - b) = a - b + 2 ^ w by omega, Nat.add_mod_right,
    Nat.mod_eq_of_lt (by omega)]

/-- A request that `HeapMem_alloc` is made for: some bytes, an alignment that is a power of two
(or not a multiple of the page, which stands for the page), and a sum that fits in a word. -/
structure ProperRequest (w reqSize reqAlign : ℕ) : Prop where
  some_bytes : 0 < reqSize
  power : reqAlign % pageSize ≠ 0 ∨ ∃ k, reqAlign = 2 ^ k
  in_word : roundUp pageSize reqSize + adjAlign reqAlign < 2 ^ w

theorem adjSize_eq {w reqSize : ℕ} (h : roundUp pageSize reqSize < 2 ^ w) :
    adjSize w reqSize = roundUp pageSize reqSize := by
  have hmask : reqSize &&& (heapAlign - 1) = reqSize % pageSize := and_pred_two_pow reqSize 12
  rw [adjSize, hmask]
  by_cases hmod : reqSize % pageSize = 0
  · simp [hmod, roundUp_of_mod_eq_zero pageSize_pos hmod]
  · rw [roundUp_of_mod_ne_zero pageSize_pos hmod] at h ⊢
    simp only [ne_eq, hmod, not_false_eq_true, if_true]
    exact addWord_eq h

/-- The alignment that is used is a power of two and a multiple of the page. -/
theorem adjAlign_eq {reqAlign : ℕ} (h : reqAlign % pageSize ≠ 0 ∨ ∃ k, reqAlign = 2 ^ k) :
    ∃ k, adjAlign reqAlign = 2 ^ k ∧ pageSize ∣ 2 ^ k := by
  have hmask : reqAlign &&& (heapAlign - 1) = reqAlign % pageSize :=
    and_pred_two_pow reqAlign 12
  rw [adjAlign, hmask]
  by_cases hmod : reqAlign % pageSize = 0
  · obtain ⟨k, rfl⟩ := h.resolve_left (not_not.mpr hmod)
    simp only [hmod, ne_eq, not_true_eq_false, if_false]
    exact ⟨k, rfl, Nat.dvd_of_mod_eq_zero hmod⟩
  · simp only [hmod, ne_eq, not_false_eq_true, if_true]
    exact ⟨12, rfl, dvd_rfl⟩

/-- The masks find the next multiple of a power of two. -/
theorem alignOffset_eq {w addr k : ℕ} (hk : 2 ^ k < 2 ^ w) :
    alignOffset w addr (2 ^ k) = roundUp (2 ^ k) addr - addr := by
  have hpos : 0 < 2 ^ k := Nat.two_pow_pos k
  have hlt : addr % 2 ^ k < 2 ^ k := Nat.mod_lt addr hpos
  rw [alignOffset, subWord_eq hpos hk, and_pred_two_pow]
  by_cases hmod : addr % 2 ^ k = 0
  · simp [hmod, roundUp_of_mod_eq_zero hpos hmod]
  · rw [roundUp_of_mod_ne_zero hpos hmod]
    simp only [ne_eq, hmod, not_false_eq_true, if_true]
    rw [subWord_eq hlt.le hk]
    omega

/-- The block of `n` bytes at the first address of an extent with the alignment `a`, if the extent
is big enough. -/
def fit (n a : ℕ) (e : Extent ℕ) : Option (Extent ℕ) :=
  if h : 0 < n ∧ roundUp a e.lo + n ≤ e.hi then
    some ⟨roundUp a e.lo, roundUp a e.lo + n, by omega⟩
  else none

theorem fit_eq_some {n a : ℕ} {e r : Extent ℕ} (h : fit n a e = some r) :
    r.lo = roundUp a e.lo ∧ r.hi = r.lo + n ∧ 0 < n ∧ r.hi ≤ e.hi := by
  rw [fit] at h
  split at h
  · rename_i hfit
    cases h
    exact ⟨rfl, rfl, hfit⟩
  · cases h

theorem fit_eq_none {n a : ℕ} {e : Extent ℕ} (hn : 0 < n) :
    fit n a e = none ↔ e.hi < roundUp a e.lo + n := by
  rw [fit]
  split
  · rename_i hfit
    simp [hfit.2]
  · rename_i hfit
    simp only [true_iff]
    omega

theorem fit_inside {n a : ℕ} (ha : 0 < a) : FitsInside (fit n a) := by
  intro e r h
  obtain ⟨hlo, -, -, hhi⟩ := fit_eq_some h
  exact ⟨hlo ▸ le_roundUp ha e.lo, hhi⟩

/-- No block fits in any extent exactly if no aligned address has that many covered ones behind
it. -/
theorem take_fit_eq_none {n a : ℕ} (ha : 0 < a) (hn : 0 < n) {l : List (Extent ℕ)}
    (hl : Canonical l) :
    take (fit n a) l = none ↔ ¬ ∃ addr, a ∣ addr ∧ Set.Ico addr (addr + n) ⊆ covers l := by
  rw [take_eq_none_iff]
  constructor
  · rintro hnone ⟨addr, hdvd, hsub⟩
    obtain ⟨e, he, hin⟩ := hl.exists_inside (r := ⟨addr, addr + n, by omega⟩) hsub
    have hsmall := (fit_eq_none hn).mp (hnone e he)
    have hround : roundUp a e.lo ≤ addr := roundUp_le ha hdvd hin.1
    have hhi : addr + n ≤ e.hi := hin.2
    omega
  · intro hno e he
    by_contra hsome
    obtain ⟨r, hr⟩ := Option.ne_none_iff_exists'.mp hsome
    obtain ⟨hlo, hhi, -, -⟩ := fit_eq_some hr
    refine hno ⟨r.lo, hlo ▸ dvd_roundUp a e.lo, ?_⟩
    rw [← hhi]
    exact (fit_inside ha e r hr).subset.trans (points_subset_covers he)

/-- The block that is taken lies at the lowest of the addresses where one fits. -/
theorem take_fit_isLeast {n a : ℕ} (ha : 0 < a) {l l' : List (Extent ℕ)} {r : Extent ℕ}
    (hl : Canonical l) (h : take (fit n a) l = some (r, l')) :
    IsLeast {addr | a ∣ addr ∧ Set.Ico addr (addr + n) ⊆ covers l} r.lo := by
  obtain ⟨before, e, after, rfl, hbefore, hfit, -⟩ := take_eq_some h
  obtain ⟨hlo, hhi, hn, -⟩ := fit_eq_some hfit
  refine ⟨⟨hlo ▸ dvd_roundUp a e.lo, ?_⟩, fun addr ⟨hdvd, hsub⟩ => ?_⟩
  · rw [← hhi]
    exact (fit_inside ha e r hfit).subset.trans
      (points_subset_covers (List.mem_append_right before List.mem_cons_self))
  · obtain ⟨c, hc, hin⟩ := hl.exists_inside (r := ⟨addr, addr + n, by omega⟩) hsub
    have hround : roundUp a c.lo ≤ addr := roundUp_le ha hdvd hin.1
    have hend : addr + n ≤ c.hi := hin.2
    rcases List.mem_append.mp hc with hc | hc
    · -- The search has passed over the extents before.
      have hsmall := (fit_eq_none hn).mp (hbefore c hc)
      omega
    · rcases List.mem_cons.mp hc with rfl | hc
      · exact hlo ▸ hround
      · have hafter := Canonical.hi_lt (List.pairwise_append.mp hl).2.1 hc
        have hinside := (fit_inside ha e r hfit).2
        have hlt := r.lt
        have hle := le_roundUp ha c.lo
        omega

end BifrostModule.Cmem
