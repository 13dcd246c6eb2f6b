import BifrostModule.Cmem.Buffers
import BifrostModule.Cmem.Calls

/-! # Which pool fits

A user asks with `CMEM_IOCGETPOOL` which pool fits a size best and allocates from it with a
second ioctl. As long as no other ioctl comes in between, the answer says what the second one
does.
-/
namespace BifrostModule.Cmem
open Foundation

namespace CmemState

/-- A pool up to some number has a free buffer for the size, and one that is not too big. -/
structure Fits (s : CmemState) (bi : BlockId) (size n i : ℕ) : Prop where
  lt : i < n
  free : (s.pObjs (bi, i)).freelist ≠ []
  le : size ≤ (s.pObjs (bi, i)).size
  excess : (s.pObjs (bi, i)).size - size < 2 ^ 31 - 1

/-- Of the pools that fit, the first one of the smallest size. -/
structure FitsBest (s : CmemState) (bi : BlockId) (size n i : ℕ) : Prop where
  fits : s.Fits bi size n i
  least : ∀ j, s.Fits bi size n j → (s.pObjs (bi, i)).size ≤ (s.pObjs (bi, j)).size
  first : ∀ j < i, s.Fits bi size n j → (s.pObjs (bi, i)).size < (s.pObjs (bi, j)).size

variable {s : CmemState} {bi : BlockId} {size n i : ℕ}

theorem fits_succ_iff : s.Fits bi size (n + 1) i ↔
    s.Fits bi size n i ∨ i = n ∧ s.Fits bi size (n + 1) n := by
  constructor
  · intro h
    rcases Nat.lt_succ_iff_lt_or_eq.mp h.lt with hlt | rfl
    · exact .inl ⟨hlt, h.free, h.le, h.excess⟩
    · exact .inr ⟨rfl, h⟩
  · rintro (h | ⟨rfl, h⟩)
    · exact ⟨h.lt.trans (Nat.lt_succ_self n), h.free, h.le, h.excess⟩
    · exact h

/-- The loop over the pools keeps the best one so far and its excess. -/
theorem bestFit_spec (s : CmemState) (bi : BlockId) (size n : ℕ) :
    (s.bestFit bi size n = (2 ^ 31 - 1, -1) ∧ ∀ i, ¬ s.Fits bi size n i) ∨
    ∃ i : ℕ, s.bestFit bi size n = ((s.pObjs (bi, i)).size - size, (i : ℤ)) ∧
      s.FitsBest bi size n i := by
  induction n with
  | zero => exact .inl ⟨rfl, fun i h => Nat.not_lt_zero i h.lt⟩
  | succ n ih =>
    rw [bestFit]
    rcases ih with ⟨hbest, hno⟩ | ⟨i, hbest, hi⟩
    · rw [hbest]
      split
      · rename_i hn
        have hfits : s.Fits bi size (n + 1) n :=
          ⟨Nat.lt_succ_self n, by simpa using hn.2.2, hn.1, hn.2.1⟩
        refine .inr ⟨n, rfl, hfits, fun j hj => ?_, fun j hlt hj => ?_⟩
        · rcases fits_succ_iff.mp hj with hj | ⟨rfl, -⟩
          · exact absurd hj (hno j)
          · exact le_rfl
        · rcases fits_succ_iff.mp hj with hj | ⟨rfl, -⟩
          · exact absurd hj (hno j)
          · exact absurd hlt (Nat.lt_irrefl j)
      · rename_i hn
        refine .inl ⟨rfl, fun i hi => ?_⟩
        rcases fits_succ_iff.mp hi with hi | ⟨-, hi⟩
        · exact hno i hi
        · exact hn ⟨hi.le, hi.excess, by simpa using hi.free⟩
    · rw [hbest]
      have hile := hi.fits.le
      split
      · rename_i hn
        have hexcess := hi.fits.excess
        have hlt : (s.pObjs (bi, n)).size < (s.pObjs (bi, i)).size := by omega
        have hfits : s.Fits bi size (n + 1) n :=
          ⟨Nat.lt_succ_self n, by simpa using hn.2.2, hn.1, by omega⟩
        refine .inr ⟨n, rfl, hfits, fun j hj => ?_, fun j _ hj => ?_⟩
        · rcases fits_succ_iff.mp hj with hj | ⟨rfl, -⟩
          · exact (hlt.trans_le (hi.least j hj)).le
          · exact le_rfl
        · rcases fits_succ_iff.mp hj with hj | ⟨rfl, -⟩
          · exact hlt.trans_le (hi.least j hj)
          · omega
      · rename_i hn
        have hle : s.Fits bi size (n + 1) n → (s.pObjs (bi, i)).size ≤ (s.pObjs (bi, n)).size := by
          intro hfits
          by_contra hlt
          exact hn ⟨hfits.le, by have := hfits.le; omega, by simpa using hfits.free⟩
        refine .inr ⟨i, rfl, fits_succ_iff.mpr (.inl hi.fits), fun j hj => ?_, fun j hlt hj => ?_⟩
        · rcases fits_succ_iff.mp hj with hj | ⟨rfl, hfits⟩
          · exact hi.least j hj
          · exact hle hfits
        · rcases fits_succ_iff.mp hj with hj | ⟨rfl, -⟩
          · exact hi.first j hlt hj
          · exact absurd (hi.fits.lt.trans hlt) (Nat.lt_irrefl i)

end CmemState

section
variable {w : ℕ} {L : CmemLayout w} {s : CmemState} {o : Outcomes} {bi : BlockId}

/-- In every reachable state the answer of `CMEM_IOCGETPOOL` is right: the pool it names is the
best fit and hands out a buffer that is big enough, -2 stands for a heap that hands out memory, and
without a pool no pool fits, nor does the heap where that may stand in. -/
theorem getPool_then_alloc {s : CmemRun}
    (hs : (CmemRun.machine L).ReachableUnder (CmemRun.Proper w) s) {size : ℕ}
    (hreq : ProperRequest w size heapAlign) (bi : BlockId) (filp : Filp) (flags : BitVec 32)
    (ho : o.Fine) :
    (∃ i : ℕ, s.state.FitsBest bi size (L.block bi).npools i ∧
      s.state.ioctl L.toCmemConfig filp (.getPool size (bi : ℕ)) o =
        some (.ok (.pool i), s.state) ∧
      ∃ e ∈ (s.state.pObjs (bi, i)).freelist, ∃ t, size ≤ e.size ∧
        s.state.ioctl L.toCmemConfig filp (.alloc i (bi : ℕ) flags) o =
          some (.ok (.buffer e.physp e.size), t)) ∨
    (∀ i, ¬ s.state.Fits bi size (L.block bi).npools i) ∧
      ((∃ physp t, s.state.ioctl L.toCmemConfig filp (.getPool size (bi : ℕ)) o =
          some (.ok (.pool (-2)), s.state) ∧
        s.state.ioctl L.toCmemConfig filp (.allocHeap size heapAlign (bi : ℕ) flags) o =
          some (.ok (.physp physp), t)) ∨
      s.state.ioctl L.toCmemConfig filp (.getPool size (bi : ℕ)) o =
          some (.error .ENOMEM, s.state) ∧
        ((L.block bi).heapPool ≠ none → L.useHeapIfPoolUnavailable = true →
          s.state.ioctl L.toCmemConfig filp (.allocHeap size heapAlign (bi : ℕ) flags) o =
            some (.error .ENOMEM, s.state))) := by
  have hinv := inv_of_reachable hs
  have hsized := sized_of_reachable hs
  rw [ioctl_getPool_eq ho, CmemState.getPool, if_neg (by simp [ho.locked])]
  dsimp only
  rcases s.state.bestFit_spec bi size (L.block bi).npools with ⟨hbest, hno⟩ | ⟨i, hbest, hi⟩
  · refine .inr ⟨hno, ?_⟩
    rw [hbest]
    by_cases hheap : (L.block bi).heapPool ≠ none ∧ L.useHeapIfPoolUnavailable = true
    · obtain ⟨hp, hpool⟩ := Option.ne_none_iff_exists'.mp hheap.1
      obtain ⟨free, ht⟩ := hinv.heaps bi hheap.1
      have hdry := heapMemAlloc_dryrun ht.holds ht.hi_lt ht.length_lt hreq
      rw [if_pos ⟨rfl, hheap⟩, CmemState.heapAlloc, L.fuel_eq bi hheap.1, hdry]
      have hfuel := L.fuel_eq bi hheap.1
      rcases ht.alloc hreq with ⟨htake, hrun⟩ | ⟨r, free', h', htake, hrun, hne, -⟩
      · -- Neither the dry run nor the allocation finds anything.
        right
        refine ⟨by simp [htake], fun _ _ => ?_⟩
        have halloc : s.state.heapAlloc L.toCmemConfig bi size heapAlign false =
            some (0, s.state) := by
          rw [CmemState.heapAlloc, hfuel, hrun, Option.map_some, setHeap_heapOf]
        rw [ioctl_allocHeap_eq ho filp flags hpool halloc, if_pos rfl]
      · left
        have halloc : s.state.heapAlloc L.toCmemConfig bi size heapAlign false =
            some (r.lo, s.state.setHeap bi h') := by
          rw [CmemState.heapAlloc, hfuel, hrun]
          rfl
        have hioctl := ioctl_allocHeap_eq ho filp flags hpool halloc
        rw [if_neg hne] at hioctl
        exact ⟨_, _, by simp [htake, hne, CmemState.reply, ho.copyOut], hioctl⟩
    · right
      rw [if_neg (by simpa using hheap)]
      exact ⟨by simp, fun hbi huse => absurd ⟨hbi, huse⟩ hheap⟩
  · refine .inl ⟨i, hi, ?_, ?_⟩
    · rw [hbest]
      simp [CmemState.reply, ho.copyOut]
    · obtain ⟨e, rest, hfree⟩ := List.exists_cons_of_ne_nil hi.fits.free
      have he : e ∈ (s.state.pObjs (bi, i)).freelist := hfree ▸ List.mem_cons_self
      have hid := mem_walk_of_lt (L := L) hi.fits.lt
      have hpool := not_isHeap_of_lt (L := L) hi.fits.lt
      have hbuffer : e.phys ∈ L.buffers (bi, i) :=
        (hinv.pools (bi, i) hpool).mem_iff.mp (List.mem_map_of_mem (List.mem_append_left _ he))
      have hsize : e.size = (s.state.pObjs (bi, i)).size := hsized.sizes (bi, i) hid e.phys hbuffer
      obtain ⟨t, ht⟩ := ioctl_alloc_eq ho filp flags hi.fits.lt hfree
      exact ⟨e, he, t, hsize ▸ hi.fits.le, hsize ▸ ht⟩

theorem getPool_then_alloc_page :
    ∃ i : ℕ, onePoolLoaded.FitsBest 0 4096 1 i ∧
      onePoolLoaded.ioctl onePool 8 (.getPool 4096 ((0 : BlockId) : ℕ)) served =
        some (.ok (.pool i), onePoolLoaded) ∧
      ∃ e ∈ (onePoolLoaded.pObjs (0, i)).freelist, ∃ t, 4096 ≤ e.size ∧
        onePoolLoaded.ioctl onePool 8 (.alloc i ((0 : BlockId) : ℕ) 0#32) served =
          some (.ok (.buffer e.physp e.size), t) := by
  have hfits : onePoolLoaded.Fits 0 4096 1 0 := ⟨by decide, List.cons_ne_nil _ _, by decide,
    by decide⟩
  exact (getPool_then_alloc (.start start_onePool) proper_page 0 8 0#32 served_fine).resolve_right
    fun hno => hno.1 0 hfits

end
end BifrostModule.Cmem
