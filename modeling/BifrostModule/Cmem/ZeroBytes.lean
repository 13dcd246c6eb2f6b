import BifrostModule.Cmem.Buffers
import BifrostModule.Cmem.Calls

/-! # Requests for no bytes

The heap does not check for a size of 0, and a size close to the end of the words wraps to
0. Such a request returns memory that stays free; to give it back makes a header its own
successor, and no later call that has to pass it returns.
-/
namespace BifrostModule.Cmem
open Foundation

/-- The first header has no bytes and is its own successor. -/
structure Loops (h : HeapMem) (addr : ℕ) : Prop where
  some_addr : addr ≠ 0
  head : h.next none = addr
  next : h.next (some addr) = addr
  size : (h.mem addr).size = 0

section
variable {w : ℕ} {h : HeapMem} {addr : ℕ}

/-- The search of an allocation stays at such a header. -/
theorem Loops.allocLoop (hl : Loops h addr) {n align : ℕ} (dryrun : Bool)
    (hn : addWord w n (alignOffset w addr align) ≠ 0) (fuel : ℕ) (p : Option ℕ) :
    h.allocLoop w n align dryrun fuel p addr = none := by
  induction fuel generalizing p with
  | zero => rfl
  | succ fuel ih =>
    have hsmall : ¬ addWord w n (alignOffset w addr align) ≤ (h.mem addr).size := by
      rw [hl.size]
      omega
    rw [HeapMem.allocLoop, if_neg hl.some_addr, if_neg hsmall, hl.next]
    exact ih (some addr)

theorem Loops.findPlace (hl : Loops h addr) {newHeader : ℕ} (hbehind : addr < newHeader)
    (fuel : ℕ) (p : Option ℕ) : h.findPlace newHeader fuel p addr = none := by
  induction fuel generalizing p with
  | zero => rfl
  | succ fuel ih =>
    rw [HeapMem.findPlace, if_pos ⟨hl.some_addr, hbehind⟩, hl.next]
    exact ih (some addr)

theorem Loops.heapMemAlloc (hl : Loops h addr) {size align : ℕ} (hreq : ProperRequest w size align)
    (dryrun : Bool) (fuel : ℕ) : h.heapMemAlloc w fuel size align dryrun = none := by
  obtain ⟨k, hk, -⟩ := adjAlign_eq hreq.power
  have hword := hreq.in_word
  rw [hk] at hword
  have hpos : 0 < 2 ^ k := Nat.two_pow_pos k
  have hround := roundUp_lt_add hpos addr
  have hbytes := roundUp_pos pageSize_pos hreq.some_bytes
  rw [HeapMem.heapMemAlloc, hl.head, adjSize_eq (by omega), hk]
  refine hl.allocLoop dryrun ?_ fuel none
  rw [alignOffset_eq (by omega), addWord_eq (by omega)]
  omega

theorem Loops.heapMemFree (hl : Loops h addr) {newHeader : ℕ} (hbehind : addr < newHeader)
    (size fuel : ℕ) : h.heapMemFree w fuel newHeader size = none := by
  rw [HeapMem.heapMemFree, hl.head, hl.findPlace hbehind]
  rfl

/-! ## How the header gets there -/

theorem setNext_self (h : HeapMem) (p : Option ℕ) : h.setNext p (h.next p) = h := by
  cases p with
  | none => rfl
  | some a => simp [HeapMem.setNext, HeapMem.next, HeapMem.header]

theorem setSize_self (h : HeapMem) (a : ℕ) : h.setSize a (h.mem a).size = h := by
  simp [HeapMem.setSize]

/-- The sizes that are taken for no bytes: 0 and those behind the last page of the words. -/
theorem adjSize_eq_zero {size : ℕ} (hpage : pageSize ∣ 2 ^ w) (hlt : size < 2 ^ w)
    (h : size = 0 ∨ 2 ^ w - pageSize < size) : adjSize w size = 0 := by
  have hmask : size &&& (heapAlign - 1) = size % pageSize := and_pred_two_pow size 12
  rw [adjSize, hmask]
  rcases h with rfl | h
  · rfl
  · obtain ⟨n, hn⟩ := hpage
    have hpos := pageSize_pos
    obtain ⟨m, rfl⟩ : ∃ m, n = m + 1 := Nat.exists_eq_succ_of_ne_zero (by rintro rfl; omega)
    rw [Nat.mul_succ] at hn
    have hsize : size = pageSize * m + (size - pageSize * m) := by omega
    have hmod : size % pageSize = size - pageSize * m := by
      conv_lhs => rw [hsize]
      rw [Nat.mul_add_mod, Nat.mod_eq_of_lt (by omega)]
    rw [hmod]
    simp only [ne_eq, show size - pageSize * m ≠ 0 by omega, not_false_eq_true, if_true]
    rw [addWord, show size + (heapAlign - (size - pageSize * m)) = 2 ^ w by
      change size + (pageSize - (size - pageSize * m)) = 2 ^ w
      omega, Nat.mod_self]

/-- A request for no bytes returns the first free header and changes nothing. -/
theorem heapMemAlloc_zero {e : Extent ℕ} {l : List (Extent ℕ)} (hh : Holds h (e :: l))
    (hhi : e.hi < 2 ^ w) {size align : ℕ} (hsize : adjSize w size = 0)
    (halign : align % pageSize ≠ 0) (hpaged : pageSize ∣ e.lo) {fuel : ℕ} (hfuel : 0 < fuel) :
    h.heapMemAlloc w fuel size align false = some (e.lo, h) := by
  obtain ⟨hnext, hne, -⟩ := hh.linked
  obtain ⟨fuel, rfl⟩ := Nat.exists_eq_succ_of_ne_zero hfuel.ne'
  have hlt := e.lt
  have hle := Nat.le_of_dvd (Nat.pos_of_ne_zero hne) hpaged
  have hpage : pageSize < 2 ^ w := by omega
  have halign' : adjAlign align = pageSize := by
    have hmask : align &&& (heapAlign - 1) = align % pageSize := and_pred_two_pow align 12
    rw [adjAlign, hmask]
    simp [halign, heapAlign]
  have hoff : alignOffset w e.lo pageSize = 0 := by
    rw [pageSize_eq] at hpage hpaged ⊢
    rw [alignOffset_eq hpage, roundUp_of_dvd (Nat.two_pow_pos 12) hpaged, Nat.sub_self]
  have hesize := hh.sizes e List.mem_cons_self
  have hsub : ∀ a < 2 ^ w, subWord w a 0 = a := fun a ha => subWord_eq (Nat.zero_le a) ha
  have hadd : ∀ a < 2 ^ w, addWord w a 0 = a := fun a ha => addWord_eq ha
  have hremain : subWord w (subWord w (h.mem e.lo).size 0) 0 = (h.mem e.lo).size := by
    rw [hsub (h.mem e.lo).size (by omega), hsub (h.mem e.lo).size (by omega)]
  have haddr : addWord w (addWord w e.lo 0) 0 = e.lo := by
    rw [hadd e.lo (by omega), hadd e.lo (by omega)]
  rw [HeapMem.heapMemAlloc, hsize, halign', hnext, HeapMem.allocLoop, if_neg hne, hoff,
    if_pos (by rw [hadd 0 (by omega)]; exact Nat.zero_le _)]
  have hfrom : h.allocFrom w none e.lo 0 0 = h := by
    have hsome : e.hi - e.lo ≠ 0 := by omega
    simp only [HeapMem.allocFrom, hremain, haddr, ne_eq, not_true_eq_false, if_false]
    rw [hesize, if_pos hsome, setNext_self, ← hesize, setSize_self, ← hnext, setNext_self]
  rw [hfrom, hadd e.lo (by omega)]
  rfl

/-- To give that memory back makes the header its own successor. -/
theorem heapMemFree_zero {e : Extent ℕ} {l : List (Extent ℕ)} (hh : Holds h (e :: l))
    (hhi : e.hi < 2 ^ w) {size : ℕ} (hsize : adjSize w size = 0) {fuel : ℕ} (hfuel : 0 < fuel) :
    ∃ h', h.heapMemFree w fuel e.lo size = some h' ∧ Loops h' e.lo := by
  obtain ⟨hnext, hne, -⟩ := hh.linked
  obtain ⟨fuel, rfl⟩ := Nat.exists_eq_succ_of_ne_zero hfuel.ne'
  have hlt := e.lt
  have hplace : h.findPlace e.lo (fuel + 1) none (h.next none) = some (none, e.lo) := by
    rw [HeapMem.findPlace, hnext]
    exact if_neg fun hgo => Nat.lt_irrefl e.lo hgo.2
  have hzero : addWord w 0 0 = 0 := Nat.zero_mod _
  refine ⟨_, by rw [HeapMem.heapMemFree, hplace, hsize]; rfl, hne, ?_, ?_, ?_⟩
  all_goals
    simp [HeapMem.joinUpper, HeapMem.joinLower, HeapMem.next_setNext, HeapMem.size_setSize, hne,
      addWord_eq (show e.lo + 0 < 2 ^ w by omega), hzero]

end

/-- Words are big enough for a page where there is a heap. -/
theorem HeapRegion.pageSize_dvd_word {w : ℕ} (region : HeapRegion w) : pageSize ∣ 2 ^ w := by
  have hle := Nat.le_of_dvd region.lo_pos region.lo_paged
  have hlt := region.lt
  have hword := region.in_word
  have hpow : 2 ^ 12 < 2 ^ w := by
    rw [← pageSize_eq]
    omega
  exact Nat.pow_dvd_pow 2 ((Nat.pow_lt_pow_iff_right Nat.one_lt_two).mp hpow).le

namespace HeapState
variable {w : ℕ} {region : HeapRegion w}

/-- After any run, a request for no bytes is answered with memory that is free and stays so. Right
after it is given back no allocation returns, nor does a free of a block behind it. -/
theorem zero_request_hangs {s : HeapState} (hs : (machine region).ReachableUnder (Proper w) s)
    (hfree : s.heap.next none ≠ 0) {size align : ℕ} (hlt : size < 2 ^ w)
    (hbytes : size = 0 ∨ 2 ^ w - pageSize < size) (halign : align % pageSize ≠ 0) :
    ∃ addr h', addr ∈ region.points \ covers (s.live.map HeapBlock.span) ∧
      s.heap.heapMemAlloc w region.fuel size align false = some (addr, s.heap) ∧
      s.heap.heapMemFree w region.fuel addr size = some h' ∧
      (∀ size align dryrun fuel, ProperRequest w size align →
        h'.heapMemAlloc w fuel size align dryrun = none) ∧
      ∀ newHeader size fuel, addr < newHeader → h'.heapMemFree w fuel newHeader size = none := by
  have hsize := adjSize_eq_zero region.pageSize_dvd_word hlt hbytes
  obtain ⟨free, ht⟩ := tracks_of_reachable hs
  cases free with
  | nil => exact absurd ht.holds.linked hfree
  | cons e l =>
    have hhi := ht.hi_lt e List.mem_cons_self
    have hpaged := (ht.paged e List.mem_cons_self).1
    have hmem : e.lo ∈ covers (e :: l) := points_subset_covers List.mem_cons_self e.lo_mem
    have hfuel : 0 < region.fuel := Nat.succ_pos _
    obtain ⟨h', hrun, hloops⟩ := heapMemFree_zero ht.holds hhi hsize hfuel
    refine ⟨e.lo, h', ⟨ht.tiled.free_subset hmem, fun hlive => ?_⟩,
      heapMemAlloc_zero ht.holds hhi hsize halign hpaged hfuel, hrun, ?_, ?_⟩
    · exact Set.disjoint_left.mp ht.tiled.disjoint hmem hlive
    · exact fun size align dryrun fuel hreq => hloops.heapMemAlloc hreq dryrun fuel
    · exact fun newHeader size fuel hbehind => hloops.heapMemFree hbehind size fuel

theorem zero_request_hangs_two : ∃ s, (machine fourPages).ReachableUnder (Proper 32) s ∧
    s.live = [⟨8192, 5000⟩] ∧
    ∃ addr h', addr ∈ fourPages.points \ covers (s.live.map HeapBlock.span) ∧
      s.heap.heapMemAlloc 32 fourPages.fuel 0 1 false = some (addr, s.heap) ∧
      s.heap.heapMemFree 32 fourPages.fuel addr 0 = some h' ∧
      (∀ size align dryrun fuel, ProperRequest 32 size align →
        h'.heapMemAlloc 32 fuel size align dryrun = none) ∧
      ∀ newHeader size fuel, addr < newHeader → h'.heapMemFree 32 fuel newHeader size = none := by
  obtain ⟨s, hs, hlive, hnext⟩ := reachable_fourPages
  have hfree : s.heap.next none ≠ 0 := by
    rw [hnext]
    decide
  exact ⟨s, hs, hlive, zero_request_hangs hs hfree (by decide) (.inl rfl) (by decide)⟩

end HeapState

/-! ## Two ioctls of one file -/

section
variable {w : ℕ} {L : CmemLayout w} {s : CmemState}

/-- A byte of a heap that is free is in no busy buffer. -/
theorem Inv.physp_ne_of_free (hs : Inv L s) {bi : BlockId} (hbi : (L.block bi).heapPool ≠ none)
    {addr : ℕ} (hin : addr ∈ (L.region bi hbi).points)
    (hfree : addr ∉ covers ((heapBusy L s bi).map HeapBlock.span)) {id : PoolId}
    (hid : id ∈ L.walk) {e : PoolBuffer} (he : e ∈ (s.pObjs id).busylist) :
    e.physp ≠ (L.block bi).start + (addr - (L.block bi).virtp) := by
  obtain ⟨hp, hpool⟩ := Option.ne_none_iff_exists'.mp hbi
  obtain ⟨-, hvirt, hpos, -⟩ := L.heap_inside bi hbi
  have hlo : (L.block bi).heapVirtp ≤ addr := hin.1
  have hhi : addr < (L.block bi).heapVirtp + (L.block bi).heapSize := hin.2
  by_cases hne : id = (bi, hp)
  · subst hne
    have hheap : L.isHeap (bi, hp) = true := isHeap_iff.mpr hpool
    have hmem : e.virt ∈ heapBusy L s bi := by
      rw [heapBusy_of_isHeap hheap]
      exact List.mem_map_of_mem he
    obtain ⟨free, ht⟩ := hs.heaps bi hbi
    have helo : (L.block bi).heapVirtp ≤ e.kvirtp := (ht.live_inside hmem).1
    rw [hs.heapPhys (bi, hp) hheap e he]
    intro heq
    dsimp only at heq
    have hsame : e.kvirtp = addr := by omega
    refine hfree (mem_covers.mpr ⟨e.virt.span, List.mem_map_of_mem hmem, ?_⟩)
    exact hsame ▸ e.virt.span.lo_mem
  · -- The buffers of other pools lie outside of the one that the heap divides.
    have hheapId : (bi, hp) ∈ L.walk := mem_walk_of_isHeap (isHeap_iff.mpr hpool)
    obtain ⟨b, hb, heb⟩ := hs.exists_buffer he
    have hcross : ∀ c ∈ L.buffers (bi, hp), Disjoint b.span.points c.span.points :=
      fun c hc => L.disjoint_buffers hid hheapId hne hb hc
    rw [L.heap_buffer bi hp hpool] at hcross
    have hdisj := hcross _ (List.mem_singleton_self _)
    intro heq
    refine Set.disjoint_left.mp hdisj (heb e.phys.span.lo_mem) ?_
    have hspan := HeapBlock.span_hi (b := ⟨(L.block bi).start + ((L.block bi).heapVirtp -
      (L.block bi).virtp), (L.block bi).heapSize⟩) hpos
    rw [roundUp_of_dvd pageSize_pos (L.heap_paged bi hbi).2] at hspan
    refine ⟨?_, ?_⟩
    · change _ ≤ e.physp
      rw [heq]
      exact Nat.add_le_add_left (Nat.sub_le_sub_right hlo _) _
    · rw [hspan]
      change e.physp < _
      rw [heq]
      dsimp only
      omega

theorem findSome?_eq_of_forall_ne {α β : Type*} {f : α → Option β} {l : List α} {a : α} {b : β}
    (ha : a ∈ l) (hb : f a = some b) (hother : ∀ x ∈ l, x ≠ a → f x = none) :
    l.findSome? f = some b := by
  induction l with
  | nil => cases ha
  | cons x l ih =>
    rw [List.findSome?_cons]
    by_cases hx : x = a
    · rw [hx, hb]
    · rw [hother x List.mem_cons_self hx]
      exact ih ((List.mem_cons.mp ha).resolve_left (Ne.symm hx))
        fun y hy => hother y (List.mem_cons_of_mem x hy)

/-- The buffer that a request for no bytes got is found again at its address. -/
theorem Inv.findBusyEntry_new (hs : Inv L s) {bi : BlockId} {hp addr : ℕ}
    (hpool : (L.block bi).heapPool = some hp) (hbi : (L.block bi).heapPool ≠ none)
    (hin : addr ∈ (L.region bi hbi).points)
    (hout : addr ∉ covers ((heapBusy L s bi).map HeapBlock.span)) {e : PoolBuffer}
    (hphys : e.physp = (L.block bi).start + (addr - (L.block bi).virtp)) :
    (s.setPool (bi, hp) { s.pObjs (bi, hp) with
      busylist := (s.pObjs (bi, hp)).busylist ++ [e] }).findBusyEntry L.toCmemConfig e.physp =
        some ((bi, hp), e) := by
  have hid : (bi, hp) ∈ L.walk := mem_walk_of_isHeap (isHeap_iff.mpr hpool)
  have hnone : ∀ id ∈ L.walk, (s.pObjs id).busylist.find? (fun c => c.physp = e.physp) = none := by
    intro id hid
    refine List.find?_eq_none.mpr fun c hc => ?_
    have hno := hs.physp_ne_of_free hbi hin hout hid hc
    simpa [hphys] using hno
  refine findSome?_eq_of_forall_ne hid ?_ fun id hid hother => ?_
  · rw [setPool_self, List.find?_append, hnone _ hid]
    simp
  · rw [setPool_of_ne _ hother, hnone id hid]
    rfl

/-- After any run, an open file can make the next allocation from a heap hang with an allocation of
no bytes and the free of what it got. -/
theorem zero_bytes_stop_heap {s : CmemRun}
    (hs : (CmemRun.machine L).ReachableUnder (CmemRun.Proper w) s) {bi : BlockId}
    (hbi : (L.block bi).heapPool ≠ none) (hfree : (s.state.heapHead bi).next ≠ 0)
    {size align : ℕ} (hlt : size < 2 ^ w) (hbytes : size = 0 ∨ 2 ^ w - pageSize < size)
    (halign : align % pageSize ≠ 0) (filp : Filp) (flags : BitVec 32) {o : Outcomes}
    (ho : o.Fine) :
    ∃ physp t r u,
      s.state.ioctl L.toCmemConfig filp (.allocHeap size align (bi : ℕ) flags) o =
        some (.ok (.physp physp), t) ∧
      t.ioctl L.toCmemConfig filp (.freePhys physp) o = some (.ok r, u) ∧
      ∀ size align dryrun fuel, ProperRequest w size align →
        (u.heapOf bi).heapMemAlloc w fuel size align dryrun = none := by
  have hinv := inv_of_reachable hs
  have hsize := adjSize_eq_zero (L.region bi hbi).pageSize_dvd_word hlt hbytes
  obtain ⟨hp, hpool⟩ := Option.ne_none_iff_exists'.mp hbi
  have hheap : L.isHeap (bi, hp) = true := isHeap_iff.mpr hpool
  have hfuel : 0 < L.fuel bi := Nat.succ_pos _
  obtain ⟨free, ht⟩ := hinv.heaps bi hbi
  cases free with
  | nil => exact absurd ht.holds.linked hfree
  | cons e l =>
    have hhi := ht.hi_lt e List.mem_cons_self
    have hmem : e.lo ∈ covers (e :: l) := points_subset_covers List.mem_cons_self e.lo_mem
    have hin : e.lo ∈ (L.region bi hbi).points := ht.tiled.free_subset hmem
    have hout : e.lo ∉ covers ((heapBusy L s.state bi).map HeapBlock.span) := fun hlive =>
      Set.disjoint_left.mp ht.tiled.disjoint hmem hlive
    -- The allocation returns the first free header and leaves the heap as it is.
    have halloc : s.state.heapAlloc L.toCmemConfig bi size align false = some (e.lo, s.state) := by
      rw [CmemState.heapAlloc, heapMemAlloc_zero ht.holds hhi hsize halign
        (ht.paged e List.mem_cons_self).1 hfuel, Option.map_some, setHeap_heapOf]
    have hphys := L.getPhys_eq bi o.elsewhere (L.region_subset bi hbi hin)
    have hioctl := ioctl_allocHeap_eq ho filp flags hpool halloc
    rw [if_neg ht.holds.linked.2.1] at hioctl
    have hfound := hinv.findBusyEntry_new hpool hbi hin hout
      (e := ⟨hp, L.getPhys o.elsewhere e.lo, flags, e.lo, size, [filp]⟩) hphys
    -- The free puts the header in front of itself.
    obtain ⟨h', hrun, hloops⟩ := heapMemFree_zero ht.holds hhi hsize hfuel
    have hback : ∀ t : CmemState, t.heapOf bi = s.state.heapOf bi →
        ∃ u, t.giveBack L.toCmemConfig (bi, hp)
          ⟨hp, L.getPhys o.elsewhere e.lo, flags, e.lo, size, [filp]⟩ = some u ∧
            u.heapOf bi = h' := by
      intro t hheapOf
      rw [CmemState.giveBack, hheap]
      simp only [if_true, CmemState.heapFree, hheapOf, hrun, Option.map_some]
      exact ⟨_, rfl, by rw [heapOf_setPool, heapOf_setHeap_self]⟩
    obtain ⟨u, hgive, hu⟩ := hback (s.state.setPool (bi, hp) _) rfl
    refine ⟨_, _, _, u, hioctl, ioctl_free_eq ho hfound rfl hgive, ?_⟩
    intro size align dryrun fuel hreq
    rw [hu]
    exact hloops.heapMemAlloc hreq dryrun fuel

theorem zero_bytes_stop_heap_two :
    ∃ s, (CmemRun.machine onePoolLayout).ReachableUnder (CmemRun.Proper 32) s ∧
      ∃ physp t r u,
        s.state.ioctl onePoolLayout.toCmemConfig 8 (.allocHeap 0 1 ((0 : BlockId) : ℕ) 0#32)
          served = some (.ok (.physp physp), t) ∧
        t.ioctl onePoolLayout.toCmemConfig 8 (.freePhys physp) served = some (.ok r, u) ∧
        ∀ size align dryrun fuel, ProperRequest 32 size align →
          (u.heapOf 0).heapMemAlloc 32 fuel size align dryrun = none := by
  obtain ⟨s, hs, -, hnext⟩ := reachable_onePool
  have hfree : (s.state.heapHead 0).next ≠ 0 := by
    rw [hnext]
    decide
  have hheap : (onePoolLayout.block 0).heapPool ≠ none := Option.some_ne_none 1
  exact ⟨s, hs, zero_bytes_stop_heap hs hheap hfree (by decide) (.inl rfl) (by decide) 8 0#32
    served_fine⟩

end
end BifrostModule.Cmem
