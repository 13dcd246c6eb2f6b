import BifrostModule.Cmem.Buffers
import BifrostModule.Cmem.Loading

/-! # What the module starts with

After `cmem_init` the buffers of the pools and the heap of a block make up the block, so the
module is loaded as the runs of its files expect it.
-/
namespace BifrostModule.Cmem
open Foundation

/-! ## Both blocks -/

section
variable {sv : Services} {s t : InitState} {bi bj : BlockId} {length : ℕ} {pools : List (ℕ × ℕ)}

theorem HeapAt.congr {n : ℕ} (h : HeapAt s bi n) (hblock : t.block bi = s.block bi)
    (hpool : ∀ i, t.pObjs (bi, i) = s.pObjs (bi, i)) (hhead : t.heapHead bi = s.heapHead bi)
    (hmem : t.mem (s.block bi).virtp = s.mem (s.block bi).virtp) : HeapAt t bi n where
  size := hblock ▸ h.size
  none := hblock ▸ h.none
  pool := hblock ▸ h.pool
  virtp := hblock ▸ h.virtp
  buffer := by
    rw [hblock]
    exact fun hpos => (h.buffer hpos).congr (hpool _)
  head := by
    rw [hblock, hhead]
    exact h.head
  header := by
    rw [hblock, hmem]
    exact h.header

/-- The set-up of another block does not touch a block. -/
theorem BlockAt.other (h : BlockAt sv s bi length pools) (hne : bi ≠ bj) {virtp length' : ℕ}
    (ho : OtherBlocks s t bj virtp length')
    (hv : (s.block bi).virtp ∉ Set.Ico virtp (virtp + length')) : BlockAt sv t bi length pools where
  mapped := by
    have hblock := ho.block bi hne
    exact h.mapped.congr (by rw [hblock]) (by rw [hblock]) (by rw [hblock]) (by rw [hblock])
      (by rw [hblock])
  npools := ho.block bi hne ▸ h.npools
  sane := h.sane
  fits := h.fits
  stacked := by
    rw [ho.block bi hne]
    exact h.stacked.congr fun j _ _ => ho.pObjs (bi, j) hne
  rest := fun i hi hne' => (ho.pObjs (bi, i) hne).trans (h.rest i hi hne')
  heap := h.heap.congr (ho.block bi hne) (fun i => ho.pObjs (bi, i) hne) (ho.heapHead bi hne)
    (ho.mem _ hv)

end

theorem blockId_cases (bi : BlockId) : bi = 0 ∨ bi = 1 := by
  match bi with
  | 0 => exact .inl rfl
  | 1 => exact .inr rfl

namespace InitState
variable {sv : Services} {s t : InitState} {bi : BlockId}

theorem clearPages_of_notMem (mem : ℕ → HeapMemHeader) {virtp length x : ℕ}
    (hlength : length < 2 ^ 32) (hpos : 0 < length) (hx : x ∉ Set.Ico virtp (virtp + length)) :
    clearPages mem virtp length x = mem x := by
  refine if_neg fun ⟨hle, hlt, _⟩ => hx ⟨hle, ?_⟩
  rw [subWord_eq hpos hlength] at hlt
  omega

/-- A block that is set up leaves the other ones alone. -/
theorem initBlock_ok (hsv : sv.Honest) {p : Params} {physStart physEnd : List Char}
    (hlt : pageAlign (strtolHex physStart) < pageAlign (strtolHex physEnd))
    (hothers : OthersMapped sv s bi) (hnone : (s.block bi).heapPool = none)
    (hnpools : (s.block bi).npools = (p.pools bi).length) (hfresh : ∀ i, s.pObjs (bi, i) = none)
    (hsane : ∀ t ∈ p.pools bi, ∀ q, readPool t = some q → SanePool q)
    (h : initBlock sv p bi physStart physEnd s = some (.ok t)) :
    ∃ length pools, length = pageAlign (strtolHex physEnd) - pageAlign (strtolHex physStart) ∧
      (p.pools bi).map readPool = pools.map some ∧ BlockAt sv t bi length pools ∧
      OtherBlocks s t bi (t.block bi).virtp length ∧
      (t.block bi).start = pageAlign (strtolHex physStart) ∧
      (length - poolBytes pools = 0 ∨ pools.length ≠ maxPools) := by
  obtain ⟨hpos, hregion, hremap⟩ := services_of_initBlock h
  rw [initBlock_eq rfl rfl hpos hregion hremap] at h
  obtain ⟨hlen, hm, hal⟩ := mapBlock_mapped hsv hpos (pageAlign_dvd _) (pageAlign_dvd _) hlt
    (pageAlign_lt _) rfl hregion hremap hothers
  have hself := mapBlock_self s bi (pageAlign (strtolHex physStart)) (pageAlign (strtolHex physEnd))
    (sv.ioremap bi (pageAlign (strtolHex physStart))
      (subWord 32 (pageAlign (strtolHex physEnd)) (pageAlign (strtolHex physStart))))
    (subWord 32 (pageAlign (strtolHex physEnd)) (pageAlign (strtolHex physStart)))
  obtain ⟨pools, hread, hat, ho, hstart, hmax⟩ := carveBlock_ok hm hal (Function.update_self _ _ _)
    (by rw [hself]; exact hnone) (by rw [hself]; exact hnpools) hfresh hsane h
  rw [hself] at ho hstart
  have hvirtp : (t.block bi).virtp = sv.ioremap bi (pageAlign (strtolHex physStart))
      (subWord 32 (pageAlign (strtolHex physEnd)) (pageAlign (strtolHex physStart))) := by
    rw [hat.mapped.virtp_eq, hstart]
  refine ⟨_, pools, hlen, hread, hat, ?_, hstart, hmax⟩
  rw [hvirtp]
  have hstop := pageAlign_lt (strtolHex physEnd)
  refine ⟨fun bj hne => ?_, ho.pObjs, ho.heapHead, fun x hx => ?_⟩
  · exact (ho.block bj hne).trans (Function.update_of_ne hne _ _)
  · exact (ho.mem x hx).trans (clearPages_of_notMem s.mem (by omega) (by omega) hx)

end InitState

/-! ## The module parameters -/

/-- No pool has a negative number of buffers or buffers of no bytes, and blocks end behind their
start. -/
structure Params.Sane (p : Params) : Prop where
  pools : ∀ bi, ∀ t ∈ p.pools bi, ∀ q, readPool t = some q → SanePool q
  range : ∀ bi physStart physEnd, p.physStart bi = some physStart → p.physEnd bi = some physEnd →
    pageAlign (strtolHex physStart) < pageAlign (strtolHex physEnd)

def Params.start (p : Params) (bi : BlockId) : ℕ :=
  pageAlign (strtolHex ((p.physStart bi).getD []))

def Params.stop (p : Params) (bi : BlockId) : ℕ :=
  pageAlign (strtolHex ((p.physEnd bi).getD []))

/-- The blocks that are set up: block 1 needs block 0. -/
def Params.Used (p : Params) (bi : BlockId) : Prop :=
  (p.physStart 0 ≠ none ∧ p.physEnd 0 ≠ none) ∧ p.physStart bi ≠ none ∧ p.physEnd bi ≠ none

instance (p : Params) (bi : BlockId) : Decidable (p.Used bi) := by
  unfold Params.Used
  infer_instance

/-- What `cmem_init` does to a block: it holds the pools that the parameters name and the heap, or
it is left as it was. -/
def BlockDone (sv : Services) (p : Params) (s : InitState) (bi : BlockId) : Prop :=
  (p.Used bi ∧ ∃ pools, (p.pools bi).map readPool = pools.map some ∧
    BlockAt sv s bi (p.stop bi - p.start bi) pools ∧ (s.block bi).start = p.start bi ∧
    (p.stop bi - p.start bi - poolBytes pools = 0 ∨ pools.length ≠ maxPools)) ∨
  ¬ p.Used bi ∧ s.block bi = ⟨0, 0, 0, 0, 0, (p.pools bi).length, none, 0, 0⟩ ∧
    ∀ i, s.pObjs (bi, i) = none

namespace InitState
variable {sv : Services} {s t : InitState} {p : Params}

theorem initBlocks_ok (hsv : sv.Honest) (hp : p.Sane) (hblock : s.block = (blank sv p).block)
    (hpObjs : s.pObjs = fun _ => none) (h : initBlocks sv p s = some (.ok t)) (bi : BlockId) :
    BlockDone sv p t bi := by
  have hblank : ∀ bj, s.block bj = ⟨0, 0, 0, 0, 0, (p.pools bj).length, none, 0, 0⟩ := fun bj =>
    congrFun hblock bj
  have hunused : ∀ bj, ¬ p.Used bj → ∀ u : InitState, u.block bj = s.block bj →
      (∀ i, u.pObjs (bj, i) = s.pObjs (bj, i)) → BlockDone sv p u bj := by
    intro bj hno u hb hpool
    refine .inr ⟨hno, hb.trans (hblank bj), fun i => ?_⟩
    rw [hpool i, hpObjs]
  rw [initBlocks] at h
  split at h
  · rename_i start₀ stop₀ hstart₀ hstop₀
    obtain ⟨r, hr, h⟩ := Option.bind_eq_some_iff.mp h
    have hgiven : p.physStart 0 ≠ none ∧ p.physEnd 0 ≠ none := by simp [hstart₀, hstop₀]
    have hused : p.Used 0 := ⟨hgiven, hgiven⟩
    cases r with
    | error e => cases h
    | ok u =>
      have hne : (0 : BlockId) ≠ 1 := by decide
      have hlen₀ : p.stop 0 - p.start 0 =
          pageAlign (strtolHex stop₀) - pageAlign (strtolHex start₀) := by
        rw [Params.stop, Params.start, hstart₀, hstop₀]
        rfl
      obtain ⟨length, pools, hlen, hread, hat, ho, hs₀, hmax⟩ := initBlock_ok hsv
        (hp.range 0 start₀ stop₀ hstart₀ hstop₀) (fun bj _ => .inl (by rw [hblank]))
        (by rw [hblank]) (by rw [hblank]) (fun i => by rw [hpObjs]) (hp.pools 0) hr
      dsimp only at h
      split at h
      · rename_i start₁ stop₁ hstart₁ hstop₁
        have hused₁ : p.Used 1 := ⟨hgiven, by simp [hstart₁, hstop₁]⟩
        have hblank₁ : u.block 1 = s.block 1 := ho.block 1 hne.symm
        have hlen₁ : p.stop 1 - p.start 1 =
            pageAlign (strtolHex stop₁) - pageAlign (strtolHex start₁) := by
          rw [Params.stop, Params.start, hstart₁, hstop₁]
          rfl
        obtain ⟨length₁, pools₁, hl₁, hread₁, hat₁, ho₁, hs₁, hmax₁⟩ := initBlock_ok hsv
          (hp.range 1 start₁ stop₁ hstart₁ hstop₁)
          (fun bj hne => .inr ⟨length, by
            exact (blockId_cases bj).resolve_right hne ▸ hat.mapped⟩)
          (by rw [hblank₁, hblank]) (by rw [hblank₁, hblank])
          (fun i => by rw [ho.pObjs (1, i) hne.symm, hpObjs]) (hp.pools 1) h
        rcases blockId_cases bi with rfl | rfl
        · left
          rw [← hlen₀] at hlen
          subst hlen
          have hstart : (t.block 0).start = p.start 0 := by
            rw [ho₁.block 0 hne, hs₀, Params.start, hstart₀]
            rfl
          refine ⟨hused, pools, hread, hat.other hne ho₁ ?_, hstart, hmax⟩
          -- Block 0 has a mapping of its own.
          have hmap₀ : Mapped sv t.block 0 (p.stop 0 - p.start 0) := by
            have heq := ho₁.block 0 hne
            exact hat.mapped.congr (by rw [heq]) (by rw [heq]) (by rw [heq]) (by rw [heq])
              (by rw [heq])
          have hal := hmap₀.alone hsv fun bj hne => .inr ⟨length₁, by
            exact (blockId_cases bj).resolve_left hne ▸ hat₁.mapped⟩
          have hdisj := hal 1 hne.symm
          rw [hat₁.mapped.virtend_eq, hmap₀.virtend_eq, ho₁.block 0 hne] at hdisj
          have hrange := hp.range 0 start₀ stop₀ hstart₀ hstop₀
          exact Set.disjoint_left.mp hdisj ⟨le_rfl, by omega⟩
        · rw [← hlen₁] at hl₁
          subst hl₁
          refine .inl ⟨hused₁, pools₁, hread₁, hat₁, ?_, hmax₁⟩
          rw [hs₁, Params.start, hstart₁]
          rfl
      · rename_i hno
        cases h
        rcases blockId_cases bi with rfl | rfl
        · rw [← hlen₀] at hlen
          subst hlen
          refine .inl ⟨hused, pools, hread, hat, ?_, hmax⟩
          rw [hs₀, Params.start, hstart₀]
          rfl
        · refine hunused 1 (fun ⟨_, hs, he⟩ => ?_) t (ho.block 1 hne.symm)
            fun i => ho.pObjs (1, i) hne.symm
          obtain ⟨a, ha⟩ := Option.ne_none_iff_exists'.mp hs
          obtain ⟨b, hb⟩ := Option.ne_none_iff_exists'.mp he
          exact hno a b ha hb
  · rename_i hno
    split at h
    · cases h
      refine hunused bi (fun ⟨⟨hs, he⟩, _⟩ => ?_) _ rfl fun _ => rfl
      obtain ⟨a, ha⟩ := Option.ne_none_iff_exists'.mp hs
      obtain ⟨b, hb⟩ := Option.ne_none_iff_exists'.mp he
      exact hno a b ha hb
    · cases h

end InitState
/-! ## The buffers of a block -/

def HeapBlock.piece (b : HeapBlock) : ℕ × ℕ := (b.addr, b.size)

theorem HeapBlock.points_of_paged {b : HeapBlock} (hpos : 0 < b.size) (hpaged : pageSize ∣ b.size) :
    b.span.points = Set.Ico b.addr (b.addr + b.size) := by
  rw [Extent.points, HeapBlock.span_hi hpos, roundUp_of_dvd pageSize_pos hpaged]
  rfl

namespace InitState

def buffers (s : InitState) (id : PoolId) : List HeapBlock :=
  (s.loaded.pObjs id).freelist.map PoolBuffer.phys

end InitState

section
variable {sv : Services} {s : InitState} {bi : BlockId} {length top i : ℕ} {pools : List (ℕ × ℕ)}

theorem PoolAt.pieces {id : PoolId} {num reqsize : ℕ} (h : PoolAt s id top num reqsize) :
    (s.buffers id).map HeapBlock.piece = carve top (List.replicate num (pageAlign reqsize)) := by
  obtain ⟨free, hpool, hplace, -⟩ := h
  have hfree : (s.loaded.pObjs id).freelist = free := by
    change ((s.pObjs id).getD _).freelist = free
    rw [hpool]
    rfl
  rw [InitState.buffers, List.map_map, hfree, ← hplace]
  rfl

def poolSizes (pools : List (ℕ × ℕ)) : List ℕ :=
  pools.flatMap fun p => List.replicate p.1 (pageAlign p.2)

theorem sum_poolSizes (pools : List (ℕ × ℕ)) : (poolSizes pools).sum = poolBytes pools := by
  induction pools with
  | nil => rfl
  | cons p pools ih =>
    rw [poolSizes, List.flatMap_cons, List.sum_append, List.sum_replicate, poolBytes_cons, ← ih]
    rfl

theorem PoolsAt.pieces (h : PoolsAt s bi top i pools) :
    ((List.range pools.length).flatMap fun j => s.buffers (bi, i + j)).map HeapBlock.piece =
      carve top (poolSizes pools) := by
  induction pools generalizing top i with
  | nil => rfl
  | cons p pools ih =>
    have hrest := ih h.2
    rw [List.length_cons, List.range_succ_eq_map, List.flatMap_cons, List.map_append,
      List.flatMap_map, poolSizes, List.flatMap_cons, carve_append, List.sum_replicate, smul_eq_mul]
    have hshift : (fun j => s.buffers (bi, i + (j + 1))) = fun j => s.buffers (bi, i + 1 + j) := by
      funext j
      rw [Nat.add_assoc, Nat.add_comm 1 j]
    rw [Nat.add_zero, h.1.pieces, hshift, hrest]
    rfl

theorem PoolsAt.append {more : List (ℕ × ℕ)} (h : PoolsAt s bi top i pools)
    (hmore : PoolsAt s bi (top - poolBytes pools) (i + pools.length) more) :
    PoolsAt s bi top i (pools ++ more) := by
  induction pools generalizing top i with
  | nil => exact hmore
  | cons p pools ih =>
    refine ⟨h.1, ih h.2 ?_⟩
    rw [poolBytes_cons, List.length_cons] at hmore
    rwa [Nat.sub_sub, Nat.add_assoc, Nat.add_comm 1]

/-- The pools of a block with the heap as the last one make up the block. -/
theorem BlockAt.all (h : BlockAt sv s bi length pools) (useHeap : Bool) :
    ∃ all, (s.config useHeap).numPools bi = all.length ∧
      PoolsAt s bi ((s.block bi).start + length) 0 all ∧ poolBytes all = length ∧
      ∀ p ∈ all, 0 < pageAlign p.2 := by
  have hfits := h.fits
  have hnum : (s.config useHeap).numPools bi = if (s.block bi).heapPool = none then
      (s.block bi).npools else (s.block bi).npools + 1 := rfl
  rcases Nat.eq_zero_or_pos (length - poolBytes pools) with hzero | hpos
  · refine ⟨pools, ?_, h.stacked, by omega, fun p hp => (h.sane p hp).size⟩
    rw [hnum, if_pos (h.heap.none hzero), h.npools]
  · have hlt := h.mapped.stop_lt
    have halign : pageAlign (length - poolBytes pools) = length - poolBytes pools :=
      pageAlign_of_dvd (Nat.dvd_sub h.mapped.length_paged (poolBytes_dvd pools)) (by omega)
    have hbuffer := h.heap.buffer hpos
    rw [h.npools] at hbuffer
    refine ⟨pools ++ [(1, length - poolBytes pools)], ?_, h.stacked.append ⟨?_, trivial⟩, ?_, ?_⟩
    · rw [hnum, h.heap.pool hpos, if_neg (Option.some_ne_none _), h.npools, List.length_append]
      rfl
    · rw [Nat.zero_add, Nat.add_sub_assoc hfits]
      exact hbuffer
    · have hlast : poolBytes [(1, length - poolBytes pools)] = length - poolBytes pools := by
        rw [poolBytes_cons, Nat.one_mul, halign]
        rfl
      rw [poolBytes, List.map_append, List.sum_append]
      change poolBytes pools + poolBytes [(1, length - poolBytes pools)] = length
      omega
    · intro p hp
      rcases List.mem_append.mp hp with hp | hp
      · exact (h.sane p hp).size
      · rw [List.mem_singleton.mp hp, halign]
        exact hpos

/-- The buffers of a block, one below the other. -/
theorem BlockAt.pieces (h : BlockAt sv s bi length pools) (useHeap : Bool) :
    ∃ sizes, sizes.sum = length ∧ (∀ z ∈ sizes, 0 < z ∧ pageSize ∣ z) ∧
      ((List.range ((s.config useHeap).numPools bi)).flatMap fun i => s.buffers (bi, i)).map
        HeapBlock.piece = carve ((s.block bi).start + length) sizes := by
  obtain ⟨all, hnum, hat, hbytes, hsizes⟩ := h.all useHeap
  refine ⟨poolSizes all, (sum_poolSizes all).trans hbytes, fun z hz => ?_, ?_⟩
  · obtain ⟨p, hp, hz⟩ := List.mem_flatMap.mp hz
    rw [(List.mem_replicate.mp hz).2]
    exact ⟨hsizes p hp, InitState.pageAlign_dvd p.2⟩
  · rw [hnum, ← hat.pieces]
    simp

/-- A buffer lies in its block and has whole pages. -/
theorem BlockAt.mem_buffers (h : BlockAt sv s bi length pools) (useHeap : Bool) {j : ℕ}
    (hj : j < (s.config useHeap).numPools bi) {b : HeapBlock} (hb : b ∈ s.buffers (bi, j)) :
    (s.block bi).start ≤ b.addr ∧ b.addr + b.size ≤ (s.block bi).start + length ∧ 0 < b.size ∧
      pageSize ∣ b.addr ∧ pageSize ∣ b.size := by
  obtain ⟨sizes, hsum, hsizes, hpieces⟩ := h.pieces useHeap
  have hmem : b.piece ∈ carve ((s.block bi).start + length) sizes := by
    rw [← hpieces]
    exact List.mem_map_of_mem (List.mem_flatMap.mpr ⟨j, List.mem_range.mpr hj, hb⟩)
  obtain ⟨hlo, hhi⟩ := mem_carve (by omega) hmem
  have hz := List.mem_map_of_mem (f := Prod.snd) hmem
  rw [map_snd_carve] at hz
  obtain ⟨hpos, hpaged⟩ := hsizes _ hz
  have hlo' : (s.block bi).start ≤ b.addr := by
    refine le_trans ?_ hlo
    omega
  have htop : pageSize ∣ (s.block bi).start + length :=
    dvd_add h.mapped.start_paged h.mapped.length_paged
  have haddr : pageSize ∣ b.addr := dvd_of_mem_carve htop (fun z hz => (hsizes z hz).2) hmem
  exact ⟨hlo', hhi, hpos, haddr, hpaged⟩

theorem BlockAt.points_eq (h : BlockAt sv s bi length pools) (useHeap : Bool) {j : ℕ}
    (hj : j < (s.config useHeap).numPools bi) {b : HeapBlock} (hb : b ∈ s.buffers (bi, j)) :
    b.span.points = Set.Ico b.addr (b.addr + b.size) := by
  obtain ⟨-, -, hpos, -, hpaged⟩ := h.mem_buffers useHeap hj hb
  exact b.points_of_paged hpos hpaged

theorem BlockAt.pairwise (h : BlockAt sv s bi length pools) (useHeap : Bool) :
    ((List.range ((s.config useHeap).numPools bi)).flatMap fun i => s.buffers (bi, i)).Pairwise
      fun b c => Disjoint b.span.points c.span.points := by
  obtain ⟨sizes, hsum, -, hpieces⟩ := h.pieces useHeap
  have hsizes : sizes.sum ≤ (s.block bi).start + length := by omega
  have hcarve := pairwise_carve hsizes
  rw [← hpieces, List.pairwise_map] at hcarve
  refine hcarve.imp_of_mem fun {b c} hb hc hbelow => ?_
  obtain ⟨j, hj, hb⟩ := List.mem_flatMap.mp hb
  obtain ⟨k, hk, hc⟩ := List.mem_flatMap.mp hc
  rw [h.points_eq useHeap (List.mem_range.mp hj) hb, h.points_eq useHeap (List.mem_range.mp hk) hc]
  have hle : c.addr + c.size ≤ b.addr := hbelow
  exact Set.disjoint_left.mpr fun x hxb hxc => by
    have hlo := hxb.1
    have hhi := hxc.2
    omega

/-- No byte of a block is lost. -/
theorem BlockAt.exists_buffer (h : BlockAt sv s bi length pools) (useHeap : Bool) {x : ℕ}
    (hlo : (s.block bi).start ≤ x) (hhi : x < (s.block bi).stop) :
    ∃ j < (s.config useHeap).numPools bi, ∃ b ∈ s.buffers (bi, j), x ∈ b.span.points := by
  obtain ⟨sizes, hsum, -, hpieces⟩ := h.pieces useHeap
  rw [h.mapped.stop_eq] at hhi
  have hsizes : sizes.sum ≤ (s.block bi).start + length := by omega
  obtain ⟨q, hq, hin⟩ := exists_mem_carve hsizes (x := x) (by omega) hhi
  rw [← hpieces] at hq
  obtain ⟨b, hb, rfl⟩ := List.mem_map.mp hq
  obtain ⟨j, hj, hb⟩ := List.mem_flatMap.mp hb
  refine ⟨j, List.mem_range.mp hj, b, hb, ?_⟩
  rw [h.points_eq useHeap (List.mem_range.mp hj) hb]
  exact hin

end

/-! ## The layout -/

section
variable {sv : Services} {s : InitState} {bi : BlockId} {length : ℕ} {pools : List (ℕ × ℕ)}

theorem BlockAt.heap_pos (h : BlockAt sv s bi length pools) (hheap : (s.block bi).heapPool ≠ none) :
    0 < length - poolBytes pools :=
  Nat.pos_of_ne_zero fun hzero => hheap (h.heap.none hzero)

theorem BlockAt.heap_eq (h : BlockAt sv s bi length pools) {hp : ℕ}
    (hpool : (s.block bi).heapPool = some hp) : hp = (s.block bi).npools := by
  have hpos := h.heap_pos (hpool ▸ Option.some_ne_none hp)
  exact Option.some.inj (hpool.symm.trans (h.heap.pool hpos))

theorem BlockAt.heap_buffer (h : BlockAt sv s bi length pools) {hp : ℕ}
    (hpool : (s.block bi).heapPool = some hp) : s.buffers (bi, hp) =
      [⟨(s.block bi).start + ((s.block bi).heapVirtp - (s.block bi).virtp),
        (s.block bi).heapSize⟩] := by
  have hpos := h.heap_pos (hpool ▸ Option.some_ne_none hp)
  have hlt := h.mapped.stop_lt
  have halign : pageAlign (length - poolBytes pools) = length - poolBytes pools :=
    pageAlign_of_dvd (Nat.dvd_sub h.mapped.length_paged (poolBytes_dvd pools)) (by omega)
  have hpieces := (h.heap.buffer hpos).pieces
  rw [h.heap_eq hpool, h.heap.size, h.heap.virtp hpos, Nat.sub_self, Nat.add_zero]
  have hinj : Function.Injective HeapBlock.piece := fun b c heq => by
    obtain ⟨haddr, hsize⟩ := Prod.mk.inj heq
    cases b
    cases c
    simp_all
  refine (List.map_injective_iff.mpr hinj) (hpieces.trans ?_)
  simp [halign, HeapBlock.piece]

theorem BlockAt.heap_inside (h : BlockAt sv s bi length pools)
    (hheap : (s.block bi).heapPool ≠ none) :
    0 < (s.block bi).virtp ∧ (s.block bi).virtp ≤ (s.block bi).heapVirtp ∧
      0 < (s.block bi).heapSize ∧
      (s.block bi).heapVirtp + (s.block bi).heapSize ≤ (s.block bi).virtend := by
  have hpos := h.heap_pos hheap
  rw [h.heap.virtp hpos, h.heap.size, h.mapped.virtend_eq]
  exact ⟨h.mapped.virtp_pos, le_rfl, hpos, by omega⟩

theorem BlockAt.heap_paged (h : BlockAt sv s bi length pools)
    (hheap : (s.block bi).heapPool ≠ none) :
    pageSize ∣ (s.block bi).heapVirtp ∧ pageSize ∣ (s.block bi).heapSize := by
  rw [h.heap.virtp (h.heap_pos hheap), h.heap.size]
  exact ⟨h.mapped.virtp_paged, Nat.dvd_sub h.mapped.length_paged (poolBytes_dvd pools)⟩

end

/-- Each block is set up, or it has neither pools nor memory. -/
def Ready (sv : Services) (s : InitState) : Prop :=
  ∀ bi, (∃ length pools, BlockAt sv s bi length pools) ∨
    s.block bi = ⟨0, 0, 0, 0, 0, 0, none, 0, 0⟩ ∧ ∀ i, s.pObjs (bi, i) = none

namespace InitState
variable {sv : Services} {s : InitState}

theorem walk_flatMap (s : InitState) (useHeap : Bool) :
    (s.config useHeap).walk.flatMap s.buffers = (List.finRange 2).flatMap fun bi =>
      (List.range ((s.config useHeap).numPools bi)).flatMap fun i => s.buffers (bi, i) := by
  rw [CmemConfig.walk, List.flatMap_assoc]
  simp [List.flatMap_map]

theorem mem_walk {id : PoolId} {useHeap : Bool} (h : id ∈ (s.config useHeap).walk) :
    id.2 < (s.config useHeap).numPools id.1 := by
  obtain ⟨bi, -, hid⟩ := List.mem_flatMap.mp h
  obtain ⟨i, hi, rfl⟩ := List.mem_map.mp hid
  exact List.mem_range.mp hi

theorem buffers_of_none {id : PoolId} (h : s.pObjs id = none) : s.buffers id = [] := by
  simp [buffers, loaded, h]

theorem numPools_of_blank {bi : BlockId} {useHeap : Bool}
    (h : s.block bi = ⟨0, 0, 0, 0, 0, 0, none, 0, 0⟩) : (s.config useHeap).numPools bi = 0 := by
  change (if (s.block bi).heapPool = none then (s.block bi).npools
    else (s.block bi).npools + 1) = 0
  rw [h]
  rfl

theorem alone_of_ready (hsv : sv.Honest) (hs : Ready sv s) {bi bj : BlockId} (hne : bi ≠ bj) :
    Disjoint (Set.Ico (s.block bi).virtp (s.block bi).virtend)
      (Set.Ico (s.block bj).virtp (s.block bj).virtend) := by
  rcases hs bi with ⟨length, pools, h⟩ | ⟨h, -⟩
  · refine h.mapped.alone hsv (fun bk hk => ?_) bj hne.symm
    rcases hs bk with ⟨length', pools', h'⟩ | ⟨h', -⟩
    · exact .inr ⟨length', h'.mapped⟩
    · exact .inl (by rw [h'])
  · rw [h, Set.Ico_self]
    exact Set.empty_disjoint _

theorem inside_of_ready (hs : Ready sv s) {useHeap : Bool} {id : PoolId}
    (hid : id ∈ (s.config useHeap).walk) {b : HeapBlock} (hb : b ∈ s.buffers id) :
    (s.block id.1).start ≤ b.addr ∧ b.span.hi ≤ (s.block id.1).stop := by
  rcases hs id.1 with ⟨length, pools, h⟩ | ⟨-, h⟩
  · obtain ⟨hlo, hhi, hpos, -, hpaged⟩ := h.mem_buffers useHeap (mem_walk hid) hb
    rw [HeapBlock.span_hi hpos, roundUp_of_dvd pageSize_pos hpaged, h.mapped.stop_eq]
    exact ⟨hlo, hhi⟩
  · rw [buffers_of_none (h id.2)] at hb
    cases hb

theorem apart_of_ready (hsv : sv.Honest) (hs : Ready sv s) (useHeap : Bool) :
    ((s.config useHeap).walk.flatMap s.buffers).Pairwise
      fun b c => Disjoint b.span.points c.span.points := by
  rw [walk_flatMap]
  refine List.pairwise_flatMap.mpr ⟨fun bi _ => ?_, ?_⟩
  · rcases hs bi with ⟨length, pools, h⟩ | ⟨h, -⟩
    · exact h.pairwise useHeap
    · rw [numPools_of_blank h]
      exact List.Pairwise.nil
  · refine (List.nodup_finRange 2).imp fun {bi bj} hne b hb c hc => ?_
    obtain ⟨i, hi, hb⟩ := List.mem_flatMap.mp hb
    obtain ⟨j, hj, hc⟩ := List.mem_flatMap.mp hc
    rcases hs bi with ⟨length, pools, h⟩ | ⟨h, -⟩
    · rcases hs bj with ⟨length', pools', h'⟩ | ⟨h', -⟩
      · -- The regions of two blocks do not overlap.
        have hregions := hsv.regions bi bj _ _ _ _ hne h.mapped.region h'.mapped.region
        obtain ⟨hlo, hhi, -⟩ := h.mem_buffers useHeap (List.mem_range.mp hi) hb
        obtain ⟨hlo', hhi', -⟩ := h'.mem_buffers useHeap (List.mem_range.mp hj) hc
        rw [h.points_eq useHeap (List.mem_range.mp hi) hb,
          h'.points_eq useHeap (List.mem_range.mp hj) hc]
        exact hregions.mono (Set.Ico_subset_Ico hlo hhi) (Set.Ico_subset_Ico hlo' hhi')
      · rw [numPools_of_blank h'] at hj
        cases hj
    · rw [numPools_of_blank h] at hi
      cases hi

def layout (s : InitState) (useHeap : Bool) (hsv : sv.Honest) (hs : Ready sv s) :
    CmemLayout 32 where
  toCmemConfig := s.config useHeap
  buffers := s.buffers
  heap_pool := fun bi hp hpool => by
    rcases hs bi with ⟨length, pools, h⟩ | ⟨h, -⟩
    · exact h.heap_eq hpool
    · change (s.block bi).heapPool = some hp at hpool
      rw [h] at hpool
      cases hpool
  heap_buffer := fun bi hp hpool => by
    rcases hs bi with ⟨length, pools, h⟩ | ⟨h, -⟩
    · exact h.heap_buffer hpool
    · change (s.block bi).heapPool = some hp at hpool
      rw [h] at hpool
      cases hpool
  heap_inside := fun bi hheap => by
    rcases hs bi with ⟨length, pools, h⟩ | ⟨h, -⟩
    · exact h.heap_inside hheap
    · exact absurd (congrArg CmemBlock.heapPool h) hheap
  heap_paged := fun bi hheap => by
    rcases hs bi with ⟨length, pools, h⟩ | ⟨h, -⟩
    · exact h.heap_paged hheap
    · exact absurd (congrArg CmemBlock.heapPool h) hheap
  virtend_lt := fun bi => by
    change (s.block bi).virtend < _
    rcases hs bi with ⟨length, pools, h⟩ | ⟨h, -⟩
    · exact h.mapped.virtend_eq ▸ h.mapped.virtend_lt
    · rw [h]
      exact Nat.two_pow_pos 32
  virtoff_eq := fun bi => by
    change (s.block bi).virtoff = subWord 32 (s.block bi).virtp (s.block bi).start
    rcases hs bi with ⟨length, pools, h⟩ | ⟨h, -⟩
    · exact h.mapped.virtoff_eq
    · rw [h]
      rfl
  stop_eq := fun bi => by
    change (s.block bi).stop = (s.block bi).start + ((s.block bi).virtend - (s.block bi).virtp)
    rcases hs bi with ⟨length, pools, h⟩ | ⟨h, -⟩
    · rw [h.mapped.virtend_eq, h.mapped.stop_eq, Nat.add_sub_cancel_left]
    · rw [h]
      rfl
  stop_lt := fun bi => by
    change (s.block bi).stop < _
    rcases hs bi with ⟨length, pools, h⟩ | ⟨h, -⟩
    · exact h.mapped.stop_eq ▸ h.mapped.stop_lt
    · rw [h]
      exact Nat.two_pow_pos 32
  virt_apart := fun _ _ hne => alone_of_ready hsv hs hne
  inside := fun _ hid _ hb => inside_of_ready hs hid hb
  apart := apart_of_ready hsv hs useHeap

end InitState
/-! ## The state of the module -/

section
variable {sv : Services} {s : InitState} {bi : BlockId} {length top i : ℕ} {pools : List (ℕ × ℕ)}

theorem PoolsAt.get (h : PoolsAt s bi top i pools) {j : ℕ} (hj : j < pools.length) :
    ∃ top, PoolAt s (bi, i + j) top (pools[j]).1 (pools[j]).2 := by
  induction pools generalizing top i j with
  | nil => exact absurd hj (Nat.not_lt_zero j)
  | cons p pools ih =>
    cases j with
    | zero => exact ⟨top, h.1⟩
    | succ j =>
      obtain ⟨top', hat⟩ := ih h.2 (Nat.lt_of_succ_lt_succ hj)
      rw [Nat.add_assoc, Nat.add_comm 1 j] at hat
      exact ⟨top', hat⟩

/-- The lists of a pool: all its buffers are free and of one size. -/
theorem PoolAt.lists {id : PoolId} {num reqsize : ℕ} (h : PoolAt s id top num reqsize) :
    (s.loaded.pObjs id).busylist = [] ∧ (∀ e ∈ (s.loaded.pObjs id).freelist, e.users = []) ∧
      (s.loaded.pObjs id).numbufs = num ∧ (s.loaded.pObjs id).size = pageAlign reqsize ∧
      (s.buffers id).length = num ∧ ∀ b ∈ s.buffers id, b.size = pageAlign reqsize := by
  have hpieces := h.pieces
  obtain ⟨free, hpool, -, husers⟩ := h
  have hloaded : s.loaded.pObjs id = ⟨free, [], num, pageAlign reqsize, reqsize⟩ := by
    change (s.pObjs id).getD _ = _
    rw [hpool]
    rfl
  rw [hloaded]
  refine ⟨rfl, husers, rfl, rfl, ?_, fun b hb => ?_⟩
  · have hlen := congrArg List.length hpieces
    simpa using hlen
  · have hmem : b.piece.2 ∈ ((s.buffers id).map HeapBlock.piece).map Prod.snd :=
      List.mem_map_of_mem (List.mem_map_of_mem hb)
    rw [hpieces, map_snd_carve] at hmem
    exact (List.mem_replicate.mp hmem).2

theorem BlockAt.poolAt (h : BlockAt sv s bi length pools) (useHeap : Bool) {j : ℕ}
    (hj : j < (s.config useHeap).numPools bi) : ∃ top num size, PoolAt s (bi, j) top num size := by
  obtain ⟨all, hnum, hat, -, -⟩ := h.all useHeap
  obtain ⟨top, hpool⟩ := hat.get (j := j) (hnum ▸ hj)
  rw [Nat.zero_add] at hpool
  exact ⟨top, _, _, hpool⟩

theorem BlockAt.none_of_le (h : BlockAt sv s bi length pools) (useHeap : Bool) {j : ℕ}
    (hj : (s.config useHeap).numPools bi ≤ j) : s.pObjs (bi, j) = none := by
  have hnum : (s.config useHeap).numPools bi = if (s.block bi).heapPool = none then
      (s.block bi).npools else (s.block bi).npools + 1 := rfl
  rcases Nat.eq_zero_or_pos (length - poolBytes pools) with hzero | hpos
  · rw [hnum, if_pos (h.heap.none hzero), h.npools] at hj
    exact h.rest j hj (.inl hzero)
  · rw [hnum, h.heap.pool hpos, if_neg (Option.some_ne_none _), h.npools] at hj
    exact h.rest j (by omega) (.inr (by omega))

end

namespace InitState
variable {sv : Services} {s : InitState}

theorem poolAt_or_none (hs : Ready sv s) (useHeap : Bool) (id : PoolId) :
    (id ∈ (s.config useHeap).walk ∧ ∃ top num size, PoolAt s id top num size) ∨
      id ∉ (s.config useHeap).walk ∧ s.pObjs id = none := by
  have hwalk : id.2 < (s.config useHeap).numPools id.1 → id ∈ (s.config useHeap).walk := fun hlt =>
    List.mem_flatMap.mpr ⟨id.1, List.mem_finRange id.1, List.mem_map.mpr
      ⟨id.2, List.mem_range.mpr hlt, rfl⟩⟩
  rcases hs id.1 with ⟨length, pools, h⟩ | ⟨h, hnone⟩
  · by_cases hlt : id.2 < (s.config useHeap).numPools id.1
    · exact .inl ⟨hwalk hlt, h.poolAt useHeap hlt⟩
    · exact .inr ⟨fun hid => hlt (mem_walk hid), h.none_of_le useHeap (Nat.le_of_not_lt hlt)⟩
  · refine .inr ⟨fun hid => ?_, hnone id.2⟩
    have hlt := mem_walk hid
    rw [numPools_of_blank h] at hlt
    exact Nat.not_lt_zero _ hlt

theorem loaded_of_ready (useHeap : Bool) (hsv : sv.Honest) (hs : Ready sv s) :
    Loaded (layout s useHeap hsv hs) s.loaded where
  numbufs := fun id hid => by
    rcases poolAt_or_none hs useHeap id with ⟨-, top, num, size, h⟩ | ⟨hno, -⟩
    · exact h.lists.2.2.1.trans h.lists.2.2.2.2.1.symm
    · exact absurd hid hno
  sizes := fun id hid b hb => by
    rcases poolAt_or_none hs useHeap id with ⟨-, top, num, size, h⟩ | ⟨hno, -⟩
    · exact (h.lists.2.2.2.2.2 b hb).trans h.lists.2.2.2.1.symm
    · exact absurd hid hno
  busy := fun id => by
    rcases poolAt_or_none hs useHeap id with ⟨-, top, num, size, h⟩ | ⟨-, hnone⟩
    · exact h.lists.1
    · simp [loaded, hnone]
  free := fun _ => rfl
  users := fun id e he => by
    rcases poolAt_or_none hs useHeap id with ⟨-, top, num, size, h⟩ | ⟨-, hnone⟩
    · exact h.lists.2.1 e he
    · simp [loaded, hnone] at he
  heaps := fun bi hheap => by
    change (s.heapHead bi).next = (s.block bi).heapVirtp ∧
      s.mem (s.block bi).heapVirtp = ⟨0, (s.block bi).heapSize⟩
    rcases hs bi with ⟨length, pools, h⟩ | ⟨h, -⟩
    · have hpos := h.heap_pos hheap
      rw [h.heap.virtp hpos, h.heap.size]
      exact ⟨h.heap.head hpos, h.heap.header hpos⟩
    · exact absurd (congrArg CmemBlock.heapPool h) hheap

end InitState

/-! ## Loading -/

/-- Memory that is there for block 0 only, with the place where it is mapped. -/
def oneRegion (base size virtp : ℕ) : Services where
  registerChrdev := true
  requestMemRegion := fun bi start length => decide (bi = 0 ∧ start = base ∧ length = size)
  ioremap := fun bi start length => if bi = 0 ∧ start = base ∧ length = size then virtp else 0
  kmalloc := fun _ _ => some ⟨0, 0, 0#32, 0, 0, []⟩
  memory := fun _ => ⟨0, 0⟩
  elsewhere := fun _ => noPhys 32

theorem oneRegion_honest (base : ℕ) {size virtp : ℕ} (hpaged : pageSize ∣ virtp)
    (hlt : virtp + size < 2 ^ 32) : (oneRegion base size virtp).Honest where
  regions := fun bi bj start start' length length' hne h h' => by
    have hi : bi = 0 := (of_decide_eq_true h).1
    have hj : bj = 0 := (of_decide_eq_true h').1
    exact absurd (hi.trans hj.symm) hne
  mapping := fun bi start length _ h => by
    rw [oneRegion] at h ⊢
    dsimp only at h ⊢
    split_ifs at h ⊢ with hlen
    · exact ⟨hpaged, hlen.2.2 ▸ hlt⟩
    · exact absurd rfl h
  mappings := fun bi bj start start' length length' hne h h' => by
    rw [oneRegion] at h h'
    dsimp only at h h'
    split_ifs at h with hi
    · split_ifs at h' with hj
      · exact absurd (hi.1.trans hj.1.symm) hne
      · exact absurd rfl h'
    · exact absurd rfl h

def threePages : Services := oneRegion 0x80000000 12288 1048576

theorem threePages_honest : threePages.Honest :=
  oneRegion_honest 0x80000000 ⟨256, rfl⟩ (by decide)

/-- `phys_start=80000000 phys_end=80003000 pools=1x4096`. -/
def onePage : Params where
  physStart := fun bi => if bi = 0 then some ['8', '0', '0', '0', '0', '0', '0', '0'] else none
  physEnd := fun bi => if bi = 0 then some ['8', '0', '0', '0', '3', '0', '0', '0'] else none
  pools := fun bi => if bi = 0 then [['1', 'x', '4', '0', '9', '6']] else []
  useHeapIfPoolUnavailable := true

theorem onePage_sane : onePage.Sane where
  pools := Fin.forall_fin_two.mpr ⟨fun t ht q hq => by
    cases List.mem_singleton.mp ht
    cases hq
    exact ⟨by decide, by decide⟩, fun t ht => by cases ht⟩
  range := Fin.forall_fin_two.mpr ⟨fun a b ha hb => by
    cases ha
    cases hb
    decide, fun a b ha => by cases ha⟩

theorem onePage_used : ∀ bi, onePage.pools bi ≠ [] → onePage.Used bi :=
  Fin.forall_fin_two.mpr ⟨fun _ => by decide, fun h => absurd rfl h⟩

namespace InitState
variable {sv : Services} {s : InitState}

theorem done_of_init {p : Params} (hsv : sv.Honest) (hp : p.Sane)
    (h : cmemInit sv p = some (.ok s)) (bi : BlockId) : BlockDone sv p s bi := by
  rw [cmemInit] at h
  split at h
  · cases h
  · split at h
    · cases h
    · obtain ⟨r, hr, hmap⟩ := Option.map_eq_some_iff.mp h
      cases r with
      | error e => cases hmap
      | ok t =>
        cases hmap
        exact initBlocks_ok (s := { blank sv p with chrdev := true }) hsv hp rfl rfl hr bi

theorem ready_of_init {p : Params} (hsv : sv.Honest) (hp : p.Sane)
    (hpools : ∀ bi, p.pools bi ≠ [] → p.Used bi) (h : cmemInit sv p = some (.ok s)) :
    Ready sv s := by
  intro bi
  rcases done_of_init hsv hp h bi with ⟨-, pools, -, hat, -⟩ | ⟨hno, hblock, hnone⟩
  · exact .inl ⟨_, pools, hat⟩
  · have hnil : p.pools bi = [] := by
      by_contra hne
      exact hno (hpools bi hne)
    rw [hnil] at hblock
    exact .inr ⟨hblock, hnone⟩

/-- Where pools are only given for blocks that are set up, loading the module leaves it as its
file operations need it, and the buffers are whole pages that make up the blocks. -/
theorem init_loads {p : Params} (hsv : sv.Honest) (hp : p.Sane)
    (hpools : ∀ bi, p.pools bi ≠ [] → p.Used bi) (h : cmemInit sv p = some (.ok s)) :
    ∃ L : CmemLayout 32, L.toCmemConfig = s.config p.useHeapIfPoolUnavailable ∧
      Loaded L s.loaded ∧
      (∀ id ∈ L.walk, ∀ b ∈ L.buffers id, pageSize ∣ b.addr ∧ pageSize ∣ b.size) ∧
      ∀ bi x, (s.block bi).start ≤ x → x < (s.block bi).stop →
        ∃ id ∈ L.walk, id.1 = bi ∧ ∃ b ∈ L.buffers id, x ∈ b.span.points := by
  have hs := ready_of_init hsv hp hpools h
  refine ⟨layout s p.useHeapIfPoolUnavailable hsv hs, rfl, loaded_of_ready _ hsv hs, ?_, ?_⟩
  · intro id hid b hb
    have hlt : id.2 < (s.config p.useHeapIfPoolUnavailable).numPools id.1 := mem_walk hid
    rcases hs id.1 with ⟨length, pools, hat⟩ | ⟨hblank, -⟩
    · obtain ⟨-, -, -, haddr, hsize⟩ := hat.mem_buffers _ hlt hb
      exact ⟨haddr, hsize⟩
    · rw [numPools_of_blank hblank] at hlt
      exact absurd hlt (Nat.not_lt_zero _)
  intro bi x hlo hhi
  rcases hs bi with ⟨length, pools, hat⟩ | ⟨hblank, -⟩
  · obtain ⟨j, hj, b, hb, hin⟩ := hat.exists_buffer p.useHeapIfPoolUnavailable hlo hhi
    refine ⟨(bi, j), ?_, rfl, b, hb, hin⟩
    exact List.mem_flatMap.mpr ⟨bi, List.mem_finRange bi, List.mem_map.mpr
      ⟨j, List.mem_range.mpr hj, rfl⟩⟩
  · rw [hblank] at hhi
    exact absurd hhi (Nat.not_lt_zero x)

theorem loaded_onePage : ∃ s, cmemInit threePages onePage = some (.ok s) := by
  have hok : (cmemInit threePages onePage).map Except.isOk = some true := rfl
  obtain ⟨r, hr, hrok⟩ := Option.map_eq_some_iff.mp hok
  cases r with
  | error e => cases hrok
  | ok s => exact ⟨s, hr⟩

theorem init_loads_one : ∃ s, cmemInit threePages onePage = some (.ok s) ∧
    ∃ L : CmemLayout 32, L.toCmemConfig = s.config onePage.useHeapIfPoolUnavailable ∧
      Loaded L s.loaded ∧
      (∀ id ∈ L.walk, ∀ b ∈ L.buffers id, pageSize ∣ b.addr ∧ pageSize ∣ b.size) ∧
      ∀ bi x, (s.block bi).start ≤ x → x < (s.block bi).stop →
        ∃ id ∈ L.walk, id.1 = bi ∧ ∃ b ∈ L.buffers id, x ∈ b.span.points := by
  obtain ⟨s, hs⟩ := loaded_onePage
  exact ⟨s, hs, init_loads threePages_honest onePage_sane onePage_used hs⟩

/-- The lists over which the file operations walk are initialised exactly if no pools are given for
a block that is not set up. -/
theorem lists_initialised_iff {p : Params} (hsv : sv.Honest) (hp : p.Sane)
    (h : cmemInit sv p = some (.ok s)) (useHeap : Bool) :
    (∀ id ∈ (s.config useHeap).walk, s.pObjs id ≠ none) ↔ ∀ bi, p.pools bi ≠ [] → p.Used bi := by
  constructor
  · intro hlists bi hne
    by_contra hno
    rcases done_of_init hsv hp h bi with ⟨hused, -⟩ | ⟨-, hblock, hnone⟩
    · exact hno hused
    · refine hlists (bi, 0) ?_ (hnone 0)
      refine List.mem_flatMap.mpr ⟨bi, List.mem_finRange bi, List.mem_map.mpr
        ⟨0, List.mem_range.mpr ?_, rfl⟩⟩
      change 0 < if (s.block bi).heapPool = none then (s.block bi).npools
        else (s.block bi).npools + 1
      rw [hblock]
      exact List.length_pos_iff.mpr hne
  · intro hpools id hid hnone
    rcases poolAt_or_none (ready_of_init hsv hp hpools h) useHeap id with
      ⟨-, top, num, size, free, hpool, -⟩ | ⟨hno, -⟩
    · rw [hnone] at hpool
      cases hpool
    · exact hno hid

theorem lists_initialised_one : ∃ s, cmemInit threePages onePage = some (.ok s) ∧
    ((∀ id ∈ (s.config true).walk, s.pObjs id ≠ none) ↔
      ∀ bi, onePage.pools bi ≠ [] → onePage.Used bi) := by
  obtain ⟨s, hs⟩ := loaded_onePage
  exact ⟨s, hs, lists_initialised_iff threePages_honest onePage_sane hs true⟩

end InitState
end BifrostModule.Cmem
