import BifrostModule.Cmem.HeapSpec

/-! # Runs of the heap

Over any sequence of allocations and frees, and whatever the users write into the blocks
that they hold, the free list and the blocks make up the heap and nothing overlaps.
-/
namespace BifrostModule.Cmem
open Foundation

/-- The memory of a heap: whole pages, neither at address 0 nor at the end of the words. -/
structure HeapRegion (w : ℕ) extends Extent ℕ where
  lo_pos : 0 < lo
  lo_paged : pageSize ∣ lo
  hi_paged : pageSize ∣ hi
  in_word : hi < 2 ^ w

/-- One step more than the heap has pages, which no search of its free list needs. -/
def HeapRegion.fuel {w : ℕ} (region : HeapRegion w) : ℕ := (region.hi - region.lo) / pageSize + 1

structure HeapBlock where
  addr : ℕ
  size : ℕ
  deriving DecidableEq

def HeapBlock.span (b : HeapBlock) : Extent ℕ :=
  ⟨b.addr, b.addr + ((b.size - 1) / pageSize + 1) * pageSize, by
    have hpos := Nat.mul_pos (Nat.succ_pos ((b.size - 1) / pageSize)) pageSize_pos
    exact Nat.lt_add_of_pos_right hpos⟩

@[simp] theorem HeapBlock.span_lo (b : HeapBlock) : b.span.lo = b.addr := rfl

theorem HeapBlock.span_hi {b : HeapBlock} (h : 0 < b.size) :
    b.span.hi = b.addr + roundUp pageSize b.size := by
  have hsum : b.size + (pageSize - 1) = b.size - 1 + pageSize := by
    have hpage := pageSize_pos
    omega
  rw [roundUp, hsum, Nat.add_div_right _ pageSize_pos]
  rfl

/-- What holds of a heap: memory holds the free list, and the free list with the blocks makes up
the region. -/
structure Tracks (w : ℕ) (region : HeapRegion w) (h : HeapMem) (free : List (Extent ℕ))
    (live : List HeapBlock) : Prop where
  holds : Holds h free
  tiled : Tiled region.toExtent free (live.map HeapBlock.span)
  paged : ∀ e ∈ free, pageSize ∣ e.lo ∧ pageSize ∣ e.hi
  blocks : ∀ b ∈ live, pageSize ∣ b.addr ∧ 0 < b.size

/-- Extents of whole pages that lie in a region are at most as many as its pages. -/
theorem length_mul_le {l : List (Extent ℕ)} (hl : Ordered l)
    (hpaged : ∀ e ∈ l, pageSize ∣ e.lo ∧ pageSize ∣ e.hi) {a b : ℕ}
    (hin : ∀ e ∈ l, a ≤ e.lo ∧ e.hi ≤ b) (hab : a ≤ b) : a + l.length * pageSize ≤ b := by
  induction l generalizing a with
  | nil => simpa using hab
  | cons e l ih =>
    obtain ⟨hbefore, hrest⟩ := List.pairwise_cons.mp hl
    obtain ⟨hlo, hhi⟩ := hpaged e List.mem_cons_self
    have hlt := e.lt
    have hpage : pageSize ≤ e.hi - e.lo := Nat.le_of_dvd (by omega) (Nat.dvd_sub hhi hlo)
    have hein := hin e List.mem_cons_self
    have htail := ih hrest (fun f hf => hpaged f (List.mem_cons_of_mem e hf)) (a := e.hi)
      (fun f hf => ⟨hbefore f hf, (hin f (List.mem_cons_of_mem e hf)).2⟩) hein.2
    rw [List.length_cons, Nat.succ_mul]
    omega

namespace Tracks
variable {w : ℕ} {region : HeapRegion w} {h : HeapMem} {free : List (Extent ℕ)}
  {live : List HeapBlock}

theorem free_inside (ht : Tracks w region h free live) {e : Extent ℕ} (he : e ∈ free) :
    e.Inside region.toExtent := by
  have hsub := (points_subset_covers he).trans ht.tiled.free_subset
  refine ⟨(hsub e.lo_mem).1, ?_⟩
  have hlast := hsub
    (show e.hi - 1 ∈ e.points from ⟨by have := e.lt; omega, by have := e.lt; omega⟩)
  have hlt := hlast.2
  omega

theorem live_inside (ht : Tracks w region h free live) {b : HeapBlock} (hb : b ∈ live) :
    b.span.Inside region.toExtent := by
  have hsub := (points_subset_covers (List.mem_map_of_mem hb)).trans ht.tiled.live_subset
  have hlt := b.span.lt
  refine ⟨(hsub b.span.lo_mem).1, ?_⟩
  have hlast := hsub (show b.span.hi - 1 ∈ b.span.points from ⟨by omega, by omega⟩)
  have hlt := hlast.2
  omega

theorem hi_lt (ht : Tracks w region h free live) : ∀ e ∈ free, e.hi < 2 ^ w :=
  fun _ he => (ht.free_inside he).2.trans_lt region.in_word

theorem length_lt (ht : Tracks w region h free live) : free.length < region.fuel := by
  have hmul := length_mul_le ht.tiled.canonical.ordered ht.paged
    (fun e he => ht.free_inside he) region.lt.le
  have hdiv : free.length ≤ (region.hi - region.lo) / pageSize :=
    (Nat.le_div_iff_mul_le pageSize_pos).mpr (by omega)
  exact Nat.lt_succ_of_le hdiv

theorem perm {live' : List HeapBlock} (ht : Tracks w region h free live)
    (hp : live.Perm live') : Tracks w region h free live' where
  holds := ht.holds
  tiled := ht.tiled.perm (hp.map HeapBlock.span)
  paged := ht.paged
  blocks := fun b hb => ht.blocks b (hp.mem_iff.mpr hb)

theorem write {h' : HeapMem} (ht : Tracks w region h free live) (hhead : h'.head = h.head)
    (hmem : ∀ x ∈ covers free, h'.mem x = h.mem x) : Tracks w region h' free live where
  holds := by
    have hlo : ∀ e ∈ free, h'.mem e.lo = h.mem e.lo := fun e he =>
      hmem e.lo (points_subset_covers he e.lo_mem)
    refine ⟨ht.holds.linked.congr ?_ fun a ha => ?_, fun e he => ?_⟩
    · simp [HeapMem.next, HeapMem.header, hhead]
    · obtain ⟨e, he, rfl⟩ := List.mem_map.mp ha
      simp [HeapMem.next, HeapMem.header, hlo e he]
    · rw [hlo e he]
      exact ht.holds.sizes e he
  tiled := ht.tiled
  paged := ht.paged
  blocks := ht.blocks

theorem span_of_fit {reqSize reqAlign : ℕ} {e r : Extent ℕ}
    (hfit : fit (roundUp pageSize reqSize) (adjAlign reqAlign) e = some r)
    (hsize : 0 < reqSize) : HeapBlock.span ⟨r.lo, reqSize⟩ = r := by
  obtain ⟨-, hhi, -, -⟩ := fit_eq_some hfit
  exact Extent.ext rfl ((HeapBlock.span_hi hsize).trans hhi.symm)

/-- `HeapMem_alloc` returns `NULL` and leaves the heap as it is, or it returns a new block and
writes to free memory only. -/
theorem alloc (ht : Tracks w region h free live) {reqSize reqAlign : ℕ}
    (hreq : ProperRequest w reqSize reqAlign) :
    (takeFor reqSize reqAlign free = none ∧
      h.heapMemAlloc w region.fuel reqSize reqAlign false = some (0, h)) ∨
    ∃ r free' h', takeFor reqSize reqAlign free = some (r, free') ∧
      h.heapMemAlloc w region.fuel reqSize reqAlign false = some (r.lo, h') ∧
      r.lo ≠ 0 ∧ adjAlign reqAlign ∣ r.lo ∧
      Tracks w region h' free' (⟨r.lo, reqSize⟩ :: live) ∧
      ∀ x ∉ covers free, h'.mem x = h.mem x := by
  obtain ⟨k, hk, hpage⟩ := adjAlign_eq hreq.power
  have hpos : 0 < adjAlign reqAlign := hk ▸ Nat.two_pow_pos k
  cases htake : takeFor reqSize reqAlign free with
  | none => exact .inl ⟨rfl, heapMemAlloc_none ht.holds ht.hi_lt ht.length_lt hreq htake⟩
  | some found =>
    obtain ⟨r, free'⟩ := found
    obtain ⟨h', hrun, hholds, hframe⟩ := heapMemAlloc_some ht.holds ht.tiled.canonical ht.hi_lt
      ht.length_lt hreq htake
    have hinside := fit_inside (n := roundUp pageSize reqSize) hpos
    obtain ⟨before, e, after, hfree, -, hfit, -⟩ := take_eq_some htake
    obtain ⟨hlo, hhi, -, -⟩ := fit_eq_some hfit
    have hdvd : adjAlign reqAlign ∣ r.lo := hlo ▸ dvd_roundUp _ e.lo
    have hrlo : pageSize ∣ r.lo := (hk ▸ hpage).trans hdvd
    have hrhi : pageSize ∣ r.hi := hhi ▸ dvd_add hrlo (dvd_roundUp pageSize reqSize)
    have hspan := span_of_fit hfit hreq.some_bytes
    have hin := (take_subset hinside htake r.lo_mem)
    have hregion := (ht.tiled.free_subset hin).1
    have hlopos := region.lo_pos
    refine .inr ⟨r, free', h', rfl, hrun, by omega, hdvd, ⟨hholds, ?_, ?_, ?_⟩, hframe⟩
    · rw [List.map_cons, hspan]
      exact ht.tiled.take hinside htake
    · exact take_ends htake ⟨hrlo, hrhi⟩ ht.paged
    · intro b hb
      rcases List.mem_cons.mp hb with rfl | hb
      · exact ⟨hrlo, hreq.some_bytes⟩
      · exact ht.blocks b hb

/-- `HeapMem_free` of a block that was allocated gives its pages back, and writes only to them and
to free memory. -/
theorem release {b : HeapBlock} (ht : Tracks w region h free (b :: live)) :
    ∃ h', h.heapMemFree w region.fuel b.addr b.size = some h' ∧
      Tracks w region h' (Foundation.release b.span free) live ∧
      ∀ x ∉ b.span.points ∪ covers free, h'.mem x = h.mem x := by
  obtain ⟨hpaged, hsize⟩ := ht.blocks b List.mem_cons_self
  have hin := ht.live_inside List.mem_cons_self
  have hlo : region.lo ≤ b.addr := hin.1
  have hhi : b.span.hi < 2 ^ w := hin.2.trans_lt region.in_word
  have hspan := HeapBlock.span_hi hsize
  have hlopos := region.lo_pos
  have hdisj := ht.tiled.disjoint
  rw [List.map_cons, covers_cons, Set.disjoint_union_right] at hdisj
  have hadj : adjSize w b.size = b.span.hi - b.span.lo := by
    rw [adjSize_eq (by omega), hspan, HeapBlock.span_lo]
    omega
  obtain ⟨h', hrun, hholds, hframe⟩ := heapMemFree_eq (e := b.span) ht.holds
    ht.tiled.canonical ht.hi_lt ht.length_lt hdisj.1.symm hhi
    (by rw [HeapBlock.span_lo]; omega) hadj
  refine ⟨h', hrun, ⟨hholds, ht.tiled.release, ?_, ?_⟩, hframe⟩
  · refine release_ends ⟨hpaged, ?_⟩ ht.paged
    rw [hspan]
    exact dvd_add hpaged (dvd_roundUp pageSize b.size)
  · exact fun c hc => ht.blocks c (List.mem_cons_of_mem b hc)

end Tracks

/-! ## Any sequence of allocations, frees and writes -/

/-- A heap with the blocks that are allocated. -/
structure HeapState where
  heap : HeapMem
  live : List HeapBlock

/-- A call of `HeapMem_alloc`, a call of `HeapMem_free` on a block that is allocated, or a write of
the users to the memory of their blocks. -/
inductive HeapStep where
  | alloc (reqSize reqAlign : ℕ)
  | free (b : HeapBlock)
  | write (mem : ℕ → HeapMemHeader)

namespace HeapState

/-- What the users write ends up in their blocks only. -/
def write (s : HeapState) (mem : ℕ → HeapMemHeader) : HeapState :=
  { s with heap := { s.heap with mem := fun x =>
      if ∃ b ∈ s.live, b.span.lo ≤ x ∧ x < b.span.hi then mem x else s.heap.mem x } }

def step {w : ℕ} (region : HeapRegion w) (s : HeapState) : HeapStep → Option HeapState
  | .alloc reqSize reqAlign =>
    (s.heap.heapMemAlloc w region.fuel reqSize reqAlign false).map fun p =>
      ⟨p.2, if p.1 = 0 then s.live else ⟨p.1, reqSize⟩ :: s.live⟩
  | .free b =>
    if b ∈ s.live then
      (s.heap.heapMemFree w region.fuel b.addr b.size).map fun h => ⟨h, s.live.erase b⟩
    else none
  | .write mem => some (s.write mem)

/-- The heap as `cmem_init` sets it up: one header for the whole region. -/
structure Fresh {w : ℕ} (region : HeapRegion w) (s : HeapState) : Prop where
  head : s.heap.head.next = region.lo
  header : s.heap.mem region.lo = ⟨0, region.hi - region.lo⟩
  live : s.live = []

def Proper (w : ℕ) (_ : HeapState) : HeapStep → Prop
  | .alloc reqSize reqAlign => ProperRequest w reqSize reqAlign
  | _ => True

variable {w : ℕ} {region : HeapRegion w}

def machine (region : HeapRegion w) : Machine HeapState HeapStep :=
  ⟨Fresh region, step region⟩

theorem Fresh.tracks {s : HeapState} (hs : Fresh region s) :
    Tracks w region s.heap [region.toExtent] s.live where
  holds := by
    have hlo := region.lo_pos
    refine ⟨⟨hs.head, by omega, ?_⟩, fun e he => ?_⟩
    · simp [Linked, HeapMem.next, HeapMem.header, hs.header]
    · rw [List.mem_singleton.mp he, hs.header]
  tiled := hs.live ▸ Tiled.all_free region.toExtent
  paged := fun e he => by
    rw [List.mem_singleton.mp he]
    exact ⟨region.lo_paged, region.hi_paged⟩
  blocks := by simp [hs.live]

theorem tracks_step {s t : HeapState} {a : HeapStep}
    (hs : ∃ free, Tracks w region s.heap free s.live) (hok : Proper w s a)
    (h : step region s a = some t) : ∃ free, Tracks w region t.heap free t.live := by
  obtain ⟨free, ht⟩ := hs
  cases a with
  | alloc reqSize reqAlign =>
    obtain ⟨⟨addr, heap⟩, hrun, rfl⟩ := Option.map_eq_some_iff.mp h
    rcases ht.alloc hok with ⟨-, hnull⟩ | ⟨r, free', h', -, hsome, hne, -, ht', -⟩
    · rw [hnull] at hrun
      obtain ⟨rfl, rfl⟩ := Prod.mk.inj (Option.some.inj hrun)
      exact ⟨free, by simpa using ht⟩
    · rw [hsome] at hrun
      obtain ⟨rfl, rfl⟩ := Prod.mk.inj (Option.some.inj hrun)
      exact ⟨free', by simpa [hne] using ht'⟩
  | free b =>
    rw [step] at h
    split at h
    · rename_i hb
      obtain ⟨heap, hrun, rfl⟩ := Option.map_eq_some_iff.mp h
      obtain ⟨h', hfree, ht', -⟩ := (ht.perm (List.perm_cons_erase hb)).release
      rw [hfree] at hrun
      cases hrun
      exact ⟨_, ht'⟩
    · cases h
  | write mem =>
    cases h
    refine ⟨free, ht.write rfl fun x hx => if_neg ?_⟩
    rintro ⟨b, hb, hxb⟩
    exact Set.disjoint_left.mp ht.tiled.disjoint hx ⟨b.span, List.mem_map_of_mem hb, hxb⟩

theorem tracks_of_reachable {s : HeapState}
    (hs : (machine region).ReachableUnder (Proper w) s) :
    ∃ free, Tracks w region s.heap free s.live :=
  hs.invariant (I := fun s => ∃ free, Tracks w region s.heap free s.live)
    (fun _ h => ⟨_, Fresh.tracks h⟩) fun _ _ _ hi hok h => tracks_step hi hok h

/-- In every run the list in memory and the blocks make up the heap: no block overlaps another one
or free memory, free memory is coalesced, and every block starts at a page. -/
theorem heap_tiled {s : HeapState} (hs : (machine region).ReachableUnder (Proper w) s) :
    ∃ free, Holds s.heap free ∧ Tiled region.toExtent free (s.live.map HeapBlock.span) ∧
      (∀ e ∈ free, pageSize ∣ e.lo ∧ pageSize ∣ e.hi) ∧ ∀ b ∈ s.live, pageSize ∣ b.addr := by
  obtain ⟨free, ht⟩ := tracks_of_reachable hs
  exact ⟨free, ht.holds, ht.tiled, ht.paged, fun b hb => (ht.blocks b hb).1⟩

def fourPages : HeapRegion 32 where
  lo := 4096
  hi := 20480
  lt := by decide
  lo_pos := by decide
  lo_paged := ⟨1, rfl⟩
  hi_paged := ⟨5, rfl⟩
  in_word := by decide

def fourPagesFree : HeapState := ⟨⟨⟨4096, 0⟩, fun _ => ⟨0, 16384⟩⟩, []⟩

theorem fresh_fourPages : Fresh fourPages fourPagesFree := ⟨rfl, rfl, rfl⟩

theorem proper_bytes {n : ℕ} (hn : 0 < n) (hle : n ≤ 8192) : ProperRequest 32 n 1 where
  some_bytes := hn
  power := .inr ⟨0, rfl⟩
  in_word := by
    have hround : roundUp pageSize n ≤ 8192 := roundUp_le pageSize_pos ⟨2, rfl⟩ hle
    have halign : adjAlign 1 = 4096 := rfl
    omega

theorem reachable_fourPages : ∃ s, (machine fourPages).ReachableUnder (Proper 32) s ∧
    s.live = [⟨8192, 5000⟩] ∧ s.heap.next none = 4096 := by
  have hrun : ((machine fourPages).exec fourPagesFree
      [.alloc 1 1, .alloc 5000 1, .free ⟨4096, 1⟩]).map (fun s => (s.live, s.heap.next none)) =
      some ([⟨8192, 5000⟩], 4096) := rfl
  obtain ⟨s, hs, hinfo⟩ := Option.map_eq_some_iff.mp hrun
  obtain ⟨hlive, hnext⟩ := Prod.mk.inj hinfo
  refine ⟨s, Machine.ReachableUnder.of_exec (.start fresh_fourPages) (fun a ha u => ?_) hs,
    hlive, hnext⟩
  simp only [List.mem_cons, List.not_mem_nil, or_false] at ha
  rcases ha with rfl | rfl | rfl
  · exact proper_bytes (by decide) (by decide)
  · exact proper_bytes (by decide) (by decide)
  · trivial

theorem heap_tiled_two : ∃ s, (machine fourPages).ReachableUnder (Proper 32) s ∧
    s.live = [⟨8192, 5000⟩] ∧
    ∃ free, Holds s.heap free ∧ Tiled fourPages.toExtent free (s.live.map HeapBlock.span) ∧
      (∀ e ∈ free, pageSize ∣ e.lo ∧ pageSize ∣ e.hi) ∧ ∀ b ∈ s.live, pageSize ∣ b.addr := by
  obtain ⟨s, hs, hlive, -⟩ := reachable_fourPages
  exact ⟨s, hs, hlive, heap_tiled hs⟩

/-- The addresses with an alignment behind which enough pages are not allocated. -/
def places (region : HeapRegion w) (s : HeapState) (reqSize reqAlign : ℕ) : Set ℕ :=
  {addr | adjAlign reqAlign ∣ addr ∧ Set.Ico addr (addr + roundUp pageSize reqSize) ⊆
    region.points \ covers (s.live.map HeapBlock.span)}

/-- `HeapMem_alloc` always returns: the lowest address that will do, or `NULL` exactly if there is
none. -/
theorem alloc_lowest {s : HeapState} (hs : (machine region).ReachableUnder (Proper w) s)
    {reqSize reqAlign : ℕ} (hreq : ProperRequest w reqSize reqAlign) :
    ∃ addr h', s.heap.heapMemAlloc w region.fuel reqSize reqAlign false = some (addr, h') ∧
      (addr = 0 ∧ places region s reqSize reqAlign = ∅ ∨
        addr ≠ 0 ∧ IsLeast (places region s reqSize reqAlign) addr) := by
  obtain ⟨free, ht⟩ := tracks_of_reachable hs
  obtain ⟨k, hk, -⟩ := adjAlign_eq hreq.power
  have hpos : 0 < adjAlign reqAlign := hk ▸ Nat.two_pow_pos k
  have hfree : region.points \ covers (s.live.map HeapBlock.span) = covers free := by
    rw [← ht.tiled.union]
    exact ht.tiled.disjoint.sup_sdiff_cancel_right
  have hplaces : places region s reqSize reqAlign =
      {addr | adjAlign reqAlign ∣ addr ∧
        Set.Ico addr (addr + roundUp pageSize reqSize) ⊆ covers free} := by
    rw [places, hfree]
  rw [hplaces]
  rcases ht.alloc hreq with ⟨htake, hrun⟩ | ⟨r, free', h', htake, hrun, hne, -⟩
  · have hnone := (take_fit_eq_none hpos (roundUp_pos pageSize_pos hreq.some_bytes)
      ht.tiled.canonical).mp htake
    refine ⟨0, s.heap, hrun, .inl ⟨rfl, ?_⟩⟩
    exact Set.eq_empty_of_forall_notMem fun addr haddr => hnone ⟨addr, haddr⟩
  · exact ⟨r.lo, h', hrun, .inr ⟨hne, take_fit_isLeast hpos ht.tiled.canonical htake⟩⟩

theorem alloc_lowest_two : ∃ s, (machine fourPages).ReachableUnder (Proper 32) s ∧
    s.live = [⟨8192, 5000⟩] ∧
    ∃ addr h', s.heap.heapMemAlloc 32 fourPages.fuel 4096 8192 false = some (addr, h') ∧
      (addr = 0 ∧ places fourPages s 4096 8192 = ∅ ∨
        addr ≠ 0 ∧ IsLeast (places fourPages s 4096 8192) addr) := by
  have hreq : ProperRequest 32 4096 8192 := ⟨by decide, .inr ⟨13, rfl⟩, by decide⟩
  obtain ⟨s, hs, hlive, -⟩ := reachable_fourPages
  exact ⟨s, hs, hlive, alloc_lowest hs hreq⟩

/-- The free list does not remember how it came about: it is determined by the blocks that are
allocated, and once all are freed it is one extent again. -/
theorem free_list_determined {s t : HeapState}
    (hs : (machine region).ReachableUnder (Proper w) s)
    (ht : (machine region).ReachableUnder (Proper w) t) (hlive : s.live.Perm t.live) :
    (∃ free, Holds s.heap free ∧ Holds t.heap free) ∧
      (s.live = [] → Holds s.heap [region.toExtent]) := by
  obtain ⟨free, hfs⟩ := tracks_of_reachable hs
  obtain ⟨free', hft⟩ := tracks_of_reachable ht
  have hcov := covers_perm (hlive.map HeapBlock.span)
  have heq := hfs.tiled.free_unique hft.tiled hcov
  refine ⟨⟨free, hfs.holds, heq ▸ hft.holds⟩, fun hnil => ?_⟩
  have htiled := hfs.tiled
  rw [hnil] at htiled
  exact htiled.free_eq_whole ▸ hfs.holds

theorem free_list_determined_two : ∃ s t, (machine fourPages).ReachableUnder (Proper 32) s ∧
    (machine fourPages).ReachableUnder (Proper 32) t ∧
    (∃ free, Holds s.heap free ∧ Holds t.heap free) ∧
      (s.live = [] → Holds s.heap [fourPages.toExtent]) := by
  have hrun : ((machine fourPages).exec fourPagesFree [.alloc 4096 1, .alloc 5000 1, .alloc 1 1,
      .free ⟨16384, 1⟩, .free ⟨4096, 4096⟩]).map HeapState.live = some [⟨8192, 5000⟩] := rfl
  obtain ⟨t, ht, hlive'⟩ := Option.map_eq_some_iff.mp hrun
  have hreach : (machine fourPages).ReachableUnder (Proper 32) t := by
    refine Machine.ReachableUnder.of_exec (.start fresh_fourPages) (fun a ha u => ?_) ht
    simp only [List.mem_cons, List.not_mem_nil, or_false] at ha
    rcases ha with rfl | rfl | rfl | rfl | rfl
    · exact proper_bytes (by decide) (by decide)
    · exact proper_bytes (by decide) (by decide)
    · exact proper_bytes (by decide) (by decide)
    · trivial
    · trivial
  obtain ⟨s, hs, hlive, -⟩ := reachable_fourPages
  exact ⟨s, t, hs, hreach, free_list_determined hs hreach (by rw [hlive, hlive'])⟩

end HeapState
end BifrostModule.Cmem
