import BifrostModule.Cmem.Driver

/-! # Runs of the contiguous memory manager

Files are opened, make ioctls and are closed in any order. `release` takes the mutex once
for each pool, so other files come in between; users write to the buffers that they hold.
-/
namespace BifrostModule.Cmem
open Foundation

def PoolBuffer.phys (e : PoolBuffer) : HeapBlock := ⟨e.physp, e.size⟩

/-- The memory of a buffer of a heap as the kernel sees it. -/
def PoolBuffer.virt (e : PoolBuffer) : HeapBlock := ⟨e.kvirtp, e.size⟩

/-- A configuration with the buffers that were set up for its pools: blocks that do not overlap,
buffers that lie apart in them, and in each heap pool the one buffer that the heap divides. -/
structure CmemLayout (w : ℕ) extends CmemConfig w where
  buffers : PoolId → List HeapBlock
  heap_pool : ∀ bi hp, (block bi).heapPool = some hp → hp = (block bi).npools
  heap_buffer : ∀ bi hp, (block bi).heapPool = some hp →
    buffers (bi, hp) =
      [⟨(block bi).start + ((block bi).heapVirtp - (block bi).virtp), (block bi).heapSize⟩]
  heap_inside : ∀ bi, (block bi).heapPool ≠ none →
    0 < (block bi).virtp ∧ (block bi).virtp ≤ (block bi).heapVirtp ∧ 0 < (block bi).heapSize ∧
      (block bi).heapVirtp + (block bi).heapSize ≤ (block bi).virtend
  heap_paged : ∀ bi, (block bi).heapPool ≠ none →
    pageSize ∣ (block bi).heapVirtp ∧ pageSize ∣ (block bi).heapSize
  virtend_lt : ∀ bi, (block bi).virtend < 2 ^ w
  virtoff_eq : ∀ bi, (block bi).virtoff = subWord w (block bi).virtp (block bi).start
  stop_eq : ∀ bi, (block bi).stop = (block bi).start + ((block bi).virtend - (block bi).virtp)
  stop_lt : ∀ bi, (block bi).stop < 2 ^ w
  virt_apart : ∀ bi bj, bi ≠ bj →
    Disjoint (Set.Ico (block bi).virtp (block bi).virtend)
      (Set.Ico (block bj).virtp (block bj).virtend)
  inside : ∀ id ∈ toCmemConfig.walk, ∀ b ∈ buffers id,
    (block id.1).start ≤ b.addr ∧ b.span.hi ≤ (block id.1).stop
  apart : (toCmemConfig.walk.flatMap buffers).Pairwise fun b c =>
    Disjoint b.span.points c.span.points

/-- Inside of one block only, `get_phys` keeps the distance to its start. -/
theorem getPhys_of_mem {w : ℕ} {cfg : CmemConfig w} {elsewhere : ℕ → ℕ} {bi : BlockId} {virtp : ℕ}
    (hv : virtp ∈ Set.Ico (cfg.block bi).virtp (cfg.block bi).virtend)
    (hother : ∀ bj, bj ≠ bi → virtp ∉ Set.Ico (cfg.block bj).virtp (cfg.block bj).virtend)
    (hoff : (cfg.block bi).virtoff = subWord w (cfg.block bi).virtp (cfg.block bi).start)
    (hvend : (cfg.block bi).virtend < 2 ^ w)
    (hstop : (cfg.block bi).start + ((cfg.block bi).virtend - (cfg.block bi).virtp) < 2 ^ w) :
    cfg.getPhys elsewhere virtp = (cfg.block bi).start + (virtp - (cfg.block bi).virtp) := by
  have hfind : (List.finRange 2).find? (fun bj : BlockId =>
      decide ((cfg.block bj).virtp ≤ virtp) && decide (virtp < (cfg.block bj).virtend)) =
        some bi := by
    cases hfound : (List.finRange 2).find? (fun bj : BlockId =>
        decide ((cfg.block bj).virtp ≤ virtp) && decide (virtp < (cfg.block bj).virtend)) with
    | none =>
      have hno := List.find?_eq_none.mp hfound bi (List.mem_finRange bi)
      simp [hv.1, hv.2] at hno
    | some bj =>
      have hin := List.find?_some hfound
      simp only [Bool.and_eq_true, decide_eq_true_eq] at hin
      by_contra hne
      exact hother bj (fun heq => hne (congrArg some heq)) hin
  obtain ⟨hlo, hhi⟩ := hv
  rw [CmemConfig.getPhys, hfind]
  simp only [hoff]
  by_cases hle : (cfg.block bi).start ≤ (cfg.block bi).virtp
  · rw [subWord_eq hle (by omega), subWord_eq (by omega) (by omega)]
    omega
  · have hwrap : subWord w (cfg.block bi).virtp (cfg.block bi).start =
        (cfg.block bi).virtp + (2 ^ w - (cfg.block bi).start) :=
      Nat.mod_eq_of_lt (by omega)
    rw [hwrap, subWord, Nat.mod_eq_of_lt (by omega)]
    omega

namespace CmemLayout
variable {w : ℕ} (L : CmemLayout w)

def region (bi : BlockId) (h : (L.block bi).heapPool ≠ none) : HeapRegion w where
  lo := (L.block bi).heapVirtp
  hi := (L.block bi).heapVirtp + (L.block bi).heapSize
  lt := Nat.lt_add_of_pos_right (L.heap_inside bi h).2.2.1
  lo_pos := (L.heap_inside bi h).1.trans_le (L.heap_inside bi h).2.1
  lo_paged := (L.heap_paged bi h).1
  hi_paged := dvd_add (L.heap_paged bi h).1 (L.heap_paged bi h).2
  in_word := (L.heap_inside bi h).2.2.2.trans_lt (L.virtend_lt bi)

theorem fuel_eq (bi : BlockId) (h : (L.block bi).heapPool ≠ none) :
    L.fuel bi = (L.region bi h).fuel := by
  simp [CmemConfig.fuel, HeapRegion.fuel, region, heapAlign]

theorem region_subset (bi : BlockId) (h : (L.block bi).heapPool ≠ none) :
    (L.region bi h).points ⊆ Set.Ico (L.block bi).virtp (L.block bi).virtend :=
  Set.Ico_subset_Ico (L.heap_inside bi h).2.1 (L.heap_inside bi h).2.2.2

theorem region_disjoint {bi bj : BlockId} (hne : bi ≠ bj) (hi : (L.block bi).heapPool ≠ none)
    (hj : (L.block bj).heapPool ≠ none) :
    Disjoint (L.region bi hi).points (L.region bj hj).points :=
  (L.virt_apart bi bj hne).mono (L.region_subset bi hi) (L.region_subset bj hj)

theorem disjoint_buffers {id id' : PoolId} (hid : id ∈ L.walk) (hid' : id' ∈ L.walk)
    (hne : id ≠ id') {b c : HeapBlock} (hb : b ∈ L.buffers id) (hc : c ∈ L.buffers id') :
    Disjoint b.span.points c.span.points := by
  have hsymm : Std.Symm fun i j => ∀ x ∈ L.buffers i, ∀ y ∈ L.buffers j,
      Disjoint x.span.points y.span.points := ⟨fun _ _ h x hx y hy => (h y hy x hx).symm⟩
  exact (List.pairwise_flatMap.mp L.apart).2.forall hid hid' hne b hb c hc

/-- In the memory of a heap `get_phys` keeps the distance to the start of the block. -/
theorem getPhys_eq (bi : BlockId) (elsewhere : ℕ → ℕ) {virtp : ℕ}
    (hv : virtp ∈ Set.Ico (L.block bi).virtp (L.block bi).virtend) :
    L.getPhys elsewhere virtp = (L.block bi).start + (virtp - (L.block bi).virtp) := by
  have hstop := L.stop_lt bi
  rw [L.stop_eq bi] at hstop
  exact getPhys_of_mem hv
    (fun bj hne hin => Set.disjoint_left.mp (L.virt_apart bi bj hne.symm) hv hin)
    (L.virtoff_eq bi) (L.virtend_lt bi) hstop

end CmemLayout

/-! ## The heaps of the blocks -/

abbrev Busy := BlockId → List HeapBlock

section
variable {w : ℕ} (L : CmemLayout w)

def HeapsOk (s : CmemState) (busy : Busy) : Prop :=
  ∀ bi (h : (L.block bi).heapPool ≠ none),
    ∃ free, Tracks w (L.region bi h) (s.heapOf bi) free (busy bi)

variable {L} {s : CmemState} {busy : Busy}

@[simp] theorem heapOf_setHeap_self (s : CmemState) (bi : BlockId) (h : HeapMem) :
    (s.setHeap bi h).heapOf bi = h := by
  simp [CmemState.heapOf, CmemState.setHeap]

@[simp] theorem setHeap_pObjs (s : CmemState) (bi : BlockId) (h : HeapMem) :
    (s.setHeap bi h).pObjs = s.pObjs := rfl

@[simp] theorem heapOf_setPool (s : CmemState) (id : PoolId) (p : PoolObject) (bi : BlockId) :
    (s.setPool id p).heapOf bi = s.heapOf bi := rfl

theorem setHeap_heapOf (s : CmemState) (bi : BlockId) : s.setHeap bi (s.heapOf bi) = s := by
  simp [CmemState.heapOf, CmemState.setHeap]

/-- The other heaps do not notice what happens inside one of them. -/
theorem HeapsOk.setHeap (hs : HeapsOk L s busy) {bi : BlockId} {h : HeapMem}
    (hbi : (L.block bi).heapPool ≠ none)
    (hframe : ∀ x ∉ (L.region bi hbi).points, h.mem x = s.mem x)
    {blocks : List HeapBlock} {free : List (Extent ℕ)}
    (ht : Tracks w (L.region bi hbi) h free blocks) :
    HeapsOk L (s.setHeap bi h) (Function.update busy bi blocks) := by
  intro bj hbj
  by_cases hne : bj = bi
  · subst hne
    rw [heapOf_setHeap_self, Function.update_self]
    exact ⟨free, ht⟩
  · obtain ⟨freej, htj⟩ := hs bj hbj
    rw [Function.update_of_ne hne]
    refine ⟨freej, htj.write ?_ fun x hx => ?_⟩
    · simp [CmemState.heapOf, CmemState.setHeap, Function.update_of_ne hne]
    · refine hframe x fun hin => ?_
      exact Set.disjoint_left.mp (L.region_disjoint hne hbj hbi) (htj.tiled.free_subset hx) hin

theorem HeapsOk.heapAlloc (hs : HeapsOk L s busy) {bi : BlockId}
    (hbi : (L.block bi).heapPool ≠ none) {size align : ℕ} (hreq : ProperRequest w size align) :
    s.heapAlloc L.toCmemConfig bi size align false = some (0, s) ∨
    ∃ virtp s', s.heapAlloc L.toCmemConfig bi size align false = some (virtp, s') ∧ virtp ≠ 0 ∧
      virtp ∈ (L.region bi hbi).points ∧ s'.pObjs = s.pObjs ∧
      s'.referenceCount = s.referenceCount ∧
      HeapsOk L s' (Function.update busy bi (⟨virtp, size⟩ :: busy bi)) := by
  obtain ⟨free, ht⟩ := hs bi hbi
  rw [CmemState.heapAlloc, L.fuel_eq bi hbi]
  rcases ht.alloc hreq with ⟨-, hrun⟩ | ⟨r, free', h', htake, hrun, hne, -, ht', hframe⟩
  · left
    rw [hrun, Option.map_some, setHeap_heapOf]
  · right
    have hin : r.lo ∈ (L.region bi hbi).points := by
      have hspan := ht'.live_inside List.mem_cons_self
      exact hspan.subset (HeapBlock.span ⟨r.lo, size⟩).lo_mem
    refine ⟨r.lo, s.setHeap bi h', by rw [hrun]; rfl, hne, hin, rfl, rfl, ?_⟩
    exact hs.setHeap hbi (fun x hx => hframe x fun hfree => hx (ht.tiled.free_subset hfree)) ht'

theorem HeapsOk.heapFree (hs : HeapsOk L s busy) {bi : BlockId}
    (hbi : (L.block bi).heapPool ≠ none) {b : HeapBlock} {rest : List HeapBlock}
    (hb : (busy bi).Perm (b :: rest)) :
    ∃ s', s.heapFree L.toCmemConfig bi b.addr b.size = some s' ∧ s'.pObjs = s.pObjs ∧
      s'.referenceCount = s.referenceCount ∧ HeapsOk L s' (Function.update busy bi rest) := by
  obtain ⟨free, ht⟩ := hs bi hbi
  obtain ⟨h', hrun, ht', hframe⟩ := (ht.perm hb).release
  rw [CmemState.heapFree, L.fuel_eq bi hbi]
  refine ⟨s.setHeap bi h', by rw [hrun]; rfl, rfl, rfl, ?_⟩
  refine hs.setHeap hbi (fun x hx => hframe x fun hin => hx ?_) ht'
  rcases hin with hin | hin
  · exact ((ht.perm hb).live_inside List.mem_cons_self).subset hin
  · exact ht.tiled.free_subset hin

/-- A failed allocation is undone: the heaps hold the same lists again. -/
theorem HeapsOk.congr {s' : CmemState} {busy' : Busy} (hs : HeapsOk L s busy)
    (hheap : ∀ bi, s'.heapOf bi = s.heapOf bi) (hbusy : ∀ bi, (busy bi).Perm (busy' bi)) :
    HeapsOk L s' busy' := by
  intro bi hbi
  obtain ⟨free, ht⟩ := hs bi hbi
  exact ⟨free, (hheap bi).symm ▸ ht.perm (hbusy bi)⟩

theorem HeapsOk.write (hs : HeapsOk L s busy) {mem : ℕ → HeapMemHeader}
    (hmem : ∀ x bi (h : (L.block bi).heapPool ≠ none), x ∈ (L.region bi h).points →
      x ∉ covers ((busy bi).map HeapBlock.span) → mem x = s.mem x) :
    HeapsOk L { s with mem := mem } busy := by
  intro bi hbi
  obtain ⟨free, ht⟩ := hs bi hbi
  refine ⟨free, ht.write rfl fun x hx => ?_⟩
  exact hmem x bi hbi (ht.tiled.free_subset hx) fun hlive =>
    Set.disjoint_left.mp ht.tiled.disjoint hx hlive

end

/-! ## Files -/

/-- A `release` that is under way: whether it is the last one, and the pools it has still to
sweep. -/
structure Closing where
  lastClose : Bool
  todo : List PoolId

/-- The module with the files that are open and those that are being released. -/
structure CmemRun where
  state : CmemState
  opened : Finset Filp
  closing : Filp → Option Closing

/-- An `open`, an ioctl, the start of a `release`, its next turn with the mutex (or with a signal
instead), and writes of the users. -/
inductive CmemStep where
  | openFile (filp : Filp)
  | ioctl (filp : Filp) (req : Request) (o : Outcomes)
  | release (filp : Filp)
  | sweep (filp : Filp) (locked : Bool)
  | write (mem : ℕ → HeapMemHeader)

namespace CmemRun
variable {w : ℕ} (cfg : CmemConfig w)

def Unheld (s : CmemState) (x : ℕ) : Prop :=
  ∃ bi : BlockId, (cfg.block bi).heapPool ≠ none ∧ (cfg.block bi).heapVirtp ≤ x ∧
    x < (cfg.block bi).heapVirtp + (cfg.block bi).heapSize ∧
    ∀ e ∈ (s.pObjs (bi, (cfg.block bi).npools)).busylist, ¬ (e.kvirtp ≤ x ∧ x < e.virt.span.hi)

instance (s : CmemState) (x : ℕ) : Decidable (Unheld cfg s x) := by
  unfold Unheld
  infer_instance

/-- What the users write ends up outside of the free memory of the heaps. -/
def writeHeld (s : CmemState) (mem : ℕ → HeapMemHeader) : CmemState :=
  { s with mem := fun x => if Unheld cfg s x then s.mem x else mem x }

def step (s : CmemRun) : CmemStep → Option CmemRun
  | .openFile filp =>
    if filp ∈ s.opened ∨ s.closing filp ≠ none then none
    else some { s with
      state := { s.state with referenceCount := s.state.referenceCount + 1 }
      opened := insert filp s.opened }
  | .ioctl filp req o =>
    if filp ∈ s.opened then
      (s.state.ioctl cfg filp req o).map fun r => { s with state := r.2 }
    else none
  | .release filp =>
    if filp ∈ s.opened then
      let count := s.state.referenceCount - 1
      some {
        state := { s.state with referenceCount := count }
        opened := s.opened.erase filp
        closing := Function.update s.closing filp (some ⟨count = 0, cfg.walk⟩) }
    else none
  | .sweep filp locked =>
    match s.closing filp with
    | none => none
    | some ⟨_, []⟩ => some { s with closing := Function.update s.closing filp none }
    | some ⟨lastClose, id :: todo⟩ =>
      if locked = false then some { s with closing := Function.update s.closing filp none }
      else
        (s.state.sweep cfg filp lastClose id).map fun state => { s with
          state := state
          closing := Function.update s.closing filp (some ⟨lastClose, todo⟩) }
  | .write mem => some { s with state := writeHeld cfg s.state mem }

end CmemRun
end BifrostModule.Cmem
