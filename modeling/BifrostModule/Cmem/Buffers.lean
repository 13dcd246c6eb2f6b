import BifrostModule.Cmem.Holders
import BifrostModule.Cmem.Frame
import BifrostModule.Cmem.Calls

/-! # Busy buffers do not overlap

Over every run of files that are opened, make ioctls and are closed, no buffer is lost and
no two busy buffers share a byte, whether they come from pools or from heaps.
-/
namespace BifrostModule.Cmem
open Foundation

section
variable {w : ℕ} (L : CmemLayout w)

structure Sized (s : CmemState) : Prop where
  numbufs : ∀ id ∈ L.walk, (s.pObjs id).numbufs = (L.buffers id).length
  sizes : ∀ id ∈ L.walk, ∀ b ∈ L.buffers id, b.size = (s.pObjs id).size

/-- The module after `cmem_init`: every buffer is free, each heap is one header. -/
structure Loaded (s : CmemState) : Prop extends Sized L s where
  busy : ∀ id, (s.pObjs id).busylist = []
  free : ∀ id, (s.pObjs id).freelist.map PoolBuffer.phys = L.buffers id
  users : ∀ id, ∀ e ∈ (s.pObjs id).freelist, e.users = []
  heaps : ∀ bi, (L.block bi).heapPool ≠ none →
    (s.heapHead bi).next = (L.block bi).heapVirtp ∧
      s.mem (L.block bi).heapVirtp = ⟨0, (L.block bi).heapSize⟩

namespace CmemRun

structure Start (s : CmemRun) : Prop where
  loaded : Loaded L s.state
  count : s.state.referenceCount = 0
  opened : s.opened = ∅
  closing : ∀ filp, s.closing filp = none

def machine : Machine CmemRun CmemStep := ⟨Start L, step L.toCmemConfig⟩

def Proper (w : ℕ) (_ : CmemRun) : CmemStep → Prop
  | .ioctl _ req _ => ProperIoctl w req
  | _ => True

end CmemRun

variable {L}

theorem Loaded.inv {s : CmemState} (hs : Loaded L s) : Inv L s where
  heaps := by
    intro bi hbi
    obtain ⟨hhead, hmem⟩ := hs.heaps bi hbi
    have hempty : heapBusy L s bi = [] := by
      rw [heapBusy]
      cases (L.block bi).heapPool with
      | none => rfl
      | some hp => simp [hs.busy]
    have hfresh : HeapState.Fresh (L.region bi hbi) ⟨s.heapOf bi, []⟩ := by
      refine ⟨hhead, ?_, rfl⟩
      change s.mem (L.block bi).heapVirtp = _
      rw [hmem]
      simp [CmemLayout.region]
    rw [hempty]
    exact ⟨_, hfresh.tracks⟩
  heapPhys := fun id _ e he => by
    rw [hs.busy id] at he
    cases he
  heapOwn := fun id _ => hs.free id
  pools := fun id _ => by
    rw [hs.busy id, List.append_nil, hs.free id]
  freeUsers := hs.users
  busyUsers := fun id e he => by
    rw [hs.busy id] at he
    cases he

/-- An address of a heap that no busy buffer covers keeps its header. -/
theorem Inv.writeHeld {s : CmemState} (hs : Inv L s) (mem : ℕ → HeapMemHeader) :
    Inv L (CmemRun.writeHeld L.toCmemConfig s mem) := by
  refine hs.of_heaps rfl (hs.heaps.write fun x bi hbi hin hout => if_pos ?_)
  refine ⟨bi, hbi, hin.1, hin.2, fun e he hx => hout ?_⟩
  obtain ⟨hp, hsome⟩ := Option.ne_none_iff_exists'.mp hbi
  have hpool := L.heap_pool bi hp hsome
  subst hpool
  refine ⟨e.virt.span, List.mem_map_of_mem ?_, hx⟩
  have hheap : L.isHeap (bi, (L.block bi).npools) = true := isHeap_iff.mpr hsome
  rw [heapBusy_of_isHeap hheap]
  exact List.mem_map_of_mem he

theorem Inv.step {s t : CmemRun} {a : CmemStep} (hs : Inv L s.state) (hok : CmemRun.Proper w s a)
    (h : s.step L.toCmemConfig a = some t) : Inv L t.state := by
  cases a with
  | openFile filp =>
    rw [CmemRun.step] at h
    split at h
    · cases h
    · cases h
      exact hs.of_heaps rfl hs.heaps
  | ioctl filp req o =>
    rw [CmemRun.step] at h
    split at h
    · obtain ⟨r, hr, rfl⟩ := Option.map_eq_some_iff.mp h
      obtain ⟨r', hr', hinv⟩ := hs.ioctl filp o hok
      rw [hr'] at hr
      cases hr
      exact hinv
    · cases h
  | release filp =>
    rw [CmemRun.step] at h
    split at h
    · cases h
      exact hs.of_heaps rfl hs.heaps
    · cases h
  | sweep filp locked =>
    rw [CmemRun.step] at h
    split at h
    · cases h
    · cases h
      exact hs
    · rename_i lastClose id todo _
      split at h
      · cases h
        exact hs
      · obtain ⟨state, hstate, rfl⟩ := Option.map_eq_some_iff.mp h
        obtain ⟨s', hs', hinv, -⟩ := hs.sweep filp lastClose id
        rw [hs'] at hstate
        cases hstate
        exact hinv
  | write mem =>
    cases h
    exact hs.writeHeld mem

theorem inv_of_reachable {s : CmemRun}
    (hs : (CmemRun.machine L).ReachableUnder (CmemRun.Proper w) s) : Inv L s.state :=
  hs.invariant (I := fun s => Inv L s.state)
    (fun _ (h : CmemRun.Start L _) => h.loaded.inv) fun _ _ _ hi hok h => Inv.step hi hok h

theorem Sized.of_frame {s t : CmemState} (hs : Sized L s) (h : Frame s t) : Sized L t where
  numbufs := fun id hid => (h.numbufs id).trans (hs.numbufs id hid)
  sizes := fun id hid b hb => (hs.sizes id hid b hb).trans (h.size id).symm

theorem Sized.step {s t : CmemRun} {a : CmemStep} (hs : Sized L s.state)
    (h : s.step L.toCmemConfig a = some t) : Sized L t.state := by
  cases a with
  | openFile filp =>
    rw [CmemRun.step] at h
    split at h
    · cases h
    · cases h
      exact ⟨hs.numbufs, hs.sizes⟩
  | ioctl filp req o =>
    rw [CmemRun.step] at h
    split at h
    · obtain ⟨r, hr, rfl⟩ := Option.map_eq_some_iff.mp h
      exact hs.of_frame (ioctl_frame hr)
    · cases h
  | release filp =>
    rw [CmemRun.step] at h
    split at h
    · cases h
      exact ⟨hs.numbufs, hs.sizes⟩
    · cases h
  | sweep filp locked =>
    rw [CmemRun.step] at h
    split at h
    · cases h
    · cases h
      exact hs
    · split at h
      · cases h
        exact hs
      · obtain ⟨state, hstate, rfl⟩ := Option.map_eq_some_iff.mp h
        exact hs.of_frame (sweep_frame hstate)
  | write mem =>
    cases h
    exact ⟨hs.numbufs, hs.sizes⟩

theorem sized_of_reachable {ok : CmemRun → CmemStep → Prop} {s : CmemRun}
    (hs : (CmemRun.machine L).ReachableUnder ok s) : Sized L s.state :=
  hs.invariant (I := fun s => Sized L s.state)
    (fun _ (h : CmemRun.Start L _) => h.loaded.toSized) fun _ _ _ hi _ h => hi.step h

/-! ## No overlap -/

theorem Inv.exists_buffer {s : CmemState} (hs : Inv L s) {id : PoolId} {e : PoolBuffer}
    (he : e ∈ (s.pObjs id).busylist) :
    ∃ b ∈ L.buffers id, e.phys.span.points ⊆ b.span.points := by
  cases hid : L.isHeap id with
  | false =>
    refine ⟨e.phys, (hs.pools id hid).mem_iff.mp ?_, subset_rfl⟩
    exact List.mem_map_of_mem (List.mem_append_right _ he)
  | true =>
    have hbi := heapPool_ne_none hid
    obtain ⟨free, ht⟩ := hs.heaps id.1 hbi
    have hmem : e.virt ∈ heapBusy L s id.1 := by
      rw [heapBusy_of_isHeap hid]
      exact List.mem_map_of_mem he
    have hin := ht.live_inside hmem
    obtain ⟨-, hvirt, hpos, -⟩ := L.heap_inside id.1 hbi
    have hphys := hs.heapPhys id hid e he
    refine ⟨_, by rw [L.heap_buffer id.1 id.2 (isHeap_iff.mp hid)]; exact List.mem_singleton_self _,
      Set.Ico_subset_Ico ?_ ?_⟩
    · have hlo : (L.block id.1).heapVirtp ≤ e.kvirtp := hin.1
      change _ ≤ e.physp
      rw [hphys]
      exact Nat.add_le_add_left (Nat.sub_le_sub_right hlo _) _
    · have hlo : (L.block id.1).heapVirtp ≤ e.kvirtp := hin.1
      have hhi : e.kvirtp + ((e.size - 1) / pageSize + 1) * pageSize ≤
        (L.block id.1).heapVirtp + (L.block id.1).heapSize := hin.2
      rw [HeapBlock.span_hi (b := ⟨_, (L.block id.1).heapSize⟩) hpos,
        roundUp_of_dvd pageSize_pos (L.heap_paged id.1 hbi).2]
      change e.physp + ((e.size - 1) / pageSize + 1) * pageSize ≤
        (L.block id.1).start + ((L.block id.1).heapVirtp - (L.block id.1).virtp) +
          (L.block id.1).heapSize
      rw [hphys]
      omega

theorem Inv.busy_pairwise {s : CmemState} (hs : Inv L s) {id : PoolId} (hid : id ∈ L.walk) :
    (s.pObjs id).busylist.Pairwise fun e f => Disjoint e.phys.span.points f.phys.span.points := by
  cases hheap : L.isHeap id with
  | false =>
    have hall := (List.pairwise_flatMap.mp L.apart).1 id hid
    have hperm := (hs.pools id hheap).symm.pairwise hall fun h => h.symm
    rw [List.map_append] at hperm
    have hbusy := (List.pairwise_append.mp hperm).2.1
    rw [List.pairwise_map] at hbusy
    exact hbusy
  | true =>
    have hbi := heapPool_ne_none hheap
    obtain ⟨free, ht⟩ := hs.heaps id.1 hbi
    have hapart := ht.tiled.apart
    rw [heapBusy_of_isHeap hheap, List.map_map, List.pairwise_map] at hapart
    refine hapart.imp_of_mem fun {e f} he hf hdisj => ?_
    have hinside : ∀ c ∈ (s.pObjs id).busylist, (L.block id.1).virtp ≤ c.kvirtp := by
      intro c hc
      have hmem : c.virt ∈ heapBusy L s id.1 := by
        rw [heapBusy_of_isHeap hheap]
        exact List.mem_map_of_mem hc
      exact (L.heap_inside id.1 hbi).2.1.trans (ht.live_inside hmem).1
    have hpe := hs.heapPhys id hheap e he
    have hpf := hs.heapPhys id hheap f hf
    have hie := hinside e he
    have hif := hinside f hf
    -- A common physical byte would be a common byte of the kernel's mapping.
    refine Set.disjoint_left.mpr fun x hxe hxf => ?_
    have hxelo : e.physp ≤ x := hxe.1
    have hxehi : x < e.physp + ((e.size - 1) / pageSize + 1) * pageSize := hxe.2
    have hxflo : f.physp ≤ x := hxf.1
    have hxfhi : x < f.physp + ((f.size - 1) / pageSize + 1) * pageSize := hxf.2
    have hve : x - (L.block id.1).start + (L.block id.1).virtp ∈ e.virt.span.points := by
      refine ⟨?_, ?_⟩
      · change e.kvirtp ≤ _
        omega
      · change _ < e.kvirtp + ((e.size - 1) / pageSize + 1) * pageSize
        omega
    have hvf : x - (L.block id.1).start + (L.block id.1).virtp ∈ f.virt.span.points := by
      refine ⟨?_, ?_⟩
      · change f.kvirtp ≤ _
        omega
      · change _ < f.kvirtp + ((f.size - 1) / pageSize + 1) * pageSize
        omega
    exact Set.disjoint_left.mp hdisj hve hvf

theorem Inv.busy_apart {s : CmemState} (hs : Inv L s) :
    (L.walk.flatMap fun id => (s.pObjs id).busylist).Pairwise fun e f =>
      Disjoint e.phys.span.points f.phys.span.points := by
  refine List.pairwise_flatMap.mpr ⟨fun id hid => hs.busy_pairwise hid, ?_⟩
  refine (List.pairwise_flatMap.mp L.apart).2.imp fun {id id'} hcross e he f hf => ?_
  obtain ⟨b, hb, heb⟩ := hs.exists_buffer he
  obtain ⟨c, hc, hfc⟩ := hs.exists_buffer hf
  exact (hcross b hb c hc).mono heb hfc

/-- In every run no two busy buffers share a byte, each lies in its block, and each buffer of a
pool is on one of the two lists of its pool. -/
theorem buffers_apart {s : CmemRun}
    (hs : (CmemRun.machine L).ReachableUnder (CmemRun.Proper w) s) :
    ((L.walk.flatMap fun id => (s.state.pObjs id).busylist).Pairwise fun e f =>
      Disjoint e.phys.span.points f.phys.span.points) ∧
    (∀ id ∈ L.walk, ∀ e ∈ (s.state.pObjs id).busylist,
      (L.block id.1).start ≤ e.physp ∧ e.phys.span.hi ≤ (L.block id.1).stop) ∧
    ∀ id, L.isHeap id = false →
      (((s.state.pObjs id).freelist ++ (s.state.pObjs id).busylist).map PoolBuffer.phys).Perm
        (L.buffers id) := by
  have hinv := inv_of_reachable hs
  refine ⟨hinv.busy_apart, fun id hid e he => ?_, hinv.pools⟩
  obtain ⟨b, hb, hsub⟩ := hinv.exists_buffer he
  obtain ⟨hlo, hhi⟩ := L.inside id hid b hb
  have hlt := e.phys.span.lt
  have hfirst := hsub e.phys.span.lo_mem
  have hlast := hsub (show e.phys.span.hi - 1 ∈ e.phys.span.points from ⟨by omega, by omega⟩)
  have hfirst' : b.addr ≤ e.physp := hfirst.1
  have hlast' := hlast.2
  exact ⟨hlo.trans hfirst', by omega⟩

/-! ## A block with a pool of one page and a heap of two -/

def onePool : CmemConfig 32 where
  block := fun bi => if bi = 0 then
      ⟨4096, 16384, 1048576, 1044480, 1060864, 1, some 1, 1048576, 8192⟩
    else ⟨0, 0, 0, 0, 0, 0, none, 0, 0⟩
  nblocks := 1
  useHeapIfPoolUnavailable := true

def onePoolBuffers (id : PoolId) : List HeapBlock :=
  if id = (0, 0) then [⟨12288, 4096⟩] else if id = (0, 1) then [⟨4096, 8192⟩] else []

def onePoolLayout : CmemLayout 32 where
  toCmemConfig := onePool
  buffers := onePoolBuffers
  heap_pool := Fin.forall_fin_two.mpr
    ⟨fun _ h => (Option.some.inj h).symm, fun _ h => by cases h⟩
  heap_buffer := Fin.forall_fin_two.mpr
    ⟨fun _ h => by cases h; rfl, fun _ h => by cases h⟩
  heap_inside := Fin.forall_fin_two.mpr ⟨fun _ => by decide, fun h => absurd rfl h⟩
  heap_paged := Fin.forall_fin_two.mpr
    ⟨fun _ => ⟨⟨256, rfl⟩, ⟨2, rfl⟩⟩, fun h => absurd rfl h⟩
  virtend_lt := by decide
  virtoff_eq := by decide
  stop_eq := by decide
  stop_lt := by decide
  virt_apart := fun bi bj hne => by
    rw [Set.Ico_disjoint_Ico]
    revert bi bj
    decide
  inside := by decide
  apart := by
    have hwalk : onePool.walk.flatMap onePoolBuffers = [⟨12288, 4096⟩, ⟨4096, 8192⟩] := rfl
    rw [hwalk, List.pairwise_pair]
    exact Set.Ico_disjoint_Ico.mpr (by decide)

def onePoolLoaded : CmemState where
  pObjs := fun id =>
    if id = (0, 0) then ⟨[⟨0, 12288, 0#32, 0, 4096, []⟩], [], 1, 4096, 4096⟩
    else if id = (0, 1) then ⟨[⟨0, 4096, 0#32, 0, 8192, []⟩], [], 1, 8192, 8192⟩
    else ⟨[], [], 0, 0, 0⟩
  heapHead := fun _ => ⟨1048576, 8192⟩
  mem := fun _ => ⟨0, 8192⟩
  referenceCount := 0

theorem loaded_onePool : Loaded onePoolLayout onePoolLoaded where
  numbufs := by decide
  sizes := by decide
  busy := fun id => by
    unfold onePoolLoaded
    dsimp only
    split_ifs <;> rfl
  free := fun id => by
    change (onePoolLoaded.pObjs id).freelist.map PoolBuffer.phys = onePoolBuffers id
    unfold onePoolLoaded onePoolBuffers
    dsimp only
    split_ifs <;> rfl
  users := fun id => by
    unfold onePoolLoaded
    dsimp only
    split_ifs <;> simp
  heaps := Fin.forall_fin_two.mpr ⟨fun _ => ⟨rfl, rfl⟩, fun h => absurd rfl h⟩

def onePoolStart : CmemRun := ⟨onePoolLoaded, ∅, fun _ => none⟩

theorem start_onePool : CmemRun.Start onePoolLayout onePoolStart :=
  ⟨loaded_onePool, rfl, rfl, fun _ => rfl⟩

theorem proper_page : ProperRequest 32 4096 heapAlign where
  some_bytes := by decide
  power := .inr ⟨12, rfl⟩
  in_word := by decide

/-- A file gets the buffer of the pool and one page of the heap. -/
theorem reachable_onePool :
    ∃ s, (CmemRun.machine onePoolLayout).ReachableUnder (CmemRun.Proper 32) s ∧
      ((s.state.pObjs (0, 0)).busylist ++ (s.state.pObjs (0, 1)).busylist).map PoolBuffer.phys =
        [⟨12288, 4096⟩, ⟨4096, 4096⟩] ∧ (s.state.heapHead 0).next = 1052672 := by
  have hrun : ((CmemRun.machine onePoolLayout).exec onePoolStart [.openFile 7,
      .ioctl 7 (.alloc 0 0 0#32) served, .ioctl 7 (.allocHeap 4096 heapAlign 0 0#32) served]).map
      (fun s => (((s.state.pObjs (0, 0)).busylist ++ (s.state.pObjs (0, 1)).busylist).map
        PoolBuffer.phys, (s.state.heapHead 0).next)) =
      some ([⟨12288, 4096⟩, ⟨4096, 4096⟩], 1052672) := rfl
  obtain ⟨s, hs, hinfo⟩ := Option.map_eq_some_iff.mp hrun
  obtain ⟨hbusy, hnext⟩ := Prod.mk.inj hinfo
  refine ⟨s, Machine.ReachableUnder.of_exec (.start start_onePool) ?_ hs, hbusy, hnext⟩
  intro a ha u
  simp only [List.mem_cons, List.not_mem_nil, or_false] at ha
  rcases ha with rfl | rfl | rfl
  · trivial
  · exact le_rfl
  · exact ⟨proper_page, le_rfl⟩

theorem buffers_apart_two :
    ∃ s, (CmemRun.machine onePoolLayout).ReachableUnder (CmemRun.Proper 32) s ∧
      ((s.state.pObjs (0, 0)).busylist ++ (s.state.pObjs (0, 1)).busylist).map PoolBuffer.phys =
        [⟨12288, 4096⟩, ⟨4096, 4096⟩] ∧
      ((onePoolLayout.walk.flatMap fun id => (s.state.pObjs id).busylist).Pairwise fun e f =>
        Disjoint e.phys.span.points f.phys.span.points) ∧
      (∀ id ∈ onePoolLayout.walk, ∀ e ∈ (s.state.pObjs id).busylist,
        (onePoolLayout.block id.1).start ≤ e.physp ∧
          e.phys.span.hi ≤ (onePoolLayout.block id.1).stop) ∧
      ∀ id, onePoolLayout.isHeap id = false →
        (((s.state.pObjs id).freelist ++ (s.state.pObjs id).busylist).map PoolBuffer.phys).Perm
          (onePoolLayout.buffers id) := by
  obtain ⟨s, hs, hbusy, -⟩ := reachable_onePool
  exact ⟨s, hs, hbusy, buffers_apart hs⟩

/-- No proper ioctl and no sweep of a `release` gets stuck on the list of a heap. -/
theorem never_stuck {s : CmemRun}
    (hs : (CmemRun.machine L).ReachableUnder (CmemRun.Proper w) s) (filp : Filp) :
    (∀ req o, ProperIoctl w req → (s.state.ioctl L.toCmemConfig filp req o).isSome = true) ∧
      ∀ lastClose id, (s.state.sweep L.toCmemConfig filp lastClose id).isSome = true := by
  have hinv := inv_of_reachable hs
  refine ⟨fun req o hreq => ?_, fun lastClose id => ?_⟩
  · obtain ⟨r, hr, -⟩ := hinv.ioctl filp o hreq
    rw [hr]
    rfl
  · obtain ⟨s', hs', -⟩ := hinv.sweep filp lastClose id
    rw [hs']
    rfl

theorem never_stuck_two :
    ∃ s, (CmemRun.machine onePoolLayout).ReachableUnder (CmemRun.Proper 32) s ∧
      (∀ req o, ProperIoctl 32 req →
        (s.state.ioctl onePoolLayout.toCmemConfig 7 req o).isSome = true) ∧
      ∀ lastClose id, (s.state.sweep onePoolLayout.toCmemConfig 7 lastClose id).isSome = true := by
  obtain ⟨s, hs, -, -⟩ := reachable_onePool
  exact ⟨s, hs, never_stuck hs 7⟩

end
end BifrostModule.Cmem
