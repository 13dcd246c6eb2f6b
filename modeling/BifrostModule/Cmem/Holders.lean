import BifrostModule.Cmem.Runs

/-! # Where the buffers are

Each buffer of a pool stays on one of the two lists of its pool, a heap divides its memory
among its busy buffers, and a buffer is busy exactly as long as a file is registered.
-/
namespace BifrostModule.Cmem
open Foundation

/-! ## Lists of buffers -/

section
variable {physp : ℕ} {l : List PoolBuffer} {e : PoolBuffer}

/-- To change a buffer in its place does not change what does not depend on the change. -/
theorem map_updateFirst {α : Type*} {f : PoolBuffer → PoolBuffer} {g : PoolBuffer → α}
    (h : ∀ e, g (f e) = g e) (physp : ℕ) (l : List PoolBuffer) :
    (updateFirst physp f l).map g = l.map g := by
  induction l with
  | nil => rfl
  | cons e l ih =>
    rw [updateFirst]
    split
    · simp [h]
    · simp [ih]

theorem mem_updateFirst {f : PoolBuffer → PoolBuffer} (h : e ∈ updateFirst physp f l) :
    e ∈ l ∨ ∃ e' ∈ l, e'.physp = physp ∧ e = f e' := by
  induction l with
  | nil => cases h
  | cons c l ih =>
    rw [updateFirst] at h
    split at h
    · rename_i hc
      rcases List.mem_cons.mp h with rfl | h
      · exact .inr ⟨c, List.mem_cons_self, hc, rfl⟩
      · exact .inl (List.mem_cons_of_mem c h)
    · rcases List.mem_cons.mp h with rfl | h
      · exact .inl List.mem_cons_self
      · rcases ih h with h | ⟨e', he', hp, h⟩
        · exact .inl (List.mem_cons_of_mem c h)
        · exact .inr ⟨e', List.mem_cons_of_mem c he', hp, h⟩

theorem perm_removeFirst (h : l.find? (fun e => e.physp = physp) = some e) :
    l.Perm (e :: removeFirst physp l) := by
  induction l with
  | nil => cases h
  | cons c l ih =>
    rw [List.find?_cons] at h
    by_cases hc : c.physp = physp
    · simp only [hc, decide_true, Option.some.injEq] at h
      subst h
      simp [removeFirst, hc]
    · simp only [hc, decide_false] at h
      have hrest : removeFirst physp (c :: l) = c :: removeFirst physp l := by
        simp [removeFirst, hc]
      rw [hrest]
      exact ((ih h).cons c).trans (List.Perm.swap e c _)

end

/-- The buffers that stay busy when `release` sweeps a busy list, with the files that stay
registered for them. -/
def keptBusy (filp : Filp) (lastClose : Bool) (l : List PoolBuffer) : List PoolBuffer :=
  l.filterMap fun e =>
    let users := CmemState.keptUsers filp lastClose e.users
    if users = [] then none else some { e with users := users }

def sweptBusy (filp : Filp) (lastClose : Bool) (l : List PoolBuffer) : List PoolBuffer :=
  l.filterMap fun e =>
    if CmemState.keptUsers filp lastClose e.users = [] then some { e with users := [] } else none

theorem sweepPool_eq (filp : Filp) (lastClose : Bool) (l freelist : List PoolBuffer) :
    CmemState.sweepPool filp lastClose l freelist =
      (keptBusy filp lastClose l, (sweptBusy filp lastClose l).reverse ++ freelist) := by
  induction l generalizing freelist with
  | nil => rfl
  | cons e l ih =>
    rw [CmemState.sweepPool, keptBusy, sweptBusy]
    by_cases h : CmemState.keptUsers filp lastClose e.users = []
    · simp [h, ih, keptBusy, sweptBusy]
    · simp [h, ih, keptBusy, sweptBusy]

theorem perm_sweep {α : Type*} {g : PoolBuffer → α}
    (hg : ∀ (e : PoolBuffer) users, g { e with users := users } = g e) (filp : Filp)
    (lastClose : Bool) (l : List PoolBuffer) :
    (l.map g).Perm ((sweptBusy filp lastClose l).map g ++ (keptBusy filp lastClose l).map g) := by
  induction l with
  | nil => exact List.Perm.nil
  | cons e l ih =>
    rw [sweptBusy, keptBusy]
    by_cases h : CmemState.keptUsers filp lastClose e.users = []
    · simp only [List.map_cons, List.filterMap_cons, h, if_true, List.cons_append, hg]
      exact ih.cons (g e)
    · simp only [List.map_cons, List.filterMap_cons, h, if_false, hg]
      exact (ih.cons (g e)).trans List.perm_middle.symm

theorem users_of_mem_keptBusy {filp : Filp} {lastClose : Bool} {l : List PoolBuffer}
    {e : PoolBuffer} (he : e ∈ keptBusy filp lastClose l) : e.users ≠ [] ∧
    ∃ c ∈ l, e = { c with users := CmemState.keptUsers filp lastClose c.users } := by
  obtain ⟨c, hc, h⟩ := List.mem_filterMap.mp he
  by_cases hnil : CmemState.keptUsers filp lastClose c.users = []
  · simp [hnil] at h
  · simp only [hnil, if_false, Option.some.injEq] at h
    subst h
    exact ⟨hnil, c, hc, rfl⟩

theorem users_of_mem_sweptBusy {filp : Filp} {lastClose : Bool} {l : List PoolBuffer}
    {e : PoolBuffer} (he : e ∈ sweptBusy filp lastClose l) : e.users = [] := by
  obtain ⟨c, hc, h⟩ := List.mem_filterMap.mp he
  by_cases hnil : CmemState.keptUsers filp lastClose c.users = []
  · simp only [hnil, if_true, Option.some.injEq] at h
    exact h ▸ rfl
  · simp [hnil] at h

/-! ## The invariant -/

section
variable {w : ℕ} (L : CmemLayout w)

def heapBusy (s : CmemState) : Busy := fun bi =>
  match (L.block bi).heapPool with
  | none => []
  | some hp => (s.pObjs (bi, hp)).busylist.map PoolBuffer.virt

/-- What holds of the lists and the heaps whenever the mutex is free. -/
structure Inv (s : CmemState) : Prop where
  heaps : HeapsOk L s (heapBusy L s)
  heapPhys : ∀ id, L.isHeap id = true → ∀ e ∈ (s.pObjs id).busylist,
    e.physp = (L.block id.1).start + (e.kvirtp - (L.block id.1).virtp)
  heapOwn : ∀ id, L.isHeap id = true → (s.pObjs id).freelist.map PoolBuffer.phys = L.buffers id
  pools : ∀ id, L.isHeap id = false →
    (((s.pObjs id).freelist ++ (s.pObjs id).busylist).map PoolBuffer.phys).Perm (L.buffers id)
  freeUsers : ∀ id, ∀ e ∈ (s.pObjs id).freelist, e.users = []
  busyUsers : ∀ id, ∀ e ∈ (s.pObjs id).busylist, e.users ≠ []

variable {L} {s : CmemState}

theorem isHeap_iff {id : PoolId} :
    L.isHeap id = true ↔ (L.block id.1).heapPool = some id.2 := by
  simp [CmemConfig.isHeap]

theorem mem_walk_of_isHeap {id : PoolId} (h : L.isHeap id = true) : id ∈ L.walk := by
  have hpool := isHeap_iff.mp h
  have hlast := L.heap_pool id.1 id.2 hpool
  refine List.mem_flatMap.mpr ⟨id.1, List.mem_finRange id.1, ?_⟩
  refine List.mem_map.mpr ⟨id.2, List.mem_range.mpr ?_, rfl⟩
  simp [CmemConfig.numPools, hpool, hlast]

theorem mem_walk_of_lt {bi : BlockId} {i : ℕ} (hi : i < (L.block bi).npools) :
    (bi, i) ∈ L.walk := by
  refine List.mem_flatMap.mpr ⟨bi, List.mem_finRange bi, List.mem_map_of_mem ?_⟩
  have hle : (L.block bi).npools ≤ L.numPools bi := by
    rw [CmemConfig.numPools]
    split <;> omega
  exact List.mem_range.mpr (hi.trans_le hle)

@[simp] theorem setPool_self (s : CmemState) (id : PoolId) (p : PoolObject) :
    (s.setPool id p).pObjs id = p := by
  simp [CmemState.setPool]

theorem setPool_of_ne (s : CmemState) {id id' : PoolId} (h : id' ≠ id) (p : PoolObject) :
    (s.setPool id p).pObjs id' = s.pObjs id' := by
  simp [CmemState.setPool, Function.update_of_ne h]

theorem heapBusy_of_isHeap {id : PoolId} (h : L.isHeap id = true) (s : CmemState) :
    heapBusy L s id.1 = (s.pObjs id).busylist.map PoolBuffer.virt := by
  rw [heapBusy, isHeap_iff.mp h]

/-- A pool that is not a heap has no part in the busy buffers of the heaps. -/
theorem heapBusy_setPool {id : PoolId} (h : L.isHeap id = false) (p : PoolObject) :
    heapBusy L (s.setPool id p) = heapBusy L s := by
  funext bi
  rw [heapBusy, heapBusy]
  cases hp : (L.block bi).heapPool with
  | none => rfl
  | some hpool =>
    have hne : (bi, hpool) ≠ id := by
      rintro rfl
      rw [isHeap_iff.mpr hp] at h
      cases h
    simp [setPool_of_ne s hne]

theorem heapBusy_setPool_heap {id : PoolId} (h : L.isHeap id = true) (p : PoolObject) :
    heapBusy L (s.setPool id p) =
      Function.update (heapBusy L s) id.1 (p.busylist.map PoolBuffer.virt) := by
  funext bi
  by_cases hbi : bi = id.1
  · subst hbi
    rw [heapBusy_of_isHeap h, Function.update_self, setPool_self]
  · rw [Function.update_of_ne hbi, heapBusy, heapBusy]
    cases hp : (L.block bi).heapPool with
    | none => rfl
    | some hpool =>
      have hne : (bi, hpool) ≠ id := fun heq => hbi (congrArg Prod.fst heq)
      simp [setPool_of_ne s hne]

theorem Inv.setPool (hs : Inv L s) {id : PoolId} (hid : L.isHeap id = false) {p : PoolObject}
    (hpool : ((p.freelist ++ p.busylist).map PoolBuffer.phys).Perm (L.buffers id))
    (hfree : ∀ e ∈ p.freelist, e.users = []) (hbusy : ∀ e ∈ p.busylist, e.users ≠ []) :
    Inv L (s.setPool id p) := by
  have hother : ∀ id', id' ≠ id → (s.setPool id p).pObjs id' = s.pObjs id' := fun id' hne =>
    setPool_of_ne s hne p
  have hheap : ∀ id', L.isHeap id' = true → (s.setPool id p).pObjs id' = s.pObjs id' := by
    intro id' hid'
    refine hother id' fun heq => ?_
    rw [← heq, hid'] at hid
    cases hid
  constructor
  · rw [heapBusy_setPool hid]
    exact hs.heaps
  · intro id' hid'
    rw [hheap id' hid']
    exact hs.heapPhys id' hid'
  · intro id' hid'
    rw [hheap id' hid']
    exact hs.heapOwn id' hid'
  · intro id' hid'
    by_cases heq : id' = id
    · subst heq
      rw [setPool_self]
      exact hpool
    · rw [hother id' heq]
      exact hs.pools id' hid'
  · intro id'
    by_cases heq : id' = id
    · subst heq
      rw [setPool_self]
      exact hfree
    · rw [hother id' heq]
      exact hs.freeUsers id'
  · intro id'
    by_cases heq : id' = id
    · subst heq
      rw [setPool_self]
      exact hbusy
    · rw [hother id' heq]
      exact hs.busyUsers id'

/-- A change of the busy list of a heap, after a change of the heap itself. -/
theorem Inv.setHeapPool (hs : Inv L s) {s' : CmemState} (hpObjs : s'.pObjs = s.pObjs)
    {id : PoolId} (hid : L.isHeap id = true) {busy : List PoolBuffer}
    (hheaps : HeapsOk L s' (Function.update (heapBusy L s) id.1 (busy.map PoolBuffer.virt)))
    (hphys : ∀ e ∈ busy, e.physp = (L.block id.1).start + (e.kvirtp - (L.block id.1).virtp))
    (husers : ∀ e ∈ busy, e.users ≠ []) :
    Inv L (s'.setPool id { s.pObjs id with busylist := busy }) := by
  have hother : ∀ id', id' ≠ id → ∀ p, (s'.setPool id p).pObjs id' = s.pObjs id' :=
    fun id' hne p => by rw [setPool_of_ne s' hne, hpObjs]
  have hbusyEq : heapBusy L s' = heapBusy L s := by
    funext bi
    rw [heapBusy, heapBusy, hpObjs]
  constructor
  · rw [heapBusy_setPool_heap hid, hbusyEq]
    exact hheaps
  · intro id' hid'
    by_cases heq : id' = id
    · subst heq
      rw [setPool_self]
      exact hphys
    · rw [hother id' heq]
      exact hs.heapPhys id' hid'
  · intro id' hid'
    by_cases heq : id' = id
    · subst heq
      rw [setPool_self]
      exact hs.heapOwn id' hid'
    · rw [hother id' heq]
      exact hs.heapOwn id' hid'
  · intro id' hid'
    have hne : id' ≠ id := by
      rintro rfl
      rw [hid] at hid'
      cases hid'
    rw [hother id' hne]
    exact hs.pools id' hid'
  · intro id'
    by_cases heq : id' = id
    · subst heq
      rw [setPool_self]
      exact hs.freeUsers id'
    · rw [hother id' heq]
      exact hs.freeUsers id'
  · intro id'
    by_cases heq : id' = id
    · subst heq
      rw [setPool_self]
      exact husers
    · rw [hother id' heq]
      exact hs.busyUsers id'

theorem heapPool_ne_none {id : PoolId} (h : L.isHeap id = true) :
    (L.block id.1).heapPool ≠ none := by
  rw [isHeap_iff.mp h]
  exact Option.some_ne_none id.2

/-- The pool behind a busy buffer that is found, and the buffer in its busy list. -/
theorem findBusyEntry_some {physp : ℕ} {id : PoolId} {e : PoolBuffer}
    (h : s.findBusyEntry L.toCmemConfig physp = some (id, e)) :
    id ∈ L.walk ∧ (s.pObjs id).busylist.find? (fun e => e.physp = physp) = some e := by
  obtain ⟨id', hid', hfound⟩ := List.exists_of_findSome?_eq_some h
  obtain ⟨e', he', heq⟩ := Option.map_eq_some_iff.mp hfound
  obtain ⟨rfl, rfl⟩ := Prod.mk.inj heq
  exact ⟨hid', he'⟩

/-- To register or unregister a file at a busy buffer, as long as one is left. -/
theorem Inv.updateUsers (hs : Inv L s) (id : PoolId) (physp : ℕ)
    {f : List Filp → List Filp}
    (hf : ∀ e ∈ (s.pObjs id).busylist, e.physp = physp → f e.users ≠ []) :
    Inv L (s.setPool id { s.pObjs id with
      busylist := updateFirst physp (fun e => { e with users := f e.users })
        (s.pObjs id).busylist }) := by
  have husers : ∀ e ∈ updateFirst physp (fun e => { e with users := f e.users })
      (s.pObjs id).busylist, e.users ≠ [] := by
    intro e he
    rcases mem_updateFirst he with he | ⟨c, hc, hp, rfl⟩
    · exact hs.busyUsers id e he
    · exact hf c hc hp
  have hphys : (updateFirst physp (fun e => { e with users := f e.users })
      (s.pObjs id).busylist).map PoolBuffer.phys = (s.pObjs id).busylist.map PoolBuffer.phys :=
    map_updateFirst (f := fun e => { e with users := f e.users }) (fun _ => rfl) physp _
  cases hid : L.isHeap id with
  | false =>
    refine hs.setPool hid ?_ (hs.freeUsers id) husers
    have hperm := hs.pools id hid
    rw [List.map_append] at hperm ⊢
    rw [hphys]
    exact hperm
  | true =>
    refine hs.setHeapPool rfl hid ?_ (fun e he => ?_) husers
    · rw [map_updateFirst (f := fun e => { e with users := f e.users }) (fun _ => rfl),
        ← heapBusy_of_isHeap hid, Function.update_eq_self]
      exact hs.heaps
    · rcases mem_updateFirst he with he | ⟨c, hc, -, rfl⟩
      · exact hs.heapPhys id hid e he
      · exact hs.heapPhys id hid c hc

theorem Inv.giveBack (hs : Inv L s) {id : PoolId} {e : PoolBuffer}
    (he : (s.pObjs id).busylist.find? (fun c => c.physp = e.physp) = some e) :
    ∃ s', s.giveBack L.toCmemConfig id e = some s' ∧ Inv L s' := by
  have hperm := perm_removeFirst he
  have hrest : ∀ c ∈ removeFirst e.physp (s.pObjs id).busylist, c ∈ (s.pObjs id).busylist :=
    fun c hc => hperm.mem_iff.mpr (List.mem_cons_of_mem e hc)
  cases hid : L.isHeap id with
  | false =>
    refine ⟨_, by rw [CmemState.giveBack, hid]; rfl, hs.setPool hid ?_ (fun c hc => ?_)
      fun c hc => hs.busyUsers id c (hrest c hc)⟩
    · refine List.Perm.trans ?_ (hs.pools id hid)
      rw [List.map_append, List.map_append, List.map_cons, List.cons_append]
      exact (List.perm_middle.symm).trans ((hperm.symm.map PoolBuffer.phys).append_left _)
    · rcases List.mem_cons.mp hc with rfl | hc
      · rfl
      · exact hs.freeUsers id c hc
  | true =>
    have hbusy : (heapBusy L s id.1).Perm
        (e.virt :: (removeFirst e.physp (s.pObjs id).busylist).map PoolBuffer.virt) := by
      rw [heapBusy_of_isHeap hid]
      exact hperm.map PoolBuffer.virt
    obtain ⟨s', hrun, hpObjs, -, hheaps⟩ := hs.heaps.heapFree (heapPool_ne_none hid) hbusy
    have hfree : s.heapFree L.toCmemConfig id.1 e.kvirtp e.size = some s' := hrun
    refine ⟨_, by rw [CmemState.giveBack, hid, hfree]; rfl, hs.setHeapPool hpObjs hid hheaps
      (fun c hc => hs.heapPhys id hid c (hrest c hc)) fun c hc => hs.busyUsers id c (hrest c hc)⟩

/-- The loop over the busy buffers of a heap frees those that it does not keep. -/
theorem sweepHeap_eq (filp : Filp) (lastClose : Bool) {busy : Busy} {bi : BlockId}
    (hbi : (L.block bi).heapPool ≠ none) {l : List PoolBuffer} {others : List HeapBlock}
    (hs : HeapsOk L s (Function.update busy bi (l.map PoolBuffer.virt ++ others))) :
    ∃ s', CmemState.sweepHeap L.toCmemConfig filp lastClose bi l s =
        some (keptBusy filp lastClose l, s') ∧ s'.pObjs = s.pObjs ∧
      s'.referenceCount = s.referenceCount ∧
      HeapsOk L s' (Function.update busy bi
        ((keptBusy filp lastClose l).map PoolBuffer.virt ++ others)) := by
  induction l generalizing s others with
  | nil => exact ⟨s, rfl, rfl, rfl, hs⟩
  | cons e l ih =>
    rw [CmemState.sweepHeap, keptBusy]
    by_cases hnil : CmemState.keptUsers filp lastClose e.users = []
    · have hbusy : (Function.update busy bi ((e :: l).map PoolBuffer.virt ++ others) bi).Perm
          (e.virt :: (l.map PoolBuffer.virt ++ others)) := by simp
      obtain ⟨t, hrun, hpt, hct, ht⟩ := hs.heapFree hbi hbusy
      rw [Function.update_idem] at ht
      obtain ⟨s', hloop, hps, hcs, hs'⟩ := ih ht
      have hfree : s.heapFree L.toCmemConfig bi e.kvirtp e.size = some t := hrun
      refine ⟨s', ?_, hps.trans hpt, hcs.trans hct, ?_⟩
      · simp [hnil, hfree, hloop, keptBusy]
      · simpa [hnil, keptBusy] using hs'
    · have hmove : HeapsOk L s (Function.update busy bi
          (l.map PoolBuffer.virt ++ e.virt :: others)) := by
        refine hs.congr (fun _ => rfl) fun bj => ?_
        by_cases hbj : bj = bi
        · subst hbj
          rw [Function.update_self, Function.update_self]
          exact List.perm_middle.symm
        · rw [Function.update_of_ne hbj, Function.update_of_ne hbj]
      obtain ⟨s', hloop, hps, hcs, hs'⟩ := ih hmove
      refine ⟨s', ?_, hps, hcs, ?_⟩
      · simp [hnil, hloop, keptBusy]
      · refine hs'.congr (fun _ => rfl) fun bj => ?_
        by_cases hbj : bj = bi
        · subst hbj
          rw [Function.update_self, Function.update_self]
          simp only [hnil, if_false, List.filterMap_cons, List.map_cons, List.cons_append]
          exact List.perm_middle
        · rw [Function.update_of_ne hbj, Function.update_of_ne hbj]

theorem Inv.sweep (hs : Inv L s) (filp : Filp) (lastClose : Bool) (id : PoolId) :
    ∃ s', s.sweep L.toCmemConfig filp lastClose id = some s' ∧ Inv L s' ∧
      s'.referenceCount = s.referenceCount ∧ (∀ id', id' ≠ id → s'.pObjs id' = s.pObjs id') ∧
      (s'.pObjs id).busylist = keptBusy filp lastClose (s.pObjs id).busylist := by
  have hkept : ∀ e ∈ keptBusy filp lastClose (s.pObjs id).busylist, e.users ≠ [] := fun e he =>
    (users_of_mem_keptBusy he).1
  cases hid : L.isHeap id with
  | false =>
    have hinv : Inv L (s.setPool id { s.pObjs id with
        busylist := keptBusy filp lastClose (s.pObjs id).busylist
        freelist := (sweptBusy filp lastClose (s.pObjs id).busylist).reverse ++
          (s.pObjs id).freelist }) := by
      refine hs.setPool hid ?_ (fun e he => ?_) hkept
      · refine List.Perm.trans ?_ (hs.pools id hid)
        have hsweep := perm_sweep (g := PoolBuffer.phys) (fun _ _ => rfl) filp lastClose
          (s.pObjs id).busylist
        rw [List.map_append, List.map_append, List.map_append, List.map_reverse,
          List.append_assoc]
        refine ((List.reverse_perm _).append_right _).trans ?_
        refine (List.perm_append_comm_assoc _ _ _).trans ?_
        exact hsweep.symm.append_left _
      · rcases List.mem_append.mp he with he | he
        · exact users_of_mem_sweptBusy (List.mem_reverse.mp he)
        · exact hs.freeUsers id e he
    refine ⟨_, ?_, hinv, rfl, fun id' hne => setPool_of_ne s hne _, by rw [setPool_self]⟩
    rw [CmemState.sweep, hid]
    simp [sweepPool_eq]
  | true =>
    have hstart : HeapsOk L s (Function.update (heapBusy L s) id.1
        ((s.pObjs id).busylist.map PoolBuffer.virt ++ [])) := by
      rw [List.append_nil, ← heapBusy_of_isHeap hid, Function.update_eq_self]
      exact hs.heaps
    obtain ⟨t, hrun, hpt, hct, ht⟩ := sweepHeap_eq filp lastClose
      (heapPool_ne_none hid) hstart
    rw [List.append_nil] at ht
    have hinv := hs.setHeapPool hpt hid ht (fun e he => ?_) hkept
    · refine ⟨_, ?_, hinv, hct, fun id' hne => ?_, by rw [setPool_self]⟩
      · rw [CmemState.sweep, hid]
        simp [hrun]
      · rw [setPool_of_ne t hne, hpt]
    · obtain ⟨-, c, hc, rfl⟩ := users_of_mem_keptBusy he
      exact hs.heapPhys id hid c hc

/-- What does not touch the lists keeps the invariant if the heaps still track their buffers. -/
theorem Inv.of_heaps (hs : Inv L s) {s' : CmemState} (hpObjs : s'.pObjs = s.pObjs)
    (hheaps : HeapsOk L s' (heapBusy L s)) : Inv L s' where
  heaps := by
    have hbusy : heapBusy L s' = heapBusy L s := by
      funext bi
      rw [heapBusy, heapBusy, hpObjs]
    exact hbusy ▸ hheaps
  heapPhys := hpObjs ▸ hs.heapPhys
  heapOwn := hpObjs ▸ hs.heapOwn
  pools := hpObjs ▸ hs.pools
  freeUsers := hpObjs ▸ hs.freeUsers
  busyUsers := hpObjs ▸ hs.busyUsers

/-! ## The ioctls -/

theorem not_isHeap_of_lt {bi : BlockId} {i : ℕ} (hi : i < (L.block bi).npools) :
    L.isHeap (bi, i) = false := by
  refine Bool.eq_false_iff.mpr fun hheap => ?_
  exact hi.ne (L.heap_pool bi i (isHeap_iff.mp hheap))

theorem Inv.alloc (hs : Inv L s) (filp : Filp) (poolid : ℤ) (bi : BlockId) (flags : BitVec 32)
    (o : Outcomes) : Inv L (s.alloc L.toCmemConfig filp poolid bi flags o).2 := by
  rw [CmemState.alloc]
  split
  · exact hs
  · rename_i hrange
    have hid : L.isHeap (bi, poolid.toNat) = false := not_isHeap_of_lt (by omega)
    dsimp only
    split
    · exact hs
    · split
      · exact hs
      · rename_i entry rest hfree
        split
        · exact hs
        · refine hs.setPool hid ?_ (fun e he => ?_) fun e he => ?_
          · refine List.Perm.trans ?_ (hs.pools (bi, poolid.toNat) hid)
            rw [hfree, List.map_append, List.map_append, List.map_cons, List.map_cons,
              List.cons_append]
            exact List.perm_middle
          · exact hs.freeUsers (bi, poolid.toNat) e (hfree ▸ List.mem_cons_of_mem entry he)
          · rcases List.mem_cons.mp he with rfl | he
            · exact List.cons_ne_nil _ _
            · exact hs.busyUsers (bi, poolid.toNat) e he

theorem Inv.allocHeap (hs : Inv L s) (filp : Filp) {size align : ℕ} (bi : BlockId)
    (flags : BitVec 32) (o : Outcomes) (hreq : ProperRequest w size align) :
    ∃ r, s.allocHeap L.toCmemConfig filp size align bi flags o = some r ∧ Inv L r.2 := by
  rw [CmemState.allocHeap]
  cases hp : (L.block bi).heapPool with
  | none => exact ⟨_, rfl, hs⟩
  | some hpool =>
    have hid : L.isHeap (bi, hpool) = true := isHeap_iff.mpr hp
    have hbi : (L.block bi).heapPool ≠ none := heapPool_ne_none (L := L) hid
    dsimp only
    split
    · exact ⟨_, rfl, hs⟩
    · rcases hs.heaps.heapAlloc hbi hreq with hnull | ⟨virtp, s₁, hrun, hne, hin, hpObjs, -, hheaps⟩
      · rw [hnull]
        exact ⟨_, rfl, hs⟩
      · rw [hrun, Option.bind_some]
        simp only [hne, if_false]
        split
        · have hback : (Function.update (heapBusy L s) bi
              (⟨virtp, size⟩ :: heapBusy L s bi) bi).Perm (⟨virtp, size⟩ :: heapBusy L s bi) := by
            rw [Function.update_self]
          obtain ⟨s₂, hfree, hp₂, -, hheaps₂⟩ := hheaps.heapFree hbi hback
          rw [Function.update_idem, Function.update_eq_self] at hheaps₂
          have hundo : s₁.heapFree L.toCmemConfig bi virtp size = some s₂ := hfree
          rw [hundo]
          exact ⟨_, rfl, hs.of_heaps (hp₂.trans hpObjs) hheaps₂⟩
        · refine ⟨_, rfl, ?_⟩
          rw [hpObjs]
          refine hs.setHeapPool hpObjs hid ?_ (fun e he => ?_) fun e he => ?_
          · refine hheaps.congr (fun _ => rfl) fun bj => ?_
            by_cases hbj : bj = bi
            · subst hbj
              rw [Function.update_self, Function.update_self, heapBusy_of_isHeap hid,
                List.map_append]
              exact (List.perm_append_singleton _ _).symm
            · rw [Function.update_of_ne hbj, Function.update_of_ne hbj]
          · rcases List.mem_append.mp he with he | he
            · exact hs.heapPhys (bi, hpool) hid e he
            · rw [List.mem_singleton.mp he]
              exact L.getPhys_eq bi o.elsewhere (L.region_subset bi hbi hin)
          · rcases List.mem_append.mp he with he | he
            · exact hs.busyUsers (bi, hpool) e he
            · rw [List.mem_singleton.mp he]
              exact List.cons_ne_nil _ _

theorem Inv.free (hs : Inv L s) (filp : Filp) (physp : ℕ) (o : Outcomes) :
    ∃ r, s.free L.toCmemConfig filp physp o = some r ∧ Inv L r.2 := by
  rw [CmemState.free]
  split
  · exact ⟨_, rfl, hs⟩
  · cases hfound : s.findBusyEntry L.toCmemConfig physp with
    | none => exact ⟨_, rfl, hs⟩
    | some found =>
      obtain ⟨id, e⟩ := found
      obtain ⟨-, he⟩ := findBusyEntry_some hfound
      dsimp only
      split
      · exact ⟨_, rfl, hs⟩
      · split
        · have hphysp : e.physp = physp := by
            have hp := List.find?_some he
            simpa using hp
          have hfirst : (s.pObjs id).busylist.find? (fun c => c.physp = e.physp) = some e :=
            hphysp ▸ he
          obtain ⟨s', hrun, hinv⟩ := hs.giveBack hfirst
          rw [hrun]
          exact ⟨_, rfl, hinv⟩
        · rename_i hne
          exact ⟨_, rfl, hs.updateUsers id physp (f := fun _ => e.users.erase filp)
            fun _ _ _ => hne⟩

theorem Inv.regUser (hs : Inv L s) (filp : Filp) (physp : ℕ) (o : Outcomes) :
    Inv L (s.regUser L.toCmemConfig filp physp o).2 := by
  rw [CmemState.regUser]
  split
  · exact hs
  · cases hfound : s.findBusyEntry L.toCmemConfig physp with
    | none => exact hs
    | some found =>
      exact hs.updateUsers found.1 physp (f := fun users => filp :: users)
        fun _ _ _ => List.cons_ne_nil _ _

end

def ProperIoctl (w : ℕ) : Request → Prop
  | .allocHeap size align blockid _ => ProperRequest w size align ∧ 0 ≤ blockid
  | .getPool size blockid => ProperRequest w size heapAlign ∧ 0 ≤ blockid
  | .alloc _ blockid _ => 0 ≤ blockid
  | .getSize _ blockid => 0 ≤ blockid
  | _ => True

section
variable {w : ℕ} {L : CmemLayout w} {s : CmemState}

/-- A check of a block id that is not negative leaves the body for one of the blocks. -/
theorem checkBlock_cases {α : Type} {blockid : ℤ} (h : 0 ≤ blockid) (fail : Errno → α)
    (body : BlockId → Option α) :
    CmemState.checkBlock blockid fail body = some (fail .EINVAL) ∨
      ∃ bi, CmemState.checkBlock blockid fail body = body bi := by
  rw [CmemState.checkBlock]
  by_cases htwo : 2 ≤ blockid
  · exact .inl (if_pos htwo)
  · rw [if_neg htwo]
    by_cases hzero : blockid = 0
    · exact .inr ⟨0, if_pos hzero⟩
    · exact .inr ⟨1, by rw [if_neg hzero, if_pos (by omega)]⟩

theorem Inv.getPool (hs : Inv L s) {size : ℕ} (bi : BlockId) (o : Outcomes)
    (hreq : ProperRequest w size heapAlign) :
    ∃ r, s.getPool L.toCmemConfig size bi o = some r := by
  rw [CmemState.getPool]
  split
  · exact ⟨_, rfl⟩
  · dsimp only
    split
    · rename_i hheap
      obtain ⟨free, ht⟩ := hs.heaps bi hheap.2.1
      rw [CmemState.heapAlloc, L.fuel_eq bi hheap.2.1,
        heapMemAlloc_dryrun ht.holds ht.hi_lt ht.length_lt hreq]
      exact ⟨_, rfl⟩
    · exact ⟨_, rfl⟩

/-- Every proper ioctl returns, and it keeps the invariant. -/
theorem Inv.ioctl (hs : Inv L s) (filp : Filp) {req : Request} (o : Outcomes)
    (hreq : ProperIoctl w req) :
    ∃ r, s.ioctl L.toCmemConfig filp req o = some r ∧ Inv L r.2 := by
  unfold CmemState.ioctl
  dsimp only
  split
  · exact ⟨_, rfl, hs⟩
  · cases req with
    | allocHeap size align blockid flags =>
      rcases checkBlock_cases hreq.2 (fun e => (Except.error e, s))
        fun bi => s.allocHeap L.toCmemConfig filp size align bi flags o with h | ⟨bi, h⟩
      · exact ⟨_, h, hs⟩
      · obtain ⟨r, hr, hinv⟩ := hs.allocHeap filp bi flags o hreq.1
        exact ⟨r, h.trans hr, hinv⟩
    | alloc poolid blockid flags =>
      rcases checkBlock_cases hreq (fun e => (Except.error e, s))
        fun bi => some (s.alloc L.toCmemConfig filp poolid bi flags o) with h | ⟨bi, h⟩
      · exact ⟨_, h, hs⟩
      · exact ⟨_, h, hs.alloc filp poolid bi flags o⟩
    | freePhys physp => exact hs.free filp physp o
    | freeVirt virtp =>
      dsimp only
      split
      · exact ⟨_, rfl, hs⟩
      · exact hs.free filp _ o
    | regUser physp => exact ⟨_, rfl, hs.regUser filp physp o⟩
    | getPhys virtp =>
      dsimp only
      split
      · exact ⟨_, rfl, hs⟩
      · exact ⟨_, rfl, hs⟩
    | getSize poolid blockid =>
      rcases checkBlock_cases hreq (fun e => (Except.error e, s)) fun bi =>
        if (L.block bi).npools ≤ poolid ∨ poolid < 0 then some (.error .EINVAL, s)
        else some (CmemState.reply o (.size (s.pObjs (bi, poolid.toNat)).size), s) with
        h | ⟨bi, h⟩
      · exact ⟨_, h, hs⟩
      · by_cases hrange : (L.block bi).npools ≤ poolid ∨ poolid < 0
        · exact ⟨_, h.trans (if_pos hrange), hs⟩
        · exact ⟨_, h.trans (if_neg hrange), hs⟩
    | getPool size blockid =>
      rcases checkBlock_cases hreq.2 (fun e => (Except.error e, s)) fun bi =>
        (s.getPool L.toCmemConfig size bi o).map fun r => (r, s) with h | ⟨bi, h⟩
      · exact ⟨_, h, hs⟩
      · obtain ⟨r, hr⟩ := hs.getPool bi o hreq.1
        exact ⟨(r, s), h.trans (by rw [hr]; rfl), hs⟩
    | getBlock blockid =>
      dsimp only
      split
      · exact ⟨_, rfl, hs⟩
      · exact ⟨_, rfl, hs⟩
    | getNumBlocks => exact ⟨_, rfl, hs⟩

end
end BifrostModule.Cmem
