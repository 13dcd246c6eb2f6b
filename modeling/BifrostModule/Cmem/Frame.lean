import BifrostModule.Cmem.Driver

/-! # What no ioctl changes

The ioctls and `release` move buffers between lists. The sizes of the pools and the number of
open files stay as they are.
-/
namespace BifrostModule.Cmem
open Foundation

structure Frame (s t : CmemState) : Prop where
  count : t.referenceCount = s.referenceCount
  numbufs : ∀ id, (t.pObjs id).numbufs = (s.pObjs id).numbufs
  size : ∀ id, (t.pObjs id).size = (s.pObjs id).size
  reqsize : ∀ id, (t.pObjs id).reqsize = (s.pObjs id).reqsize

theorem Frame.refl (s : CmemState) : Frame s s := ⟨rfl, fun _ => rfl, fun _ => rfl, fun _ => rfl⟩

theorem Frame.trans {s t u : CmemState} (h : Frame s t) (h' : Frame t u) : Frame s u where
  count := h'.count.trans h.count
  numbufs := fun id => (h'.numbufs id).trans (h.numbufs id)
  size := fun id => (h'.size id).trans (h.size id)
  reqsize := fun id => (h'.reqsize id).trans (h.reqsize id)

theorem Frame.setHeap (s : CmemState) (bi : BlockId) (h : HeapMem) : Frame s (s.setHeap bi h) :=
  ⟨rfl, fun _ => rfl, fun _ => rfl, fun _ => rfl⟩

theorem Frame.setPool (s : CmemState) (id : PoolId) (freelist busylist : List PoolBuffer) :
    Frame s (s.setPool id { s.pObjs id with freelist := freelist, busylist := busylist }) := by
  have hpool : ∀ {α : Type} (f : PoolObject → α), (∀ p fl bl, f { p with
      freelist := fl, busylist := bl } = f p) → ∀ id', f ((s.setPool id { s.pObjs id with
        freelist := freelist, busylist := busylist }).pObjs id') = f (s.pObjs id') := by
    intro α f hf id'
    by_cases hid : id' = id
    · subst hid
      simp only [CmemState.setPool, Function.update_self]
      exact hf _ _ _
    · simp only [CmemState.setPool, Function.update_of_ne hid]
  exact ⟨rfl, hpool PoolObject.numbufs fun _ _ _ => rfl, hpool PoolObject.size fun _ _ _ => rfl,
    hpool PoolObject.reqsize fun _ _ _ => rfl⟩

section
variable {w : ℕ} {cfg : CmemConfig w} {s t : CmemState} {filp : Filp}

/-- A change of the lists of a pool behind a change that keeps all pools. -/
theorem Frame.setPool_of_eq (h : Frame s t) (hpools : t.pObjs = s.pObjs) (id : PoolId)
    (freelist busylist : List PoolBuffer) :
    Frame s (t.setPool id { s.pObjs id with freelist := freelist, busylist := busylist }) := by
  rw [← hpools]
  exact h.trans (.setPool t id freelist busylist)

theorem heapAlloc_frame {bi : BlockId} {size align : ℕ} {dryrun : Bool} {r : ℕ × CmemState}
    (h : s.heapAlloc cfg bi size align dryrun = some r) : Frame s r.2 ∧ r.2.pObjs = s.pObjs := by
  obtain ⟨found, -, rfl⟩ := Option.map_eq_some_iff.mp h
  exact ⟨.setHeap s bi _, rfl⟩

theorem heapFree_frame {bi : BlockId} {addr size : ℕ}
    (h : s.heapFree cfg bi addr size = some t) : Frame s t ∧ t.pObjs = s.pObjs := by
  obtain ⟨found, -, rfl⟩ := Option.map_eq_some_iff.mp h
  exact ⟨.setHeap s bi _, rfl⟩

theorem checkBlock_eq_some {α : Type} {blockid : ℤ} {fail : Errno → α}
    {body : BlockId → Option α} {r : α} (h : CmemState.checkBlock blockid fail body = some r) :
    r = fail .EINVAL ∨ ∃ bi, body bi = some r := by
  rw [CmemState.checkBlock] at h
  split at h
  · exact .inl (Option.some.inj h).symm
  · split at h
    · exact .inr ⟨0, h⟩
    · split at h
      · exact .inr ⟨1, h⟩
      · cases h

theorem allocHeap_frame {size align : ℕ} {bi : BlockId} {flags : BitVec 32} {o : Outcomes}
    {r : Except Errno Reply × CmemState}
    (h : s.allocHeap cfg filp size align bi flags o = some r) : Frame s r.2 := by
  rw [CmemState.allocHeap] at h
  split at h
  · cases h
    exact .refl s
  · split at h
    · cases h
      exact .refl s
    · obtain ⟨⟨virtp, u⟩, halloc, h⟩ := Option.bind_eq_some_iff.mp h
      have hu := (heapAlloc_frame halloc).1
      dsimp only at h hu
      split at h
      · cases h
        exact hu
      · split at h
        · obtain ⟨v, hfree, rfl⟩ := Option.map_eq_some_iff.mp h
          exact hu.trans (heapFree_frame hfree).1
        · cases h
          exact hu.trans (.setPool u _ _ _)

theorem alloc_frame (cfg : CmemConfig w) (s : CmemState) (filp : Filp) (poolid : ℤ) (bi : BlockId)
    (flags : BitVec 32) (o : Outcomes) : Frame s (s.alloc cfg filp poolid bi flags o).2 := by
  rw [CmemState.alloc]
  split
  · exact .refl s
  · dsimp only
    split
    · exact .refl s
    · split
      · exact .refl s
      · split
        · exact .refl s
        · exact .setPool s _ _ _

theorem giveBack_frame {id : PoolId} {entry : PoolBuffer} (h : s.giveBack cfg id entry = some t) :
    Frame s t := by
  rw [CmemState.giveBack] at h
  split at h
  · obtain ⟨u, hfree, rfl⟩ := Option.map_eq_some_iff.mp h
    have hu := heapFree_frame hfree
    exact hu.1.setPool_of_eq hu.2 id _ _
  · cases h
    exact .setPool s id _ _

theorem free_frame {physp : ℕ} {o : Outcomes} {r : Except Errno Reply × CmemState}
    (h : s.free cfg filp physp o = some r) : Frame s r.2 := by
  rw [CmemState.free] at h
  split at h
  · cases h
    exact .refl s
  · split at h
    · cases h
      exact .refl s
    · split at h
      · cases h
        exact .refl s
      · dsimp only at h
        split at h
        · obtain ⟨u, hback, rfl⟩ := Option.map_eq_some_iff.mp h
          exact giveBack_frame hback
        · cases h
          exact .setPool s _ _ _

theorem regUser_frame (cfg : CmemConfig w) (s : CmemState) (filp : Filp) (physp : ℕ)
    (o : Outcomes) : Frame s (s.regUser cfg filp physp o).2 := by
  rw [CmemState.regUser]
  split
  · exact .refl s
  · split
    · exact .refl s
    · exact .setPool s _ _ _

theorem ioctl_frame {req : Request} {o : Outcomes} {r : Except Errno Reply × CmemState}
    (h : s.ioctl cfg filp req o = some r) : Frame s r.2 := by
  unfold CmemState.ioctl at h
  dsimp only at h
  split at h
  · cases h
    exact .refl s
  · cases req with
    | allocHeap size align blockid flags =>
      rcases checkBlock_eq_some h with rfl | ⟨bi, hbody⟩
      · exact .refl s
      · exact allocHeap_frame hbody
    | alloc poolid blockid flags =>
      rcases checkBlock_eq_some h with rfl | ⟨bi, hbody⟩
      · exact .refl s
      · cases hbody
        exact alloc_frame cfg s filp poolid bi flags o
    | freePhys physp => exact free_frame h
    | freeVirt virtp =>
      dsimp only at h
      split at h
      · cases h
        exact .refl s
      · exact free_frame h
    | regUser physp =>
      cases h
      exact regUser_frame cfg s filp physp o
    | getPhys virtp =>
      dsimp only at h
      split at h
      · cases h
        exact .refl s
      · cases h
        exact .refl s
    | getSize poolid blockid =>
      rcases checkBlock_eq_some h with rfl | ⟨bi, hbody⟩
      · exact .refl s
      · split at hbody
        · cases hbody
          exact .refl s
        · cases hbody
          exact .refl s
    | getPool size blockid =>
      rcases checkBlock_eq_some h with rfl | ⟨bi, hbody⟩
      · exact .refl s
      · obtain ⟨reply, -, rfl⟩ := Option.map_eq_some_iff.mp hbody
        exact .refl s
    | getBlock blockid =>
      dsimp only at h
      split at h
      · cases h
        exact .refl s
      · cases h
        exact .refl s
    | getNumBlocks =>
      cases h
      exact .refl s

theorem sweepHeap_frame {lastClose : Bool} {bi : BlockId} {l : List PoolBuffer}
    {r : List PoolBuffer × CmemState} (h : CmemState.sweepHeap cfg filp lastClose bi l s = some r) :
    Frame s r.2 ∧ r.2.pObjs = s.pObjs := by
  induction l generalizing s r with
  | nil =>
    cases h
    exact ⟨.refl s, rfl⟩
  | cons e l ih =>
    rw [CmemState.sweepHeap] at h
    split at h
    · obtain ⟨u, hfree, hrest⟩ := Option.bind_eq_some_iff.mp h
      have hu := heapFree_frame hfree
      have hr := ih hrest
      exact ⟨hu.1.trans hr.1, hr.2.trans hu.2⟩
    · obtain ⟨r', hrest, rfl⟩ := Option.map_eq_some_iff.mp h
      have hr := ih hrest
      exact hr

theorem sweep_frame {lastClose : Bool} {id : PoolId}
    (h : s.sweep cfg filp lastClose id = some t) : Frame s t := by
  rw [CmemState.sweep] at h
  split at h
  · obtain ⟨r, hloop, rfl⟩ := Option.map_eq_some_iff.mp h
    have hr := sweepHeap_frame hloop
    exact hr.1.setPool_of_eq hr.2 id _ _
  · cases h
    exact .setPool s id _ _

end
end BifrostModule.Cmem
