import BifrostModule.Foundation.Registry
import BifrostModule.Cmem.Buffers
import BifrostModule.Cmem.Frame

/-! # Registered files

A file is registered for the buffers that it allocated or asked to share. The registrations
are a registry of holders: an ioctl moves at most one of them, and a file keeps its own until
it frees the buffer or is released.
-/
namespace BifrostModule.Cmem
open Foundation

abbrev BufferKey := PoolId × HeapBlock

def usersOf (b : HeapBlock) (l : List PoolBuffer) : Multiset Filp :=
  ((l.filter fun e => e.phys = b).flatMap PoolBuffer.users : List Filp)

namespace CmemState

def holders (s : CmemState) (k : BufferKey) : Multiset Filp := usersOf k.2 (s.pObjs k.1).busylist

def registry (s : CmemState) (opened : Finset Filp) : Registry BufferKey Filp := ⟨s.holders, opened⟩

end CmemState

section
variable {b : HeapBlock} {l : List PoolBuffer} {e : PoolBuffer} {physp : ℕ}

theorem mem_usersOf {f : Filp} : f ∈ usersOf b l ↔ ∃ e ∈ l, e.phys = b ∧ f ∈ e.users := by
  simp [usersOf, and_assoc]

theorem usersOf_cons (b : HeapBlock) (e : PoolBuffer) (l : List PoolBuffer) :
    usersOf b (e :: l) = (if e.phys = b then (e.users : Multiset Filp) else 0) + usersOf b l := by
  by_cases h : e.phys = b
  · simp [usersOf, h]
  · simp [usersOf, h]

theorem usersOf_perm {l' : List PoolBuffer} (h : l.Perm l') : usersOf b l = usersOf b l' :=
  Multiset.coe_eq_coe.mpr ((h.filter _).flatMap_right _)

/-- A buffer whose memory does not meet that of any busy buffer has no files. -/
theorem usersOf_eq_zero (h : ∀ c ∈ l, Disjoint b.span.points c.phys.span.points) :
    usersOf b l = 0 := by
  refine Multiset.eq_zero_of_forall_notMem fun f hf => ?_
  obtain ⟨c, hc, rfl, -⟩ := mem_usersOf.mp hf
  have hmem := c.phys.span.lo_mem
  exact Set.disjoint_left.mp (h c hc) hmem hmem

theorem perm_updateFirst {g : PoolBuffer → PoolBuffer}
    (h : l.find? (fun e => e.physp = physp) = some e) :
    (updateFirst physp g l).Perm (g e :: removeFirst physp l) := by
  induction l with
  | nil => cases h
  | cons c l ih =>
    rw [List.find?_cons] at h
    rw [updateFirst]
    by_cases hc : c.physp = physp
    · simp only [hc, decide_true, Option.some.injEq] at h
      subst h
      simp [removeFirst, hc]
    · simp only [hc, decide_false] at h
      have hrest : removeFirst physp (c :: l) = c :: removeFirst physp l := by
        simp [removeFirst, hc]
      rw [if_neg hc, hrest]
      exact ((ih h).cons c).trans (List.Perm.swap (g e) c _)

/-- A sweep takes the files off each buffer that it does not keep there. -/
theorem usersOf_keptBusy (filp : Filp) (lastClose : Bool) (b : HeapBlock) (l : List PoolBuffer) :
    usersOf b (keptBusy filp lastClose l) =
      (usersOf b l).filter fun f => lastClose = false ∧ f ≠ filp := by
  induction l with
  | nil => rfl
  | cons e l ih =>
    have hkept : (CmemState.keptUsers filp lastClose e.users : Multiset Filp) =
        (e.users : Multiset Filp).filter fun f => lastClose = false ∧ f ≠ filp := by
      cases lastClose with
      | false => simp [CmemState.keptUsers]
      | true => simp [CmemState.keptUsers]
    have hcons : usersOf b (keptBusy filp lastClose (e :: l)) =
        (if e.phys = b then (CmemState.keptUsers filp lastClose e.users : Multiset Filp) else 0) +
          usersOf b (keptBusy filp lastClose l) := by
      by_cases hnil : CmemState.keptUsers filp lastClose e.users = []
      · simp [keptBusy, hnil]
      · rw [keptBusy, List.filterMap_cons]
        simp only [hnil, if_false]
        rw [usersOf_cons]
        rfl
    rw [hcons, usersOf_cons, Multiset.filter_add, ih, hkept]
    by_cases hb : e.phys = b
    · simp [hb]
    · simp [hb]

end

/-! ## What a step does to the registrations -/

def Request.freed {w : ℕ} (cfg : CmemConfig w) (o : Outcomes) : Request → Option ℕ
  | .freePhys physp => some physp
  | .freeVirt virtp => some (cfg.getPhys o.elsewhere virtp)
  | _ => none

inductive Request.Shows {w : ℕ} (cfg : CmemConfig w) (filp : Filp) (o : Outcomes) (req : Request) :
    Registry.Event BufferKey Filp → Prop where
  | idle : Shows cfg filp o req .idle
  | acquire (k : BufferKey) : Shows cfg filp o req (.acquire k filp)
  | share (k : BufferKey) : Shows cfg filp o req (.share k filp)
  | drop (k : BufferKey) (h : req.freed cfg o = some k.2.addr) : Shows cfg filp o req (.drop k filp)

inductive CmemStep.Shows {w : ℕ} (cfg : CmemConfig w) :
    CmemStep → Registry.Event BufferKey Filp → Prop where
  | openFile (filp : Filp) : Shows cfg (.openFile filp) (.enter filp)
  | ioctl {filp : Filp} {req : Request} {o : Outcomes} {e : Registry.Event BufferKey Filp}
      (h : req.Shows cfg filp o e) : Shows cfg (.ioctl filp req o) e
  | release (filp : Filp) : Shows cfg (.release filp) (.leave filp)
  | sweep (filp : Filp) (locked : Bool) : Shows cfg (.sweep filp locked) .forget
  | write (mem : ℕ → HeapMemHeader) : Shows cfg (.write mem) .idle

section
variable {w : ℕ} {L : CmemLayout w} {s t : CmemState} {filp : Filp} {opened : Finset Filp}

theorem holders_of_pObjs (h : t.pObjs = s.pObjs) : t.holders = s.holders := by
  funext k
  rw [CmemState.holders, h, CmemState.holders]

/-- Only the buffers of a pool notice a change of its busy list. -/
theorem holders_setPool (hs : t.pObjs = s.pObjs) {id : PoolId} {p : PoolObject} {b : HeapBlock}
    {m : Multiset Filp} (hself : usersOf b p.busylist = m)
    (hother : ∀ c ≠ b, usersOf c p.busylist = usersOf c (s.pObjs id).busylist) :
    (t.setPool id p).holders = Function.update s.holders (id, b) m := by
  funext k
  obtain ⟨id', c⟩ := k
  by_cases hid : id' = id
  · subst hid
    by_cases hc : c = b
    · subst hc
      rw [Function.update_self, CmemState.holders, setPool_self]
      exact hself
    · have hne : ((id', c) : BufferKey) ≠ (id', b) := fun heq => hc (congrArg Prod.snd heq)
      rw [Function.update_of_ne hne, CmemState.holders, setPool_self]
      exact hother c hc
  · have hne : ((id', c) : BufferKey) ≠ (id, b) := fun heq => hid (congrArg Prod.fst heq)
    rw [Function.update_of_ne hne, CmemState.holders, setPool_of_ne t hid, hs]
    rfl

theorem registry_acquire (ht : t.pObjs = s.pObjs) {id : PoolId} (hid : id ∈ L.walk)
    {p : PoolObject} {e : PoolBuffer} (hinv : Inv L (t.setPool id p))
    (hbusy : p.busylist.Perm (e :: (s.pObjs id).busylist)) (husers : e.users = [filp])
    (hf : filp ∈ opened) :
    (s.registry opened).Step (.acquire (id, e.phys) filp) ((t.setPool id p).registry opened) := by
  have hapart := hinv.busy_pairwise hid
  rw [setPool_self] at hapart
  have hnew := (List.pairwise_cons.mp (hbusy.pairwise hapart fun h => h.symm)).1
  have hzero : usersOf e.phys (s.pObjs id).busylist = 0 := usersOf_eq_zero hnew
  have hholders : (t.setPool id p).holders = Function.update s.holders (id, e.phys) {filp} := by
    refine holders_setPool ht ?_ fun c hc => ?_
    · rw [usersOf_perm hbusy, usersOf_cons, if_pos rfl, hzero, husers]
      rfl
    · rw [usersOf_perm hbusy, usersOf_cons, if_neg hc.symm, zero_add]
  rw [CmemState.registry, CmemState.registry, hholders]
  exact .acquire hf hzero

theorem alloc_registry (hs : Inv L s) (poolid : ℤ) (bi : BlockId) (flags : BitVec 32)
    (o : Outcomes) (req : Request) (hf : filp ∈ opened) :
    ∃ e, req.Shows L.toCmemConfig filp o e ∧ (s.registry opened).Step e
      ((s.alloc L.toCmemConfig filp poolid bi flags o).2.registry opened) := by
  have hinv := hs.alloc filp poolid bi flags o
  rw [CmemState.alloc] at hinv ⊢
  split
  · exact ⟨_, .idle, .idle⟩
  · rename_i hrange
    rw [if_neg hrange] at hinv
    dsimp only at hinv ⊢
    split
    · exact ⟨_, .idle, .idle⟩
    · rename_i hlocked
      rw [if_neg hlocked] at hinv
      cases hfree : (s.pObjs (bi, poolid.toNat)).freelist with
      | nil => exact ⟨_, .idle, .idle⟩
      | cons entry rest =>
        simp only [hfree] at hinv ⊢
        split
        · exact ⟨_, .idle, .idle⟩
        · rename_i hcopy
          rw [if_neg hcopy] at hinv
          refine ⟨_, .acquire _, registry_acquire (L := L) rfl ?_ hinv (List.Perm.refl _) ?_ hf⟩
          · exact mem_walk_of_lt (by omega)
          · have hnil := hs.freeUsers (bi, poolid.toNat) entry (hfree ▸ List.mem_cons_self)
            simp [hnil]

theorem allocHeap_registry (hs : Inv L s) {size align : ℕ} (bi : BlockId) (flags : BitVec 32)
    (o : Outcomes) (hreq : ProperRequest w size align) (req : Request) (hf : filp ∈ opened)
    {r : Except Errno Reply × CmemState}
    (h : s.allocHeap L.toCmemConfig filp size align bi flags o = some r) :
    ∃ e, req.Shows L.toCmemConfig filp o e ∧
      (s.registry opened).Step e (r.2.registry opened) := by
  obtain ⟨r', hr', hinv⟩ := hs.allocHeap filp bi flags o hreq
  rw [h] at hr'
  cases hr'
  have hidle : ∀ t : CmemState, t.pObjs = s.pObjs →
      ∃ e, req.Shows L.toCmemConfig filp o e ∧
        (s.registry opened).Step e (t.registry opened) := by
    intro t ht
    refine ⟨_, .idle, ?_⟩
    rw [CmemState.registry, CmemState.registry, holders_of_pObjs ht]
    exact .idle
  rw [CmemState.allocHeap] at h
  cases hp : (L.block bi).heapPool with
  | none =>
    rw [hp] at h
    cases h
    exact hidle s rfl
  | some hpool =>
    have hid : L.isHeap (bi, hpool) = true := isHeap_iff.mpr hp
    simp only [hp] at h
    split at h
    · cases h
      exact hidle s rfl
    · obtain ⟨⟨virtp, t⟩, halloc, h⟩ := Option.bind_eq_some_iff.mp h
      have hpObjs : t.pObjs = s.pObjs := by
        obtain ⟨found, -, heq⟩ := Option.map_eq_some_iff.mp halloc
        obtain ⟨-, rfl⟩ := Prod.mk.inj heq
        rfl
      dsimp only at h
      split at h
      · cases h
        exact hidle t hpObjs
      · split at h
        · obtain ⟨u, hfree, rfl⟩ := Option.map_eq_some_iff.mp h
          obtain ⟨heap, -, rfl⟩ := Option.map_eq_some_iff.mp hfree
          exact hidle _ hpObjs
        · cases h
          let e : PoolBuffer := ⟨hpool, L.getPhys o.elsewhere virtp, flags, virtp, size, [filp]⟩
          have hbusy : ((t.pObjs (bi, hpool)).busylist ++ [e]).Perm
              (e :: (s.pObjs (bi, hpool)).busylist) := by
            rw [hpObjs]
            exact List.perm_append_comm
          exact ⟨_, .acquire _, registry_acquire hpObjs (mem_walk_of_isHeap hid) hinv hbusy rfl hf⟩

theorem giveBack_holders {id : PoolId} {entry : PoolBuffer}
    (hfound : (s.pObjs id).busylist.find? (fun c => c.physp = entry.physp) = some entry)
    (husers : entry.users = [filp]) (h : s.giveBack L.toCmemConfig id entry = some t) :
    t.holders = Function.update s.holders (id, entry.phys)
      ((s.holders (id, entry.phys)).erase filp) := by
  have hperm := perm_removeFirst hfound
  have hself : usersOf entry.phys (removeFirst entry.physp (s.pObjs id).busylist) =
      (s.holders (id, entry.phys)).erase filp := by
    rw [CmemState.holders, usersOf_perm hperm, usersOf_cons, if_pos rfl, husers]
    simp
  have hother : ∀ c ≠ entry.phys,
      usersOf c (removeFirst entry.physp (s.pObjs id).busylist) =
        usersOf c (s.pObjs id).busylist := by
    intro c hc
    rw [usersOf_perm hperm, usersOf_cons, if_neg hc.symm, zero_add]
  rw [CmemState.giveBack] at h
  split at h
  · obtain ⟨u, hfree, rfl⟩ := Option.map_eq_some_iff.mp h
    obtain ⟨heap, -, rfl⟩ := Option.map_eq_some_iff.mp hfree
    exact holders_setPool rfl hself hother
  · cases h
    exact holders_setPool rfl hself hother

theorem updateUsers_holders {id : PoolId} {entry : PoolBuffer} {users : List Filp}
    (hfound : (s.pObjs id).busylist.find? (fun c => c.physp = entry.physp) = some entry)
    {f : List Filp → List Filp} (hf : f entry.users = users) :
    (s.setPool id { s.pObjs id with
      busylist := updateFirst entry.physp (fun e => { e with users := f e.users })
        (s.pObjs id).busylist }).holders = Function.update s.holders (id, entry.phys)
      (users + usersOf entry.phys (removeFirst entry.physp (s.pObjs id).busylist)) := by
  have hperm := perm_updateFirst (g := fun e => { e with users := f e.users }) hfound
  have hphys : PoolBuffer.phys { entry with users := f entry.users } = entry.phys := rfl
  refine holders_setPool rfl ?_ fun c hc => ?_
  · rw [usersOf_perm hperm, usersOf_cons, hphys, if_pos rfl, hf]
  · rw [usersOf_perm hperm, usersOf_cons, hphys, if_neg hc.symm, zero_add,
      usersOf_perm (perm_removeFirst hfound), usersOf_cons, if_neg hc.symm, zero_add]

theorem free_registry {physp : ℕ} {o : Outcomes} {req : Request} (hf : filp ∈ opened)
    (hreq : req.freed L.toCmemConfig o = some physp) {r : Except Errno Reply × CmemState}
    (h : s.free L.toCmemConfig filp physp o = some r) :
    ∃ e, req.Shows L.toCmemConfig filp o e ∧
      (s.registry opened).Step e (r.2.registry opened) := by
  rw [CmemState.free] at h
  split at h
  · cases h
    exact ⟨_, .idle, .idle⟩
  · cases hfound : s.findBusyEntry L.toCmemConfig physp with
    | none =>
      rw [hfound] at h
      cases h
      exact ⟨_, .idle, .idle⟩
    | some found =>
      obtain ⟨id, entry⟩ := found
      obtain ⟨hid, hentry⟩ := findBusyEntry_some hfound
      have hphysp : entry.physp = physp := by simpa using List.find?_some hentry
      subst hphysp
      simp only [hfound] at h
      split at h
      · cases h
        exact ⟨_, .idle, .idle⟩
      · rename_i hmem
        rw [not_not] at hmem
        have hheld : filp ∈ s.holders (id, entry.phys) :=
          mem_usersOf.mpr ⟨entry, List.mem_of_find?_eq_some hentry, rfl, hmem⟩
        refine ⟨.drop (id, entry.phys) filp, .drop _ hreq, ?_⟩
        have hdrop : ∀ t : CmemState, t.holders = Function.update s.holders (id, entry.phys)
            ((s.holders (id, entry.phys)).erase filp) →
            (s.registry opened).Step (.drop (id, entry.phys) filp) (t.registry opened) := by
          intro t ht
          rw [CmemState.registry, CmemState.registry, ht]
          exact .drop hf hheld
        split at h
        · rename_i hnil
          obtain ⟨t, hback, rfl⟩ := Option.map_eq_some_iff.mp h
          have hsingle : entry.users = [filp] := by
            have hperm := List.perm_cons_erase hmem
            rw [hnil] at hperm
            exact List.perm_singleton.mp hperm
          exact hdrop t (giveBack_holders hentry hsingle hback)
        · cases h
          refine hdrop _ ?_
          rw [updateUsers_holders hentry (f := fun _ => entry.users.erase filp) rfl,
            CmemState.holders, usersOf_perm (perm_removeFirst hentry), usersOf_cons, if_pos rfl,
            Multiset.erase_add_left_pos _ (Multiset.mem_coe.mpr hmem), Multiset.coe_erase]

theorem regUser_registry {physp : ℕ} {o : Outcomes} {req : Request} (hf : filp ∈ opened)
    (hs : Inv L s) :
    ∃ e, req.Shows L.toCmemConfig filp o e ∧ (s.registry opened).Step e
      ((s.regUser L.toCmemConfig filp physp o).2.registry opened) := by
  rw [CmemState.regUser]
  split
  · exact ⟨_, .idle, .idle⟩
  · cases hfound : s.findBusyEntry L.toCmemConfig physp with
    | none => exact ⟨_, .idle, .idle⟩
    | some found =>
      obtain ⟨id, entry⟩ := found
      obtain ⟨-, hentry⟩ := findBusyEntry_some hfound
      have hphysp : entry.physp = physp := by simpa using List.find?_some hentry
      subst hphysp
      have hheld : s.holders (id, entry.phys) ≠ 0 := by
        obtain ⟨f, hmem⟩ := List.exists_mem_of_ne_nil _
          (hs.busyUsers id entry (List.mem_of_find?_eq_some hentry))
        have hin : f ∈ s.holders (id, entry.phys) :=
          mem_usersOf.mpr ⟨entry, List.mem_of_find?_eq_some hentry, rfl, hmem⟩
        exact fun hzero => Multiset.notMem_zero f (hzero ▸ hin)
      refine ⟨.share (id, entry.phys) filp, .share _, ?_⟩
      have hholders := updateUsers_holders hentry (f := fun users => filp :: users) rfl
      have hcons : ((filp :: entry.users : List Filp) : Multiset Filp) +
          usersOf entry.phys (removeFirst entry.physp (s.pObjs id).busylist) =
            filp ::ₘ s.holders (id, entry.phys) := by
        rw [CmemState.holders, usersOf_perm (perm_removeFirst hentry), usersOf_cons, if_pos rfl,
          ← Multiset.cons_coe, Multiset.cons_add]
      rw [hcons] at hholders
      rw [CmemState.registry, CmemState.registry, hholders]
      exact .share hf hheld

theorem ioctl_registry (hs : Inv L s) {req : Request} {o : Outcomes} (hreq : ProperIoctl w req)
    (hf : filp ∈ opened) {r : Except Errno Reply × CmemState}
    (h : s.ioctl L.toCmemConfig filp req o = some r) :
    ∃ e, req.Shows L.toCmemConfig filp o e ∧
      (s.registry opened).Step e (r.2.registry opened) := by
  unfold CmemState.ioctl at h
  dsimp only at h
  split at h
  · cases h
    exact ⟨_, .idle, .idle⟩
  · cases req with
    | allocHeap size align blockid flags =>
      rcases checkBlock_cases hreq.2 (fun e => (Except.error e, s))
        fun bi => s.allocHeap L.toCmemConfig filp size align bi flags o with hb | ⟨bi, hb⟩
      · cases hb.symm.trans h
        exact ⟨_, .idle, .idle⟩
      · exact allocHeap_registry hs bi flags o hreq.1 _ hf (hb.symm.trans h)
    | alloc poolid blockid flags =>
      rcases checkBlock_cases hreq (fun e => (Except.error e, s))
        fun bi => some (s.alloc L.toCmemConfig filp poolid bi flags o) with hb | ⟨bi, hb⟩
      · cases hb.symm.trans h
        exact ⟨_, .idle, .idle⟩
      · cases hb.symm.trans h
        exact alloc_registry hs poolid bi flags o _ hf
    | freePhys physp => exact free_registry hf rfl h
    | freeVirt virtp =>
      dsimp only at h
      split at h
      · cases h
        exact ⟨_, .idle, .idle⟩
      · exact free_registry hf rfl h
    | regUser physp =>
      cases h
      exact regUser_registry hf hs
    | getPhys virtp =>
      dsimp only at h
      split at h
      · cases h
        exact ⟨_, .idle, .idle⟩
      · cases h
        exact ⟨_, .idle, .idle⟩
    | getSize poolid blockid =>
      rcases checkBlock_cases hreq (fun e => (Except.error e, s)) fun bi =>
        if (L.block bi).npools ≤ poolid ∨ poolid < 0 then some (.error .EINVAL, s)
        else some (CmemState.reply o (.size (s.pObjs (bi, poolid.toNat)).size), s) with
        hb | ⟨bi, hb⟩
      · cases hb.symm.trans h
        exact ⟨_, .idle, .idle⟩
      · have h := hb.symm.trans h
        split at h
        · cases h
          exact ⟨_, .idle, .idle⟩
        · cases h
          exact ⟨_, .idle, .idle⟩
    | getPool size blockid =>
      rcases checkBlock_cases hreq.2 (fun e => (Except.error e, s)) fun bi =>
        (s.getPool L.toCmemConfig size bi o).map fun r => (r, s) with hb | ⟨bi, hb⟩
      · cases hb.symm.trans h
        exact ⟨_, .idle, .idle⟩
      · obtain ⟨reply, -, rfl⟩ := Option.map_eq_some_iff.mp (hb.symm.trans h)
        exact ⟨_, .idle, .idle⟩
    | getBlock blockid =>
      dsimp only at h
      split at h
      · cases h
        exact ⟨_, .idle, .idle⟩
      · cases h
        exact ⟨_, .idle, .idle⟩
    | getNumBlocks =>
      cases h
      exact ⟨_, .idle, .idle⟩

/-- A sweep forgets the file that it is for, and with the last close all files. -/
theorem sweep_holders (hs : Inv L s) {lastClose : Bool} {id : PoolId}
    (h : s.sweep L.toCmemConfig filp lastClose id = some t) (k : BufferKey) :
    t.holders k = if k.1 = id then
      (s.holders k).filter fun f => lastClose = false ∧ f ≠ filp else s.holders k := by
  obtain ⟨t', ht', -, -, hother, hbusy⟩ := hs.sweep filp lastClose id
  rw [h] at ht'
  cases ht'
  obtain ⟨id', b⟩ := k
  by_cases hid : id' = id
  · subst hid
    rw [if_pos rfl, CmemState.holders, hbusy, usersOf_keptBusy]
    rfl
  · rw [if_neg hid, CmemState.holders, hother id' hid]
    rfl

end

/-! ## Runs -/

namespace CmemRun

/-- No file is opened as long as the last close of the files before it is under way. -/
def Quiet (w : ℕ) (s : CmemRun) (a : CmemStep) : Prop :=
  Proper w s a ∧ ∀ filp, a = .openFile filp → ∀ f c, s.closing f = some c → c.lastClose = false

/-- The count is that of the open files, a file that is being released is not open, and neither is
any other during the last close. -/
structure Counted (s : CmemRun) : Prop where
  count : s.state.referenceCount = s.opened.card
  left : ∀ f, s.closing f ≠ none → f ∉ s.opened
  last : ∀ f c, s.closing f = some c → c.lastClose = true → s.opened = ∅

section
variable {w : ℕ} {L : CmemLayout w} {s t : CmemRun} {a : CmemStep}

theorem Counted.start (hs : Start L s) : Counted s where
  count := by simp [hs.count, hs.opened]
  left := fun f hf => absurd (hs.closing f) hf
  last := fun f c hc => by simp [hs.closing f] at hc

theorem Counted.step (hs : Counted s) (hok : Quiet w s a)
    (h : s.step L.toCmemConfig a = some t) : Counted t := by
  cases a with
  | openFile filp =>
    rw [CmemRun.step] at h
    split at h
    · cases h
    · rename_i hnew
      rw [not_or, not_not] at hnew
      cases h
      refine ⟨?_, fun f hf hmem => ?_, fun f c hc hlast => ?_⟩
      · simp [hs.count, Finset.card_insert_of_notMem hnew.1]
      · rcases Finset.mem_insert.mp hmem with rfl | hmem
        · exact hf hnew.2
        · exact hs.left f hf hmem
      · have hopen := hok.2 filp rfl f c hc
        rw [hlast] at hopen
        cases hopen
  | ioctl filp req o =>
    rw [CmemRun.step] at h
    split at h
    · obtain ⟨r, hr, rfl⟩ := Option.map_eq_some_iff.mp h
      exact ⟨(ioctl_frame hr).count.trans hs.count, hs.left, hs.last⟩
    · cases h
  | release filp =>
    rw [CmemRun.step] at h
    split at h
    · rename_i hmem
      cases h
      have hcard : s.opened.card = (s.opened.erase filp).card + 1 :=
        (Finset.card_erase_add_one hmem).symm
      have hcount : s.state.referenceCount - 1 = (s.opened.erase filp).card := by
        rw [hs.count, hcard]
        simp
      refine ⟨hcount, fun f hf => ?_, fun f c hc hlast => ?_⟩
      · by_cases hfilp : f = filp
        · subst hfilp
          exact Finset.notMem_erase f s.opened
        · dsimp only at hf ⊢
          rw [Function.update_of_ne hfilp] at hf
          exact fun hin => hs.left f hf (Finset.mem_of_mem_erase hin)
      · dsimp only at hc ⊢
        by_cases hfilp : f = filp
        · subst hfilp
          rw [Function.update_self] at hc
          cases hc
          have hzero : (s.opened.erase f).card = 0 := by
            have hdec := of_decide_eq_true hlast
            omega
          exact Finset.card_eq_zero.mp hzero
        · rw [Function.update_of_ne hfilp] at hc
          have hempty := hs.last f c hc hlast
          rw [hempty] at hmem
          cases hmem
    · cases h
  | sweep filp locked =>
    have hclosing : ∀ (closing : Option Closing),
        (∀ c, closing = some c → ∃ c', s.closing filp = some c' ∧ c.lastClose = c'.lastClose) →
        ∀ f c, Function.update s.closing filp closing f = some c →
          ∃ c', s.closing f = some c' ∧ c.lastClose = c'.lastClose := by
      intro closing hsame f c hc
      by_cases hfilp : f = filp
      · subst hfilp
        rw [Function.update_self] at hc
        exact hsame c hc
      · rw [Function.update_of_ne hfilp] at hc
        exact ⟨c, hc, rfl⟩
    have hend : ∀ (state : CmemState) (closing : Option Closing),
        state.referenceCount = s.state.referenceCount →
        (∀ c, closing = some c → ∃ c', s.closing filp = some c' ∧ c.lastClose = c'.lastClose) →
        Counted { s with
          state := state
          closing := Function.update s.closing filp closing } := by
      intro state closing hcount hsame
      refine ⟨hcount.trans hs.count, fun f hf => ?_, fun f c hc hlast => ?_⟩
      · obtain ⟨c, hc⟩ := Option.ne_none_iff_exists'.mp hf
        obtain ⟨c', hc', -⟩ := hclosing closing hsame f c hc
        exact hs.left f (hc' ▸ Option.some_ne_none c')
      · obtain ⟨c', hc', heq⟩ := hclosing closing hsame f c hc
        exact hs.last f c' hc' (heq ▸ hlast)
    rw [CmemRun.step] at h
    split at h
    · cases h
    · cases h
      exact hend s.state none rfl fun c hc => by cases hc
    · rename_i lastClose id todo hfilp
      split at h
      · cases h
        exact hend s.state none rfl fun c hc => by cases hc
      · obtain ⟨state, hstate, rfl⟩ := Option.map_eq_some_iff.mp h
        refine hend state _ ((sweep_frame hstate).count) fun c hc => ?_
        cases hc
        exact ⟨_, hfilp, rfl⟩
  | write mem =>
    cases h
    exact ⟨hs.count, hs.left, hs.last⟩

theorem counted_of_reachable (hs : (machine L).ReachableUnder (Quiet w) s) :
    Inv L s.state ∧ Counted s :=
  hs.invariant (I := fun s => Inv L s.state ∧ Counted s)
    (fun _ (h : Start L _) => ⟨h.loaded.inv, .start h⟩)
    fun _ _ _ hi hok h => ⟨Inv.step hi.1 hok.1 h, Counted.step hi.2 hok h⟩

theorem step_registry (hs : Counted s) (hinv : Inv L s.state) (hok : Quiet w s a)
    (h : s.step L.toCmemConfig a = some t) :
    ∃ e, a.Shows L.toCmemConfig e ∧
      (s.state.registry s.opened).Step e (t.state.registry t.opened) := by
  cases a with
  | openFile filp =>
    rw [CmemRun.step] at h
    split at h
    · cases h
    · rename_i hnew
      rw [not_or] at hnew
      cases h
      exact ⟨_, .openFile filp, .enter hnew.1⟩
  | ioctl filp req o =>
    rw [CmemRun.step] at h
    split at h
    · rename_i hmem
      obtain ⟨r, hr, rfl⟩ := Option.map_eq_some_iff.mp h
      obtain ⟨e, hshows, hstep⟩ := ioctl_registry hinv hok.1 hmem hr
      exact ⟨e, .ioctl hshows, hstep⟩
    · cases h
  | release filp =>
    rw [CmemRun.step] at h
    split at h
    · rename_i hmem
      cases h
      exact ⟨_, .release filp, .leave hmem⟩
    · cases h
  | sweep filp locked =>
    refine ⟨_, .sweep filp locked, ?_⟩
    rw [CmemRun.step] at h
    split at h
    · cases h
    · cases h
      exact .forget (fun k => le_rfl) fun k f hf => rfl
    · rename_i lastClose id todo hfilp
      split at h
      · cases h
        exact .forget (fun k => le_rfl) fun k f hf => rfl
      · obtain ⟨state, hstate, rfl⟩ := Option.map_eq_some_iff.mp h
        have hholders := sweep_holders hinv hstate
        refine .forget (fun k => ?_) fun k f hf => ?_
        · rw [hholders k]
          split
          · exact Multiset.filter_le _ _
          · exact le_rfl
        · -- An open file is neither the one that is being released nor one of a last close.
          have hne : f ≠ filp := by
            rintro rfl
            exact hs.left f (hfilp ▸ Option.some_ne_none _) hf
          have hopen : lastClose = false := by
            by_contra hlast
            have hempty := hs.last filp _ hfilp (Bool.eq_true_of_not_eq_false hlast)
            rw [CmemState.registry] at hf
            simp [hempty] at hf
          rw [hholders k]
          split
          · exact (Multiset.count_filter_of_pos ⟨hopen, hne⟩).symm
          · rfl
  | write mem =>
    cases h
    exact ⟨_, .write mem, .idle⟩

theorem run_registry {as : List CmemStep} (hs : (machine L).ReachableUnder (Quiet w) s)
    (h : (machine L).RunUnder (Quiet w) s as t) :
    ∃ es, List.Forall₂ (CmemStep.Shows L.toCmemConfig) as es ∧
      Registry.Run (s.state.registry s.opened) es (t.state.registry t.opened) := by
  induction h with
  | nil => exact ⟨[], .nil, .nil _⟩
  | cons hok hstep _ ih =>
    obtain ⟨hinv, hcounted⟩ := counted_of_reachable hs
    obtain ⟨e, hshows, he⟩ := step_registry hcounted hinv hok hstep
    obtain ⟨es, hrest, hrun⟩ := ih (.step hs hok hstep)
    exact ⟨e :: es, .cons hshows hrest, .cons he hrun⟩

/-- A file stays registered for a buffer until it frees the buffer itself or is released, whatever
the other files do: the buffer stays busy at its place. -/
theorem registration_kept {as : List CmemStep} (hs : (machine L).ReachableUnder (Quiet w) s)
    (h : (machine L).RunUnder (Quiet w) s as t) {filp : Filp} (hopen : filp ∈ s.opened)
    {id : PoolId} {e : PoolBuffer} (he : e ∈ (s.state.pObjs id).busylist) (huser : filp ∈ e.users)
    (hfree : ∀ req o, CmemStep.ioctl filp req o ∈ as →
      req.freed L.toCmemConfig o ≠ some e.physp)
    (hrelease : CmemStep.release filp ∉ as) :
    filp ∈ t.opened ∧
      ∃ c ∈ (t.state.pObjs id).busylist, c.phys = e.phys ∧ filp ∈ c.users := by
  obtain ⟨es, hshows, hrun⟩ := run_registry hs h
  have hlabel : ∀ ev ∈ es, ∃ a ∈ as, a.Shows L.toCmemConfig ev := by
    intro ev hev
    obtain ⟨i, hi, rfl⟩ := List.getElem_of_mem hev
    have hlen := hshows.length_eq
    exact ⟨as[i], List.getElem_mem _, hshows.get (by omega) hi⟩
  have hkept := hrun.count_le (k := (id, e.phys)) (f := filp) hopen
    (fun ev hev heq => by
      obtain ⟨a, ha, hshow⟩ := hlabel ev hev
      subst heq
      cases hshow with
      | ioctl hreq =>
        cases hreq with
        | drop k hdrop => exact hfree _ _ ha hdrop)
    fun ev hev heq => by
      obtain ⟨a, ha, hshow⟩ := hlabel ev hev
      subst heq
      cases hshow with
      | ioctl hreq => cases hreq
      | release filp => exact hrelease ha
  have hbefore : filp ∈ s.state.holders (id, e.phys) := mem_usersOf.mpr ⟨e, he, rfl, huser⟩
  have hafter : filp ∈ t.state.holders (id, e.phys) :=
    Multiset.count_pos.mp ((Multiset.count_pos.mpr hbefore).trans_le hkept.2)
  exact ⟨hkept.1, mem_usersOf.mp hafter⟩

def onePoolOpened : CmemRun :=
  ⟨{ onePoolLoaded with referenceCount := 0 + 1 + 1 }, insert 8 (insert 7 ∅), fun _ => none⟩

theorem quiet_of_ne {w : ℕ} {s : CmemRun} {a : CmemStep} (hok : Proper w s a)
    (hne : ∀ filp, a ≠ .openFile filp) : Quiet w s a :=
  ⟨hok, fun filp h => absurd h (hne filp)⟩

theorem reachable_onePoolOpened :
    (machine onePoolLayout).ReachableUnder (Quiet 32) onePoolOpened := by
  have hquiet : ∀ s : CmemRun, (∀ f, s.closing f = none) → ∀ filp, Quiet 32 s (.openFile filp) :=
    fun s hs filp => ⟨trivial, fun _ _ f c hc => by rw [hs f] at hc; cases hc⟩
  have hfirst : (machine onePoolLayout).ReachableUnder (Quiet 32)
      ⟨{ onePoolLoaded with referenceCount := 0 + 1 }, insert 7 ∅, fun _ => none⟩ :=
    .step (a := .openFile 7) (.start start_onePool) (hquiet _ (fun _ => rfl) 7) rfl
  exact .step (a := .openFile 8) hfirst (hquiet _ (fun _ => rfl) 8) rfl

theorem registration_kept_two : ∃ s t,
    (machine onePoolLayout).ReachableUnder (Quiet 32) s ∧
    (machine onePoolLayout).RunUnder (Quiet 32) s
      [.ioctl 8 (.freePhys 12288) served, .release 8] t ∧
    7 ∈ t.opened ∧
      ∃ c ∈ (t.state.pObjs (0, 0)).busylist, c.phys = ⟨12288, 4096⟩ ∧ 7 ∈ c.users := by
  have hrun : ((machine onePoolLayout).exec onePoolOpened
      [.ioctl 7 (.alloc 0 0 0#32) served]).bind (fun s => ((machine onePoolLayout).exec s
        [.ioctl 8 (.freePhys 12288) served, .release 8]).map fun _ =>
          (s.opened, (s.state.pObjs (0, 0)).busylist.map fun e => (e.phys, e.users))) =
      some (insert 8 (insert 7 ∅), [(⟨12288, 4096⟩, [7])]) := rfl
  obtain ⟨s, hs, hrest⟩ := Option.bind_eq_some_iff.mp hrun
  obtain ⟨t, ht, hinfo⟩ := Option.map_eq_some_iff.mp hrest
  obtain ⟨hopened, hbusy⟩ := Prod.mk.inj hinfo
  have hmem : ((⟨12288, 4096⟩, [7]) : HeapBlock × List Filp) ∈
      (s.state.pObjs (0, 0)).busylist.map fun e => (e.phys, e.users) :=
    hbusy ▸ List.mem_singleton_self _
  obtain ⟨e, he, heq⟩ := List.mem_map.mp hmem
  obtain ⟨hphys, husers⟩ := Prod.mk.inj heq
  have hreach : (machine onePoolLayout).ReachableUnder (Quiet 32) s := by
    refine Machine.ReachableUnder.of_exec reachable_onePoolOpened (fun a ha u => ?_) hs
    rw [List.mem_singleton.mp ha]
    exact quiet_of_ne (show (0 : ℤ) ≤ 0 from le_rfl) (by simp)
  have hsteps : (machine onePoolLayout).RunUnder (Quiet 32) s
      [.ioctl 8 (.freePhys 12288) served, .release 8] t := by
    refine Machine.RunUnder.of_exec (fun a ha u => ?_) ht
    simp only [List.mem_cons, List.not_mem_nil, or_false] at ha
    rcases ha with rfl | rfl
    · exact quiet_of_ne trivial (by simp)
    · exact quiet_of_ne trivial (by simp)
  have hopen : 7 ∈ s.opened := by
    rw [hopened]
    decide
  have huser : 7 ∈ e.users := by
    rw [husers]
    decide
  have hkept := registration_kept hreach hsteps hopen he huser (by simp) (by simp)
  rw [hphys] at hkept
  exact ⟨s, t, hreach, hsteps, hkept⟩

end
end CmemRun
end BifrostModule.Cmem
