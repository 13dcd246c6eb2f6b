import BifrostModule.Foundation.Carving
import BifrostModule.Cmem.Init
import BifrostModule.Cmem.Runs

/-! # How the blocks are carved

`cmem_init` cuts the buffers of the pools off the end of a block, one after the other, as
long as they fit. Each pool and the heap get consecutive pieces.
-/
namespace BifrostModule.Cmem
open Foundation

def PoolBuffer.place (e : PoolBuffer) : ℕ × ℕ := (e.physp, e.size)

/-- What the kernel promises: regions that are granted do not overlap, mappings start at a page if
the memory does, and they neither overlap nor reach the end of the words. -/
structure Services.Honest (sv : Services) : Prop where
  regions : ∀ bi bj start start' length length', bi ≠ bj →
    sv.requestMemRegion bi start length = true → sv.requestMemRegion bj start' length' = true →
      Disjoint (Set.Ico start (start + length)) (Set.Ico start' (start' + length'))
  mapping : ∀ bi start length, pageSize ∣ start → sv.ioremap bi start length ≠ 0 →
    pageSize ∣ sv.ioremap bi start length ∧ sv.ioremap bi start length + length < 2 ^ 32
  mappings : ∀ bi bj start start' length length', bi ≠ bj →
    sv.ioremap bi start length ≠ 0 → sv.ioremap bj start' length' ≠ 0 →
      Disjoint (Set.Ico (sv.ioremap bi start length) (sv.ioremap bi start length + length))
        (Set.Ico (sv.ioremap bj start' length') (sv.ioremap bj start' length' + length'))

structure Mapped (sv : Services) (block : BlockId → CmemBlock) (bi : BlockId) (length : ℕ) :
    Prop where
  start_pos : 0 < (block bi).start
  start_paged : pageSize ∣ (block bi).start
  length_paged : pageSize ∣ length
  region : sv.requestMemRegion bi (block bi).start length = true
  stop_eq : (block bi).stop = (block bi).start + length
  stop_lt : (block bi).start + length < 2 ^ 32
  virtp_eq : (block bi).virtp = sv.ioremap bi (block bi).start length
  virtp_pos : 0 < (block bi).virtp
  virtp_paged : pageSize ∣ (block bi).virtp
  virtoff_eq : (block bi).virtoff = subWord 32 (block bi).virtp (block bi).start
  virtend_eq : (block bi).virtend = (block bi).virtp + length
  virtend_lt : (block bi).virtp + length < 2 ^ 32

def Alone (block : BlockId → CmemBlock) (bi : BlockId) : Prop :=
  ∀ bj, bj ≠ bi → Disjoint (Set.Ico (block bi).virtp (block bi).virtend)
    (Set.Ico (block bj).virtp (block bj).virtend)

theorem Mapped.alone {sv : Services} (hsv : sv.Honest) {block : BlockId → CmemBlock} {bi : BlockId}
    {length : ℕ} (hm : Mapped sv block bi length)
    (hother : ∀ bj, bj ≠ bi → (block bj).virtend = 0 ∨ ∃ length', Mapped sv block bj length') :
    Alone block bi := by
  intro bj hne
  rcases hother bj hne with hnone | ⟨length', hm'⟩
  · rw [hnone, Set.Ico_eq_empty (Nat.not_lt_zero _)]
    exact Set.disjoint_empty _
  · rw [hm.virtend_eq, hm'.virtend_eq, hm.virtp_eq, hm'.virtp_eq]
    refine hsv.mappings bi bj _ _ _ _ hne.symm ?_ ?_
    · exact hm.virtp_eq ▸ hm.virtp_pos.ne'
    · exact hm'.virtp_eq ▸ hm'.virtp_pos.ne'

/-- A pool with all its buffers free, cut off below `top`. -/
def PoolAt (s : InitState) (id : PoolId) (top num reqsize : ℕ) : Prop :=
  ∃ free : List PoolBuffer, s.pObjs id = some ⟨free, [], num, pageAlign reqsize, reqsize⟩ ∧
    free.map PoolBuffer.place = carve top (List.replicate num (pageAlign reqsize)) ∧
    ∀ e ∈ free, e.users = []

def poolBytes (pools : List (ℕ × ℕ)) : ℕ := (pools.map fun p => p.1 * pageAlign p.2).sum

/-- The pools of a block from pool `i` on, below each other. -/
def PoolsAt (s : InitState) (bi : BlockId) : ℕ → ℕ → List (ℕ × ℕ) → Prop
  | _, _, [] => True
  | top, i, (num, size) :: pools =>
    PoolAt s (bi, i) top num size ∧ PoolsAt s bi (top - num * pageAlign size) (i + 1) pools

namespace InitState

def withPool (s : InitState) (id : PoolId) (avail : ℕ) (p : PoolObject) : InitState :=
  { s with
    avail := Function.update s.avail id.1 avail
    pObjs := Function.update s.pObjs id (some p) }

section
variable (s : InitState) (id : PoolId) (avail : ℕ) (p : PoolObject)

@[simp] theorem withPool_block : (s.withPool id avail p).block = s.block := rfl

@[simp] theorem withPool_avail : (s.withPool id avail p).avail id.1 = avail :=
  Function.update_self _ _ _

@[simp] theorem withPool_pObjs : (s.withPool id avail p).pObjs id = some p :=
  Function.update_self _ _ _

@[simp] theorem withPool_withPool (avail' : ℕ) (p' : PoolObject) :
    (s.withPool id avail p).withPool id avail' p' = s.withPool id avail' p' := by
  simp [withPool]

end

variable {sv : Services} {s t : InitState} {id : PoolId} {bi : BlockId} {length : ℕ}

theorem getPhys_eq (hm : Mapped sv s.block bi length) (hal : Alone s.block bi)
    (elsewhere : ℕ → ℕ) {d : ℕ} (hd : d < length) :
    (s.config false).getPhys elsewhere ((s.block bi).virtp + d) = (s.block bi).start + d := by
  have hin : (s.block bi).virtp + d ∈ Set.Ico (s.block bi).virtp (s.block bi).virtend := by
    rw [hm.virtend_eq]
    exact ⟨Nat.le_add_right _ d, Nat.add_lt_add_left hd _⟩
  have hvend := hm.virtend_eq
  have hvlt := hm.virtend_lt
  have hslt := hm.stop_lt
  have hphys : (s.config false).getPhys elsewhere ((s.block bi).virtp + d) =
      (s.block bi).start + ((s.block bi).virtp + d - (s.block bi).virtp) := getPhys_of_mem hin
    (fun bj hne hother => Set.disjoint_left.mp (hal bj hne) hin hother) hm.virtoff_eq
    (by change (s.block bi).virtend < _; omega)
    (by change (s.block bi).start + ((s.block bi).virtend - (s.block bi).virtp) < _; omega)
  rw [hphys]
  omega

theorem allocPoolBuffer_eq (hm : Mapped sv s.block bi length) (hle : s.avail bi ≤ length) {size : ℕ}
    (hsize : 0 < size) : s.allocPoolBuffer bi size =
      if size ≤ s.avail bi then ((s.block bi).virtp + (s.avail bi - size),
        { s with avail := Function.update s.avail bi (s.avail bi - size) })
      else (0, s) := by
  have hvlt := hm.virtend_lt
  rw [allocPoolBuffer]
  by_cases hfit : size ≤ s.avail bi
  · rw [if_pos hfit, if_pos hfit]
    dsimp only
    rw [addWord_eq (by omega)]
  · rw [if_neg hfit, if_neg hfit]

/-- The loop of `alloc_pool` cuts its buffers off one below the other. -/
theorem allocPoolLoop_ok {size n i : ℕ} {p : PoolObject} {vs : List ℕ}
    (hm : Mapped sv s.block id.1 length) (hal : Alone s.block id.1)
    (hle : s.avail id.1 ≤ length) (hsize : 0 < size) (hp : s.pObjs id = some p)
    (h : allocPoolLoop sv id size n i s = .ok (vs, t)) :
    n * size ≤ s.avail id.1 ∧
    (∃ new, t = s.withPool id (s.avail id.1 - n * size)
        { p with freelist := p.freelist ++ new } ∧
      new.map PoolBuffer.place =
        carve ((s.block id.1).start + s.avail id.1) (List.replicate n size) ∧
      ∀ e ∈ new, e.users = []) ∧
    vs = (carve ((s.block id.1).virtp + s.avail id.1) (List.replicate n size)).map Prod.fst := by
  induction n generalizing i s p vs with
  | zero =>
    cases h
    refine ⟨by omega, ⟨[], ?_, rfl, by simp⟩, rfl⟩
    simp [withPool, ← hp]
  | succ n ih =>
    rw [allocPoolLoop, allocPoolBuffer_eq hm hle hsize] at h
    cases hk : sv.kmalloc id i with
    | none =>
      rw [hk] at h
      cases h
    | some raw =>
      simp only [hk] at h
      by_cases hfit : size ≤ s.avail id.1
      · have hv : (s.block id.1).virtp + (s.avail id.1 - size) ≠ 0 := by
          have hpos := hm.virtp_pos
          omega
        have hphys := getPhys_eq hm hal sv.elsewhere (d := s.avail id.1 - size) (by omega)
        simp only [hfit, if_true, hv, if_false] at h
        obtain ⟨⟨vs', t'⟩, hrest, hq⟩ := map_eq_ok h
        obtain ⟨rfl, rfl⟩ := Prod.mk.inj hq
        let entry : PoolBuffer := { raw with
          id := i
          physp := (s.block id.1).start + (s.avail id.1 - size)
          size := size
          users := [] }
        have hnext : allocPoolLoop sv id size n (i + 1) (s.withPool id (s.avail id.1 - size)
            { p with freelist := p.freelist ++ [entry] }) = .ok (vs', t') := by
          rw [← hrest, hp]
          congr 1
          simp only [withPool, setPool, entry, ← hphys]
          rfl
        obtain ⟨hn, ⟨new, ht, hplace, husers⟩, hvs⟩ := ih (by simpa using hm) (by simpa using hal)
          (by rw [withPool_avail]; omega) (withPool_pObjs _ _ _ _) hnext
        rw [withPool_avail] at hn ht hplace hvs
        rw [withPool_block] at hplace hvs
        have hmul : (n + 1) * size = n * size + size := Nat.succ_mul n size
        refine ⟨by omega, ⟨entry :: new, ?_, ?_, ?_⟩, ?_⟩
        · rw [ht, withPool_withPool, hmul]
          simp [Nat.sub_sub, Nat.add_comm]
        · rw [List.replicate_succ, carve_cons, List.map_cons, hplace]
          simp only [PoolBuffer.place, entry, Nat.add_sub_assoc hfit]
        · intro e he
          rcases List.mem_cons.mp he with rfl | he
          · rfl
          · exact husers e he
        · rw [List.replicate_succ, carve_cons, List.map_cons, hvs, Nat.add_sub_assoc hfit]
      · simp [hfit] at h

/-- With enough bytes and memory for the entries the loop succeeds. -/
theorem allocPoolLoop_isOk {size n i : ℕ} (hm : Mapped sv s.block id.1 length)
    (hle : s.avail id.1 ≤ length) (hsize : 0 < size) (hkmalloc : ∀ i, sv.kmalloc id i ≠ none)
    (hfit : n * size ≤ s.avail id.1) : ∃ r, allocPoolLoop sv id size n i s = .ok r := by
  induction n generalizing i s with
  | zero => exact ⟨_, rfl⟩
  | succ n ih =>
    obtain ⟨raw, hraw⟩ := Option.ne_none_iff_exists'.mp (hkmalloc i)
    have hmul : (n + 1) * size = n * size + size := Nat.succ_mul n size
    have hone : size ≤ s.avail id.1 := by omega
    have hv : (s.block id.1).virtp + (s.avail id.1 - size) ≠ 0 := by
      have hpos := hm.virtp_pos
      omega
    rw [allocPoolLoop, allocPoolBuffer_eq hm hle hsize]
    simp only [hraw, hone, if_true, hv, if_false]
    let next := s.withPool id (s.avail id.1 - size) { (s.pObjs id).getD ⟨[], [], 0, 0, 0⟩ with
      freelist := ((s.pObjs id).getD ⟨[], [], 0, 0, 0⟩).freelist ++ [{ raw with
        id := i
        physp := (s.config false).getPhys sv.elsewhere
          ((s.block id.1).virtp + (s.avail id.1 - size))
        size := size
        users := [] }] }
    obtain ⟨r, hr⟩ := ih (s := next) (i := i + 1) hm (by simp only [next, withPool_avail]; omega)
      (by simp only [next, withPool_avail]; omega)
    have hmap := congrArg (Except.map fun q : List ℕ × InitState =>
      (((s.block id.1).virtp + (s.avail id.1 - size)) :: q.1, q.2)) hr
    exact ⟨_, hmap⟩

theorem pageAlign_dvd (x : ℕ) : pageSize ∣ pageAlign x := Dvd.intro_left _ rfl

theorem allocPool_ok (id : PoolId) {num reqsize : ℕ} {vs : List ℕ}
    (hm : Mapped sv s.block id.1 length) (hal : Alone s.block id.1)
    (hle : s.avail id.1 ≤ length) (hnum : num < 2 ^ 31)
    (hsize : 0 < pageAlign reqsize) (h : s.allocPool sv id num reqsize = .ok (vs, t)) :
    num * pageAlign reqsize ≤ s.avail id.1 ∧
    PoolAt t id ((s.block id.1).start + s.avail id.1) num reqsize ∧
    (∃ p, t = s.withPool id (s.avail id.1 - num * pageAlign reqsize) p) ∧
    vs = (carve ((s.block id.1).virtp + s.avail id.1)
      (List.replicate num (pageAlign reqsize))).map Prod.fst := by
  rw [allocPool, if_pos hnum] at h
  have hpool : (s.setPool id ⟨[], [], num, pageAlign reqsize, reqsize⟩).pObjs id =
      some ⟨[], [], num, pageAlign reqsize, reqsize⟩ := Function.update_self _ _ _
  obtain ⟨hfit, ⟨new, ht, hplace, husers⟩, hvs⟩ :=
    allocPoolLoop_ok (s := s.setPool id ⟨[], [], num, pageAlign reqsize, reqsize⟩) hm hal hle hsize
      hpool h
  have ht' : t = s.withPool id (s.avail id.1 - num * pageAlign reqsize)
      ⟨new, [], num, pageAlign reqsize, reqsize⟩ := by
    rw [ht]
    simp only [withPool, setPool, Function.update_idem, List.nil_append]
  refine ⟨hfit, ⟨new, ?_, hplace, husers⟩, ⟨_, ht'⟩, hvs⟩
  rw [ht', withPool_pObjs]

theorem allocPool_isOk (id : PoolId) {num reqsize : ℕ} (hm : Mapped sv s.block id.1 length)
    (hle : s.avail id.1 ≤ length) (hnum : num < 2 ^ 31) (hsize : 0 < pageAlign reqsize)
    (hkmalloc : ∀ i, sv.kmalloc id i ≠ none) (hfit : num * pageAlign reqsize ≤ s.avail id.1) :
    ∃ r, s.allocPool sv id num reqsize = .ok r := by
  rw [allocPool, if_pos hnum]
  exact allocPoolLoop_isOk (s := s.setPool id ⟨[], [], num, pageAlign reqsize, reqsize⟩) hm hle
    hsize hkmalloc hfit

end InitState

/-! ## The pools of a block -/

/-- The number and the size of the buffers that the text of a pool names. -/
def readPool (t : List Char) : Option (ℕ × ℕ) :=
  (splitPool t).map fun p => (strtolDecimal p.1, strtolDecimal p.2)

/-- Neither the number of the buffers of a pool is negative nor their size 0. -/
structure SanePool (p : ℕ × ℕ) : Prop where
  num : p.1 < 2 ^ 31
  size : 0 < pageAlign p.2

/-- What `n` pools of a block from `i` on leave as it is. -/
structure Carving (s t : InitState) (bi : BlockId) (i n : ℕ) : Prop where
  block : t.block = s.block
  memRegion : t.memRegion = s.memRegion
  mapped : t.mapped = s.mapped
  heapHead : t.heapHead = s.heapHead
  mem : t.mem = s.mem
  nblocks : t.nblocks = s.nblocks
  chrdev : t.chrdev = s.chrdev
  avail : ∀ bj, bj ≠ bi → t.avail bj = s.avail bj
  pObjs : ∀ id : PoolId, id.1 ≠ bi ∨ id.2 < i ∨ i + n ≤ id.2 → t.pObjs id = s.pObjs id

theorem Carving.refl (s : InitState) (bi : BlockId) (i : ℕ) : Carving s s bi i 0 where
  block := rfl
  memRegion := rfl
  mapped := rfl
  heapHead := rfl
  mem := rfl
  nblocks := rfl
  chrdev := rfl
  avail := fun _ _ => rfl
  pObjs := fun _ _ => rfl

theorem Carving.trans {s t u : InitState} {bi : BlockId} {i n : ℕ} (h : Carving s t bi i 1)
    (h' : Carving t u bi (i + 1) n) : Carving s u bi i (n + 1) where
  block := h'.block.trans h.block
  memRegion := h'.memRegion.trans h.memRegion
  mapped := h'.mapped.trans h.mapped
  heapHead := h'.heapHead.trans h.heapHead
  mem := h'.mem.trans h.mem
  nblocks := h'.nblocks.trans h.nblocks
  chrdev := h'.chrdev.trans h.chrdev
  avail := fun bj hne => (h'.avail bj hne).trans (h.avail bj hne)
  pObjs := fun id hid =>
    (h'.pObjs id (hid.imp_right (by omega))).trans (h.pObjs id (hid.imp_right (by omega)))

theorem Carving.withPool (s : InitState) (bi : BlockId) (i avail total : ℕ) (p : PoolObject) :
    Carving s { s.withPool (bi, i) avail p with
      totalNumBuffers := Function.update (s.withPool (bi, i) avail p).totalNumBuffers bi total }
      bi i 1 where
  block := rfl
  memRegion := rfl
  mapped := rfl
  heapHead := rfl
  mem := rfl
  nblocks := rfl
  chrdev := rfl
  avail := fun bj hne => Function.update_of_ne hne _ _
  pObjs := fun id hid => by
    have hne : id ≠ (bi, i) := by
      rintro rfl
      rcases hid with hid | hid
      · exact hid rfl
      · dsimp only at hid
        omega
    exact Function.update_of_ne hne _ _

theorem PoolAt.congr {s t : InitState} {id : PoolId} {top num reqsize : ℕ}
    (h : PoolAt s id top num reqsize) (hp : t.pObjs id = s.pObjs id) :
    PoolAt t id top num reqsize := by
  obtain ⟨free, hfree, hrest⟩ := h
  exact ⟨free, hp.trans hfree, hrest⟩

theorem PoolsAt.congr {s t : InitState} {bi : BlockId} {top i : ℕ} {pools : List (ℕ × ℕ)}
    (h : PoolsAt s bi top i pools) (hp : ∀ j, i ≤ j → j < i + pools.length →
      t.pObjs (bi, j) = s.pObjs (bi, j)) : PoolsAt t bi top i pools := by
  induction pools generalizing top i with
  | nil => trivial
  | cons p pools ih =>
    rw [List.length_cons] at hp
    refine ⟨h.1.congr (hp i le_rfl (by omega)), ih h.2 fun j hj hlt => hp j (by omega) (by omega)⟩

theorem poolBytes_cons (p : ℕ × ℕ) (pools : List (ℕ × ℕ)) :
    poolBytes (p :: pools) = p.1 * pageAlign p.2 + poolBytes pools := rfl

theorem poolBytes_dvd (pools : List (ℕ × ℕ)) : pageSize ∣ poolBytes pools := by
  induction pools with
  | nil => exact dvd_zero _
  | cons p pools ih =>
    rw [poolBytes_cons]
    exact dvd_add (Dvd.dvd.mul_left (InitState.pageAlign_dvd p.2) p.1) ih

namespace InitState
variable {sv : Services} {s t : InitState} {bi : BlockId} {length : ℕ}

theorem initPools_ok {ts : List (List Char)} {i : ℕ} (hm : Mapped sv s.block bi length)
    (hal : Alone s.block bi) (hle : s.avail bi ≤ length)
    (hsane : ∀ t ∈ ts, ∀ p, readPool t = some p → SanePool p)
    (h : initPools sv bi i ts s = .ok t) :
    ∃ pools, ts.map readPool = pools.map some ∧ poolBytes pools ≤ s.avail bi ∧
      t.avail bi = s.avail bi - poolBytes pools ∧
      PoolsAt t bi ((s.block bi).start + s.avail bi) i pools ∧ Carving s t bi i pools.length := by
  induction ts generalizing i s with
  | nil =>
    cases h
    exact ⟨[], rfl, Nat.zero_le _, rfl, trivial, .refl _ bi i⟩
  | cons text ts ih =>
    rw [initPools] at h
    cases hsplit : splitPool text with
    | none =>
      rw [hsplit] at h
      cases h
    | some parts =>
      obtain ⟨a, b⟩ := parts
      have hread : readPool text = some (strtolDecimal a, strtolDecimal b) := by
        rw [readPool, hsplit]
        rfl
      have hpool := hsane text List.mem_cons_self _ hread
      simp only [hsplit] at h
      cases halloc : s.allocPool sv (bi, i) (strtolDecimal a) (strtolDecimal b) with
      | error e =>
        rw [halloc] at h
        cases h
      | ok r =>
        obtain ⟨vs, u⟩ := r
        obtain ⟨hfit, hat, ⟨p, rfl⟩, -⟩ := allocPool_ok (bi, i) hm hal hle hpool.num
          hpool.size halloc
        simp only [halloc] at h
        have hstep := Carving.withPool s bi i
          (s.avail bi - strtolDecimal a * pageAlign (strtolDecimal b))
          (addWord 32 (s.totalNumBuffers bi) (strtolDecimal a)) p
        have hrest := ih (i := i + 1) (by exact hm) (by exact hal)
          (by rw [withPool_avail _ (bi, i)]; omega)
          (fun t ht => hsane t (List.mem_cons_of_mem text ht)) h
        obtain ⟨pools, hpools, hbytes, havail, hats, hcarving⟩ := hrest
        change poolBytes pools ≤ (s.withPool (bi, i) _ p).avail bi at hbytes
        change t.avail bi = (s.withPool (bi, i) _ p).avail bi - _ at havail
        change PoolsAt t bi ((s.block bi).start + (s.withPool (bi, i) _ p).avail bi) _ _ at hats
        rw [withPool_avail _ (bi, i)] at hbytes havail hats
        refine ⟨(strtolDecimal a, strtolDecimal b) :: pools, ?_, ?_, ?_, ⟨?_, ?_⟩,
          hstep.trans hcarving⟩
        · rw [List.map_cons, List.map_cons, hread, hpools]
        · change strtolDecimal a * pageAlign (strtolDecimal b) + poolBytes pools ≤ s.avail bi
          have hfit' : strtolDecimal a * pageAlign (strtolDecimal b) ≤ s.avail bi := hfit
          omega
        · rw [poolBytes_cons, havail, Nat.sub_sub]
        · exact hat.congr (hcarving.pObjs (bi, i) (.inr (.inl (Nat.lt_succ_self i))))
        · rwa [Nat.add_sub_assoc hfit]

theorem initPools_isOk {ts : List (List Char)} {pools : List (ℕ × ℕ)} {i : ℕ}
    (hm : Mapped sv s.block bi length) (hal : Alone s.block bi) (hle : s.avail bi ≤ length)
    (hread : ts.map readPool = pools.map some) (hsane : ∀ p ∈ pools, SanePool p)
    (hkmalloc : ∀ id i, sv.kmalloc id i ≠ none) (hfit : poolBytes pools ≤ s.avail bi) :
    ∃ t, initPools sv bi i ts s = .ok t := by
  induction ts generalizing i s pools with
  | nil => exact ⟨s, rfl⟩
  | cons text ts ih =>
    cases pools with
    | nil => cases hread
    | cons p pools =>
      rw [List.map_cons, List.map_cons, List.cons.injEq] at hread
      obtain ⟨⟨a, b⟩, hsplit, rfl⟩ := Option.map_eq_some_iff.mp hread.1
      have hpool := hsane _ List.mem_cons_self
      rw [poolBytes_cons] at hfit
      obtain ⟨⟨vs, u⟩, halloc⟩ := allocPool_isOk (bi, i) hm hle hpool.num hpool.size
        (hkmalloc (bi, i)) (by dsimp only at hfit ⊢; omega)
      obtain ⟨-, -, ⟨p, rfl⟩, -⟩ := allocPool_ok (bi, i) hm hal hle hpool.num hpool.size
        halloc
      rw [initPools, hsplit]
      dsimp only at halloc ⊢
      rw [halloc]
      refine ih (by exact hm) (by exact hal) ?_ hread.2
        (fun p hp => hsane p (List.mem_cons_of_mem _ hp)) ?_
      · change (s.withPool (bi, i) _ p).avail bi ≤ length
        rw [withPool_avail _ (bi, i)]
        omega
      · change _ ≤ (s.withPool (bi, i) _ p).avail bi
        rw [withPool_avail _ (bi, i)]
        dsimp only at hfit ⊢
        omega

/-- Pools that can be read fail for want of memory only. -/
theorem initPools_error {ts : List (List Char)} {i : ℕ} {e : Errno}
    (hread : ∀ t ∈ ts, readPool t ≠ none) (h : initPools sv bi i ts s = .error (e, t)) :
    e = .ENOMEM := by
  induction ts generalizing i s with
  | nil => cases h
  | cons text ts ih =>
    rw [initPools] at h
    cases hsplit : splitPool text with
    | none =>
      refine absurd ?_ (hread text List.mem_cons_self)
      rw [readPool, hsplit]
      rfl
    | some parts =>
      simp only [hsplit] at h
      split at h
      · cases h
        rfl
      · exact ih (fun t ht => hread t (List.mem_cons_of_mem text ht)) h

end InitState

/-! ## The heap of a block -/

/-- The heap gets the bytes that are left at the start of the block. -/
structure HeapAt (s : InitState) (bi : BlockId) (n : ℕ) : Prop where
  size : (s.block bi).heapSize = n
  none : n = 0 → (s.block bi).heapPool = none
  pool : 0 < n → (s.block bi).heapPool = some (s.block bi).npools
  virtp : 0 < n → (s.block bi).heapVirtp = (s.block bi).virtp
  buffer : 0 < n → PoolAt s (bi, (s.block bi).npools) ((s.block bi).start + n) 1 n
  head : 0 < n → (s.heapHead bi).next = (s.block bi).virtp
  header : 0 < n → s.mem (s.block bi).virtp = ⟨0, n⟩

theorem pageAlign_of_dvd {x : ℕ} (h : pageSize ∣ x) (hlt : x < 2 ^ 32) : pageAlign x = x := by
  obtain ⟨k, rfl⟩ := h
  have hpos := pageSize_pos
  have hword : pageSize * k + (pageSize - 1) < 2 ^ 32 := by
    rw [pageSize_eq] at hlt ⊢
    omega
  rw [pageAlign, addWord_eq hword, Nat.mul_add_div hpos, Nat.div_eq_of_lt (by omega), Nat.add_zero,
    Nat.mul_comm]

theorem Mapped.congr {sv : Services} {block block' : BlockId → CmemBlock} {bi : BlockId}
    {length : ℕ} (h : Mapped sv block bi length) (hstart : (block' bi).start = (block bi).start)
    (hstop : (block' bi).stop = (block bi).stop) (hvirtp : (block' bi).virtp = (block bi).virtp)
    (hvirtoff : (block' bi).virtoff = (block bi).virtoff)
    (hvirtend : (block' bi).virtend = (block bi).virtend) : Mapped sv block' bi length where
  start_pos := hstart ▸ h.start_pos
  start_paged := hstart ▸ h.start_paged
  length_paged := h.length_paged
  region := hstart ▸ h.region
  stop_eq := by rw [hstop, hstart, h.stop_eq]
  stop_lt := hstart ▸ h.stop_lt
  virtp_eq := by rw [hvirtp, hstart, h.virtp_eq]
  virtp_pos := hvirtp ▸ h.virtp_pos
  virtp_paged := hvirtp ▸ h.virtp_paged
  virtoff_eq := by rw [hvirtoff, hvirtp, hstart, h.virtoff_eq]
  virtend_eq := by rw [hvirtend, hvirtp, h.virtend_eq]
  virtend_lt := hvirtp ▸ h.virtend_lt

/-- What the set-up of a block leaves as it is: the other blocks, and memory outside of its
mapping. -/
structure OtherBlocks (s t : InitState) (bi : BlockId) (virtp length : ℕ) : Prop where
  block : ∀ bj, bj ≠ bi → t.block bj = s.block bj
  pObjs : ∀ id : PoolId, id.1 ≠ bi → t.pObjs id = s.pObjs id
  heapHead : ∀ bj, bj ≠ bi → t.heapHead bj = s.heapHead bj
  mem : ∀ x, x ∉ Set.Ico virtp (virtp + length) → t.mem x = s.mem x

namespace InitState
variable {sv : Services} {s t : InitState} {bi : BlockId} {length : ℕ}

theorem initHeap_ok (hm : Mapped sv s.block bi length) (hal : Alone s.block bi)
    (hle : s.avail bi ≤ length) (hpaged : pageSize ∣ s.avail bi)
    (hnone : (s.block bi).heapPool = none) (h : initHeap sv s bi = some (.ok t)) :
    (0 < s.avail bi → (s.block bi).npools ≠ maxPools) ∧ HeapAt t bi (s.avail bi) ∧
      OtherBlocks s t bi (s.block bi).virtp length ∧
      (∃ heapPool heapVirtp heapSize, t.block bi = { s.block bi with
        heapPool := heapPool, heapVirtp := heapVirtp, heapSize := heapSize }) ∧
      ∀ i, s.avail bi = 0 ∨ i ≠ (s.block bi).npools → t.pObjs (bi, i) = s.pObjs (bi, i) := by
  have hslt := hm.stop_lt
  have hmul : s.avail bi / pageSize * pageSize = s.avail bi := Nat.div_mul_cancel hpaged
  rw [initHeap, hmul] at h
  dsimp only at h
  by_cases hpos : 0 < s.avail bi
  · rw [if_pos hpos] at h
    split at h
    · cases h
    · rename_i hmax
      let b : CmemBlock := { s.block bi with heapSize := s.avail bi }
      have hb : (s.setBlock bi b).block bi = b := Function.update_self _ _ _
      have hm' : Mapped sv (s.setBlock bi b).block bi length :=
        hm.congr (by rw [hb]) (by rw [hb]) (by rw [hb]) (by rw [hb]) (by rw [hb])
      have hal' : Alone (s.setBlock bi b).block bi := by
        intro bj hne
        have hother : (s.setBlock bi b).block bj = s.block bj := Function.update_of_ne hne _ _
        rw [hb, hother]
        exact hal bj hne
      have halign := pageAlign_of_dvd hpaged (by omega)
      split at h
      · cases h
      · rename_i vs u halloc
        rw [Option.some.injEq, Except.ok.injEq] at h
        obtain ⟨-, hat, ⟨p, hu⟩, hvs⟩ := allocPool_ok (bi, (s.block bi).npools) hm' hal' hle
          (by decide) (by rw [halign]; exact hpos) halloc
        have hblock : u.block = (s.setBlock bi b).block := by rw [hu, withPool_block]
        have hself : u.block bi = b := hblock ▸ hb
        have hheader : vs.headD 0 = (s.block bi).virtp := by
          simp [hvs, b, halign, setBlock]
        rw [hb] at hat
        rw [hheader] at h
        have hpObjs : ∀ id, id ≠ (bi, (s.block bi).npools) → u.pObjs id = s.pObjs id := by
          intro id hne
          rw [hu]
          exact Function.update_of_ne hne _ _
        have hheapHead : u.heapHead = s.heapHead := by rw [hu]; rfl
        have hmem : u.mem = s.mem := by rw [hu]; rfl
        have htblock : t.block bi = { b with
            heapPool := some (s.block bi).npools, heapVirtp := (s.block bi).virtp } := by
          rw [← h]
          simp [enterHeap, hself, b]
        have htpObjs : t.pObjs = u.pObjs := by rw [← h]; rfl
        refine ⟨fun _ => hmax, ⟨?_, fun hzero => absurd hzero hpos.ne', fun _ => ?_, fun _ => ?_,
          fun _ => ?_, fun _ => ?_, fun _ => ?_⟩, ⟨fun bj hne => ?_, fun id hne => ?_,
          fun bj hne => ?_, fun x hx => ?_⟩, ⟨_, _, _, htblock⟩, fun i hi => ?_⟩
        · rw [htblock]
        · rw [htblock]
        · rw [htblock]
        · rw [htblock]
          exact hat.congr (congrFun htpObjs _)
        · rw [htblock, ← h]
          simp [enterHeap, b]
        · rw [htblock, ← h]
          simp [enterHeap, b]
        · rw [← h]
          simp [enterHeap, Function.update_of_ne hne, hblock, setBlock]
        · rw [htpObjs, hpObjs id fun heq => hne (congrArg Prod.fst heq)]
        · rw [← h, ← hheapHead]
          exact Function.update_of_ne hne _ _
        · have hne : x ≠ (s.block bi).virtp := by
            rintro rfl
            exact hx ⟨le_rfl, by omega⟩
          rw [← h, ← hmem]
          exact Function.update_of_ne hne _ _
        · rw [htpObjs, hpObjs _ fun heq => hi.resolve_left hpos.ne' (congrArg Prod.snd heq)]
  · rw [if_neg hpos, Option.some.injEq, Except.ok.injEq] at h
    subst h
    refine ⟨fun hlt => absurd hlt hpos, ⟨?_, fun _ => ?_, fun hlt => absurd hlt hpos,
      fun hlt => absurd hlt hpos, fun hlt => absurd hlt hpos, fun hlt => absurd hlt hpos,
      fun hlt => absurd hlt hpos⟩, ⟨fun bj hne => ?_, fun _ _ => rfl, fun bj hne => ?_,
      fun _ _ => rfl⟩, ⟨(s.block bi).heapPool, (s.block bi).heapVirtp, s.avail bi, ?_⟩,
      fun _ _ => rfl⟩
    · simp [setBlock]
    · simp [setBlock, hnone]
    · exact Function.update_of_ne hne _ _
    · exact Function.update_of_ne hne _ _
    · simp [setBlock]

/-- With the bytes that a block leaves, the heap is set up unless its index leaves the array. -/
theorem initHeap_eq (hm : Mapped sv s.block bi length) (hle : s.avail bi ≤ length)
    (hpaged : pageSize ∣ s.avail bi) (hkmalloc : ∀ id i, sv.kmalloc id i ≠ none) :
    (0 < s.avail bi ∧ (s.block bi).npools = maxPools → initHeap sv s bi = none) ∧
      (¬ (0 < s.avail bi ∧ (s.block bi).npools = maxPools) →
        ∃ t, initHeap sv s bi = some (.ok t)) := by
  have hslt := hm.stop_lt
  have hmul : s.avail bi / pageSize * pageSize = s.avail bi := Nat.div_mul_cancel hpaged
  rw [initHeap, hmul]
  dsimp only
  refine ⟨fun hboth => by rw [if_pos hboth.1, if_pos hboth.2], fun hnot => ?_⟩
  by_cases hpos : 0 < s.avail bi
  · have hmax : (s.block bi).npools ≠ maxPools := fun heq => hnot ⟨hpos, heq⟩
    have halign := pageAlign_of_dvd hpaged (by omega)
    let b : CmemBlock := { s.block bi with heapSize := s.avail bi }
    have hb : (s.setBlock bi b).block bi = b := Function.update_self _ _ _
    have hm' : Mapped sv (s.setBlock bi b).block bi length :=
      hm.congr (by rw [hb]) (by rw [hb]) (by rw [hb]) (by rw [hb]) (by rw [hb])
    obtain ⟨⟨vs, u⟩, halloc⟩ :
        ∃ r, (s.setBlock bi b).allocPool sv (bi, (s.block bi).npools) 1 (s.avail bi) = .ok r :=
      allocPool_isOk (bi, (s.block bi).npools) hm' hle (by decide) (by rw [halign]; exact hpos)
        (hkmalloc (bi, (s.block bi).npools)) (by rw [halign, Nat.one_mul]; exact le_rfl)
    rw [if_pos hpos, if_neg hmax]
    change allocPool sv (s.setBlock bi { s.block bi with heapSize := s.avail bi })
      (bi, (s.block bi).npools) 1 (s.avail bi) = _ at halloc
    rw [halloc]
    exact ⟨_, rfl⟩
  · rw [if_neg hpos]
    exact ⟨_, rfl⟩

end InitState

/-! ## A block -/

/-- A block that is set up: its pools lie one below the other and the heap has the rest. -/
structure BlockAt (sv : Services) (s : InitState) (bi : BlockId) (length : ℕ)
    (pools : List (ℕ × ℕ)) : Prop where
  mapped : Mapped sv s.block bi length
  npools : (s.block bi).npools = pools.length
  sane : ∀ p ∈ pools, SanePool p
  fits : poolBytes pools ≤ length
  stacked : PoolsAt s bi ((s.block bi).start + length) 0 pools
  rest : ∀ i, pools.length ≤ i → length - poolBytes pools = 0 ∨ i ≠ pools.length →
    s.pObjs (bi, i) = none
  heap : HeapAt s bi (length - poolBytes pools)

theorem pageAlign_lt (x : ℕ) : pageAlign x < 2 ^ 32 := by
  have hlt : addWord 32 x (pageSize - 1) < 2 ^ 32 := Nat.mod_lt _ (Nat.two_pow_pos 32)
  exact (Nat.div_mul_le_self _ _).trans_lt hlt

namespace InitState
variable {sv : Services} {s t : InitState} {bi : BlockId}

def mapBlock (s : InitState) (bi : BlockId) (start stop virtp length : ℕ) : InitState :=
  { s with
    block := Function.update s.block bi { s.block bi with
      start := start
      stop := stop
      virtp := virtp
      virtoff := subWord 32 virtp start
      virtend := addWord 32 virtp length }
    avail := Function.update s.avail bi length
    memRegion := Function.update s.memRegion bi true
    mapped := Function.update s.mapped bi true
    mem := clearPages s.mem virtp length }

theorem initBlock_eq {p : Params} {physStart physEnd : List Char} {start stop : ℕ}
    (hstart : pageAlign (strtolHex physStart) = start)
    (hstop : pageAlign (strtolHex physEnd) = stop) (hpos : start ≠ 0)
    (hregion : sv.requestMemRegion bi start (subWord 32 stop start) = true)
    (hremap : sv.ioremap bi start (subWord 32 stop start) ≠ 0) :
    initBlock sv p bi physStart physEnd s =
      carveBlock sv p bi (s.mapBlock bi start stop
        (sv.ioremap bi start (subWord 32 stop start)) (subWord 32 stop start)) := by
  simp only [initBlock, hstart, hstop, hpos, hregion, hremap, if_false, Bool.true_eq_false]
  simp only [setBlock, mapBlock, Function.update_idem, Function.update_self]

/-- A block is only set up with a region and a mapping. -/
theorem services_of_initBlock {p : Params} {physStart physEnd : List Char}
    {r : InitState} (h : initBlock sv p bi physStart physEnd s = some (.ok r)) :
    pageAlign (strtolHex physStart) ≠ 0 ∧
    sv.requestMemRegion bi (pageAlign (strtolHex physStart))
      (subWord 32 (pageAlign (strtolHex physEnd)) (pageAlign (strtolHex physStart))) = true ∧
    sv.ioremap bi (pageAlign (strtolHex physStart))
      (subWord 32 (pageAlign (strtolHex physEnd)) (pageAlign (strtolHex physStart))) ≠ 0 := by
  rw [initBlock] at h
  dsimp only at h
  split at h
  · cases h
  · rename_i hpos
    split at h
    · cases h
    · rename_i hregion
      split at h
      · cases h
      · rename_i hremap
        exact ⟨hpos, Bool.eq_true_of_not_eq_false hregion, hremap⟩

theorem mapBlock_self (s : InitState) (bi : BlockId) (start stop virtp length : ℕ) :
    (s.mapBlock bi start stop virtp length).block bi = { s.block bi with
      start := start
      stop := stop
      virtp := virtp
      virtoff := subWord 32 virtp start
      virtend := addWord 32 virtp length } :=
  Function.update_self _ _ _

/-- The other blocks are not set up, or they have a mapping. -/
def OthersMapped (sv : Services) (s : InitState) (bi : BlockId) : Prop :=
  ∀ bj, bj ≠ bi → (s.block bj).virtend = 0 ∨ ∃ length, Mapped sv s.block bj length

/-- A block that the kernel maps is ready for its pools. -/
theorem mapBlock_mapped (hsv : sv.Honest) {start stop length : ℕ} (hpos : start ≠ 0)
    (hpaged : pageSize ∣ start) (hstop : pageSize ∣ stop) (hlt : start < stop)
    (hstoplt : stop < 2 ^ 32) (hlength : subWord 32 stop start = length)
    (hregion : sv.requestMemRegion bi start length = true)
    (hremap : sv.ioremap bi start length ≠ 0) (hothers : OthersMapped sv s bi) :
    length = stop - start ∧
    Mapped sv (s.mapBlock bi start stop (sv.ioremap bi start length) length).block bi length ∧
    Alone (s.mapBlock bi start stop (sv.ioremap bi start length) length).block bi := by
  have hlen : length = stop - start := by
    rw [← hlength, subWord_eq hlt.le hstoplt]
  obtain ⟨hvpaged, hvlt⟩ := hsv.mapping bi start length hpaged hremap
  have hself := mapBlock_self s bi start stop (sv.ioremap bi start length) length
  have hm : Mapped sv (s.mapBlock bi start stop (sv.ioremap bi start length) length).block bi
      length := by
    constructor
    · rw [hself]
      exact Nat.pos_of_ne_zero hpos
    · rw [hself]
      exact hpaged
    · exact hlen ▸ Nat.dvd_sub hstop hpaged
    · rw [hself]
      exact hregion
    · rw [hself]
      dsimp only
      omega
    · rw [hself]
      dsimp only
      omega
    · rw [hself]
    · rw [hself]
      exact Nat.pos_of_ne_zero hremap
    · rw [hself]
      exact hvpaged
    · rw [hself]
    · rw [hself]
      exact addWord_eq hvlt
    · rw [hself]
      exact hvlt
  refine ⟨hlen, hm, hm.alone hsv fun bj hne => ?_⟩
  have hother : (s.mapBlock bi start stop (sv.ioremap bi start length) length).block bj =
      s.block bj := Function.update_of_ne hne _ _
  rw [hother]
  refine (hothers bj hne).imp_right fun ⟨length', hm'⟩ => ⟨length', ?_⟩
  exact hm'.congr (by rw [hother]) (by rw [hother]) (by rw [hother]) (by rw [hother])
    (by rw [hother])

theorem carveBlock_ok {p : Params} {length : ℕ} (hm : Mapped sv s.block bi length)
    (hal : Alone s.block bi) (havail : s.avail bi = length)
    (hnone : (s.block bi).heapPool = none) (hnpools : (s.block bi).npools = (p.pools bi).length)
    (hfresh : ∀ i, s.pObjs (bi, i) = none)
    (hsane : ∀ t ∈ p.pools bi, ∀ q, readPool t = some q → SanePool q)
    (h : carveBlock sv p bi s = some (.ok t)) :
    ∃ pools, (p.pools bi).map readPool = pools.map some ∧ BlockAt sv t bi length pools ∧
      OtherBlocks s t bi (s.block bi).virtp length ∧ (t.block bi).start = (s.block bi).start ∧
      (length - poolBytes pools = 0 ∨ pools.length ≠ maxPools) := by
  rw [carveBlock] at h
  cases hpools : initPools sv bi 0 (p.pools bi) s with
  | error e =>
    rw [hpools] at h
    cases h
  | ok u =>
    simp only [hpools] at h
    obtain ⟨r, hheap, hr⟩ := Option.map_eq_some_iff.mp h
    obtain ⟨v, rfl, rfl⟩ := map_eq_ok hr
    obtain ⟨pools, hread, hbytes, hrest, hats, hcarving⟩ :=
      initPools_ok hm hal havail.le hsane hpools
    rw [havail] at hbytes hrest hats
    have hlen : (p.pools bi).length = pools.length := by
      simpa using congrArg List.length hread
    have hmu : Mapped sv u.block bi length := hcarving.block ▸ hm
    have halu : Alone u.block bi := hcarving.block ▸ hal
    have hpaged : pageSize ∣ u.avail bi :=
      hrest ▸ Nat.dvd_sub hm.length_paged (poolBytes_dvd pools)
    obtain ⟨hmax, hheapAt, hothers, ⟨hp, hv, hz, hblock⟩, hkept⟩ := initHeap_ok hmu halu (by omega)
      hpaged (by rw [hcarving.block]; exact hnone) hheap
    rw [hrest] at hmax hheapAt hkept
    rw [hcarving.block] at hmax hothers hblock hkept
    rw [hnpools, hlen] at hmax hkept
    have hstart : (v.block bi).start = (s.block bi).start := by rw [hblock]
    refine ⟨pools, hread, ⟨?_, ?_, fun q hq => ?_, hbytes, ?_, fun i hi hne => ?_, ?_⟩, ?_, hstart,
      ?_⟩
    · exact hm.congr hstart (by dsimp only; rw [hblock]) (by dsimp only; rw [hblock])
        (by dsimp only; rw [hblock]) (by dsimp only; rw [hblock])
    · change (v.block bi).npools = _
      rw [hblock]
      exact hnpools.trans hlen
    · have hmem : some q ∈ (p.pools bi).map readPool := hread ▸ List.mem_map_of_mem hq
      obtain ⟨text, htext, hq'⟩ := List.mem_map.mp hmem
      exact hsane text htext q hq'
    · change PoolsAt _ bi ((v.block bi).start + length) 0 pools
      rw [hstart]
      refine hats.congr fun j _ hj => hkept j (.inr ?_)
      omega
    · exact (hkept i hne).trans ((hcarving.pObjs (bi, i) (.inr (.inr (by simpa using hi)))).trans
        (hfresh i))
    · exact ⟨hheapAt.size, hheapAt.none, hheapAt.pool, hheapAt.virtp, hheapAt.buffer, hheapAt.head,
        hheapAt.header⟩
    · refine ⟨fun bj hne => ?_, fun id hne => ?_, fun bj hne => ?_, fun x hx => ?_⟩
      · exact (hothers.block bj hne).trans (congrFun hcarving.block bj)
      · exact (hothers.pObjs id hne).trans (hcarving.pObjs id (.inl hne))
      · exact (hothers.heapHead bj hne).trans (congrFun hcarving.heapHead bj)
      · exact (hothers.mem x hx).trans (congrFun hcarving.mem x)
    · by_cases hzero : length - poolBytes pools = 0
      · exact .inl hzero
      · exact .inr (hmax (Nat.pos_of_ne_zero hzero))

/-- What becomes of a block whose pools can be read and get their entries: they fit or they do
not, and with all pools taken nothing may be left. -/
theorem carveBlock_outcome {p : Params} {length : ℕ} (hm : Mapped sv s.block bi length)
    (hal : Alone s.block bi) (havail : s.avail bi = length)
    (hnpools : (s.block bi).npools = (p.pools bi).length) {pools : List (ℕ × ℕ)}
    (hread : (p.pools bi).map readPool = pools.map some) (hsane : ∀ q ∈ pools, SanePool q)
    (hkmalloc : ∀ id i, sv.kmalloc id i ≠ none) :
    (length < poolBytes pools ∧ ∃ u, carveBlock sv p bi s = some (.error (.ENOMEM, u))) ∨
    (poolBytes pools < length ∧ pools.length = maxPools ∧ carveBlock sv p bi s = none) ∨
    poolBytes pools ≤ length ∧ (poolBytes pools = length ∨ pools.length ≠ maxPools) ∧
      ∃ t, carveBlock sv p bi s = some (.ok t) := by
  have hsane' : ∀ t ∈ p.pools bi, ∀ q, readPool t = some q → SanePool q := by
    intro t ht q hq
    have hmem : some q ∈ pools.map some := hread ▸ hq ▸ List.mem_map_of_mem ht
    obtain ⟨q', hq', heq⟩ := List.mem_map.mp hmem
    exact Option.some.inj heq ▸ hsane q' hq'
  have hreadable : ∀ t ∈ p.pools bi, readPool t ≠ none := by
    intro t ht hnone
    have hmem : none ∈ pools.map some := hread ▸ hnone ▸ List.mem_map_of_mem ht
    obtain ⟨q, -, hq⟩ := List.mem_map.mp hmem
    exact Option.some_ne_none q hq
  have hlen : (p.pools bi).length = pools.length := by
    simpa using congrArg List.length hread
  rw [carveBlock]
  cases hpools : initPools sv bi 0 (p.pools bi) s with
  | error e =>
    obtain ⟨errno, u⟩ := e
    left
    have herrno := initPools_error hreadable hpools
    subst herrno
    refine ⟨?_, u, rfl⟩
    by_contra hfit
    obtain ⟨t, ht⟩ := initPools_isOk (i := 0) hm hal havail.le hread hsane hkmalloc (by omega)
    rw [hpools] at ht
    cases ht
  | ok u =>
    obtain ⟨pools', hread', hbytes, hrest, -, hcarving⟩ :=
      initPools_ok hm hal havail.le hsane' hpools
    have heq : pools' = pools := by
      have hmap := hread'.symm.trans hread
      exact List.map_injective_iff.mpr (Option.some_injective _) hmap
    subst heq
    rw [havail] at hbytes hrest
    have hmu : Mapped sv u.block bi length := hcarving.block ▸ hm
    have hpaged : pageSize ∣ u.avail bi :=
      hrest ▸ Nat.dvd_sub hm.length_paged (poolBytes_dvd pools')
    obtain ⟨hno, hyes⟩ := initHeap_eq hmu (by omega) hpaged hkmalloc
    rw [hcarving.block, hnpools, hlen, hrest] at hno hyes
    right
    dsimp only
    by_cases hboth : 0 < length - poolBytes pools' ∧ pools'.length = maxPools
    · left
      rw [hno hboth]
      exact ⟨by omega, hboth.2, rfl⟩
    · right
      obtain ⟨t, ht⟩ := hyes hboth
      rw [ht]
      refine ⟨hbytes, ?_, _, rfl⟩
      by_cases hmax : pools'.length = maxPools
      · left
        by_contra hne
        exact hboth ⟨by omega, hmax⟩
      · exact .inr hmax

end InitState
end BifrostModule.Cmem
