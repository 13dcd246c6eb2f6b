import BifrostModule.Foundation.Errno
import BifrostModule.Cmem.HeapRuns

/-! # Buffers of the contiguous memory manager

`cmemk.c` hands out buffers of a block from pools of one size each and from a heap. Each
buffer is on the free list or on the busy list of its pool; a busy one lists the files that
are registered for it.
-/
namespace BifrostModule.Cmem
open Foundation

abbrev Filp := ℕ

abbrev BlockId := Fin 2

instance blocks_neZero : NeZero 2 := ⟨by decide⟩

/-- `p_objs[bi][i]`. -/
abbrev PoolId := BlockId × ℕ

/-- `struct pool_buffer` with the `filp` of its registered users. -/
structure PoolBuffer where
  id : ℕ
  physp : ℕ
  flags : BitVec 32
  kvirtp : ℕ
  size : ℕ
  users : List Filp

structure PoolObject where
  freelist : List PoolBuffer
  busylist : List PoolBuffer
  numbufs : ℕ
  size : ℕ
  reqsize : ℕ

/-- What `cmem_init` leaves in the arrays of a block; `heapPool` is `none` where there is no
heap. -/
structure CmemBlock where
  start : ℕ
  stop : ℕ
  virtp : ℕ
  virtoff : ℕ
  virtend : ℕ
  npools : ℕ
  heapPool : Option ℕ
  heapVirtp : ℕ
  heapSize : ℕ

/-- The module after `cmem_init`, as far as it does not change any more. -/
structure CmemConfig (w : ℕ) where
  block : BlockId → CmemBlock
  nblocks : ℕ
  useHeapIfPoolUnavailable : Bool

/-- The lists of the pools, the heaps and the number of open files. -/
structure CmemState where
  pObjs : PoolId → PoolObject
  heapHead : BlockId → HeapMemHeader
  mem : ℕ → HeapMemHeader
  referenceCount : ℤ

/-- What the kernel services answer during an ioctl: whether the argument could be read, the mutex
taken, a `pool_buffer` allocated and the result written; `elsewhere` translates the addresses that
do not lie in a block. -/
structure Outcomes where
  copyIn : Bool
  locked : Bool
  kmalloc : Bool
  copyOut : Bool
  elsewhere : ℕ → ℕ

namespace CmemConfig
variable {w : ℕ} (cfg : CmemConfig w)

def numPools (bi : BlockId) : ℕ :=
  if (cfg.block bi).heapPool = none then (cfg.block bi).npools else (cfg.block bi).npools + 1

/-- The pools in the order in which the loops over blocks and pools visit them. -/
def walk : List PoolId :=
  (List.finRange 2).flatMap fun bi => (List.range (cfg.numPools bi)).map fun i => (bi, i)

def isHeap (id : PoolId) : Bool := (cfg.block id.1).heapPool = some id.2

def fuel (bi : BlockId) : ℕ := (cfg.block bi).heapSize / heapAlign + 1

def getPhys (elsewhere : ℕ → ℕ) (virtp : ℕ) : ℕ :=
  match (List.finRange 2).find? fun bi : BlockId =>
    decide ((cfg.block bi).virtp ≤ virtp) && decide (virtp < (cfg.block bi).virtend) with
  | some bi => subWord w virtp (cfg.block bi).virtoff
  | none => elsewhere virtp

end CmemConfig

namespace CmemState

def heapOf (s : CmemState) (bi : BlockId) : HeapMem := ⟨s.heapHead bi, s.mem⟩

def setHeap (s : CmemState) (bi : BlockId) (h : HeapMem) : CmemState :=
  { s with heapHead := Function.update s.heapHead bi h.head, mem := h.mem }

def setPool (s : CmemState) (id : PoolId) (p : PoolObject) : CmemState :=
  { s with pObjs := Function.update s.pObjs id p }

variable {w : ℕ} (cfg : CmemConfig w)

def heapAlloc (s : CmemState) (bi : BlockId) (size align : ℕ) (dryrun : Bool) :
    Option (ℕ × CmemState) :=
  ((s.heapOf bi).heapMemAlloc w (cfg.fuel bi) size align dryrun).map fun p =>
    (p.1, s.setHeap bi p.2)

def heapFree (s : CmemState) (bi : BlockId) (addr size : ℕ) : Option CmemState :=
  ((s.heapOf bi).heapMemFree w (cfg.fuel bi) addr size).map fun h => s.setHeap bi h

/-- `find_busy_entry`, with the pool of the entry. -/
def findBusyEntry (s : CmemState) (physp : ℕ) : Option (PoolId × PoolBuffer) :=
  cfg.walk.findSome? fun id =>
    ((s.pObjs id).busylist.find? fun e => e.physp = physp).map fun e => (id, e)

end CmemState

def updateFirst (physp : ℕ) (f : PoolBuffer → PoolBuffer) : List PoolBuffer → List PoolBuffer
  | [] => []
  | e :: l => if e.physp = physp then f e :: l else e :: updateFirst physp f l

def removeFirst (physp : ℕ) (l : List PoolBuffer) : List PoolBuffer :=
  l.eraseP fun e => e.physp = physp

/-- What an ioctl asks for. A block id is what the user names; the one of `GETBLOCK` is compared as
unsigned. `free` names the physical address, or a virtual one without `CMEM_PHYS`. -/
inductive Request where
  | allocHeap (size align : ℕ) (blockid : ℤ) (flags : BitVec 32)
  | alloc (poolid blockid : ℤ) (flags : BitVec 32)
  | freePhys (physp : ℕ)
  | freeVirt (virtp : ℕ)
  | regUser (physp : ℕ)
  | getPhys (virtp : ℕ)
  | getSize (poolid blockid : ℤ)
  | getPool (size : ℕ) (blockid : ℤ)
  | getBlock (blockid : BitVec 32)
  | getNumBlocks
  deriving DecidableEq

inductive Reply where
  | physp (physp : ℕ)
  | buffer (physp size : ℕ)
  | freed (poolid size : ℕ)
  | size (size : ℕ)
  | pool (poolid : ℤ)
  | number (n : ℕ)

/-- The value of `get_phys` for an address that it cannot translate. -/
def noPhys (w : ℕ) : ℕ := 2 ^ w - 1

namespace CmemState
variable {w : ℕ} (cfg : CmemConfig w)

/-- The result of an ioctl whose last act is to write a reply. -/
def reply (o : Outcomes) (r : Reply) : Except Errno Reply :=
  if o.copyOut then .ok r else .error .EFAULT

def allocHeap (s : CmemState) (filp : Filp) (size align : ℕ) (bi : BlockId) (flags : BitVec 32)
    (o : Outcomes) : Option (Except Errno Reply × CmemState) :=
  match (cfg.block bi).heapPool with
  | none => some (.error .EINVAL, s)
  | some hp =>
    if o.locked = false then some (.error .ERESTARTSYS, s)
    else
      (s.heapAlloc cfg bi size align false).bind fun (virtp, s) =>
        if virtp = 0 then some (.error .ENOMEM, s)
        else if o.kmalloc = false then
          (s.heapFree cfg bi virtp size).map fun s => (.error .ENOMEM, s)
        else
          let physp := cfg.getPhys o.elsewhere virtp
          let entry : PoolBuffer := ⟨hp, physp, flags, virtp, size, [filp]⟩
          let p := s.pObjs (bi, hp)
          some (reply o (.physp physp),
            s.setPool (bi, hp) { p with busylist := p.busylist ++ [entry] })

def alloc (s : CmemState) (filp : Filp) (poolid : ℤ) (bi : BlockId) (flags : BitVec 32)
    (o : Outcomes) : Except Errno Reply × CmemState :=
  if (cfg.block bi).npools ≤ poolid ∨ poolid < 0 then (.error .EINVAL, s)
  else
    let p := s.pObjs (bi, poolid.toNat)
    if o.locked = false then (.error .ERESTARTSYS, s)
    else
      match p.freelist with
      | [] => (.error .ENOMEM, s)
      | entry :: rest =>
        if o.copyOut = false then (.error .EFAULT, s)
        else
          (.ok (.buffer entry.physp p.size), s.setPool (bi, poolid.toNat) { p with
            freelist := rest
            busylist := { entry with flags := flags, users := filp :: entry.users } ::
              p.busylist })

/-- A busy buffer without registered users goes back to the heap or to the free list of its
pool. -/
def giveBack (s : CmemState) (id : PoolId) (entry : PoolBuffer) : Option CmemState :=
  let p := s.pObjs id
  if cfg.isHeap id then
    (s.heapFree cfg id.1 entry.kvirtp entry.size).map fun s =>
      s.setPool id { p with busylist := removeFirst entry.physp p.busylist }
  else
    some (s.setPool id { p with
      busylist := removeFirst entry.physp p.busylist
      freelist := { entry with users := [] } :: p.freelist })

/-- `CMEM_IOCFREE` once the physical address is known. -/
def free (s : CmemState) (filp : Filp) (physp : ℕ) (o : Outcomes) :
    Option (Except Errno Reply × CmemState) :=
  if o.locked = false then some (.error .ERESTARTSYS, s)
  else
    match s.findBusyEntry cfg physp with
    | none => some (.error .EFAULT, s)
    | some (id, entry) =>
      if filp ∉ entry.users then some (.error .EFAULT, s)
      else
        let users := entry.users.erase filp
        let size := if cfg.isHeap id then entry.size else (s.pObjs id).size
        let p := s.pObjs id
        if users = [] then
          (s.giveBack cfg id entry).map fun s => (reply o (.freed id.2 size), s)
        else
          some (reply o (.freed id.2 size), s.setPool id { p with
            busylist := updateFirst physp (fun e => { e with users := users }) p.busylist })

def regUser (s : CmemState) (filp : Filp) (physp : ℕ) (o : Outcomes) :
    Except Errno Reply × CmemState :=
  if o.locked = false then (.error .ERESTARTSYS, s)
  else
    match s.findBusyEntry cfg physp with
    | none => (.error .EFAULT, s)
    | some (id, entry) =>
      let p := s.pObjs id
      (reply o (.size entry.size), s.setPool id { p with
        busylist := updateFirst physp (fun e => { e with users := filp :: e.users }) p.busylist })

/-- The pool of the best fit and its excess, after the pools up to one. -/
def bestFit (s : CmemState) (bi : BlockId) (reqsize : ℕ) : ℕ → ℕ × ℤ
  | 0 => (2 ^ 31 - 1, -1)
  | i + 1 =>
    let best := bestFit s bi reqsize i
    let p := s.pObjs (bi, i)
    if reqsize ≤ p.size ∧ p.size - reqsize < best.1 ∧ p.freelist.isEmpty = false then
      (p.size - reqsize, i)
    else best

def getPool (s : CmemState) (reqsize : ℕ) (bi : BlockId) (o : Outcomes) :
    Option (Except Errno Reply) :=
  if o.locked = false then some (.error .ERESTARTSYS)
  else
    let pool := (s.bestFit bi reqsize (cfg.block bi).npools).2
    let answer (pool : ℤ) : Except Errno Reply :=
      if pool = -1 then .error .ENOMEM else reply o (.pool pool)
    if pool = -1 ∧ (cfg.block bi).heapPool ≠ none ∧ cfg.useHeapIfPoolUnavailable = true then
      (s.heapAlloc cfg bi reqsize heapAlign true).map fun p =>
        answer (if p.1 ≠ 0 then -2 else pool)
    else some (answer pool)

/-- The check `bi >= NBLOCKS`. A negative block id passes it and indexes outside of the arrays. -/
def checkBlock {α : Type} (blockid : ℤ) (fail : Errno → α) (body : BlockId → Option α) :
    Option α :=
  if 2 ≤ blockid then some (fail .EINVAL)
  else if blockid = 0 then body 0
  else if blockid = 1 then body 1
  else none

/-- `ioctl`. It has no next state where the code leaves its arrays or does not return. -/
def ioctl (s : CmemState) (filp : Filp) (req : Request) (o : Outcomes) :
    Option (Except Errno Reply × CmemState) :=
  let fail (e : Errno) : Except Errno Reply × CmemState := (.error e, s)
  if o.copyIn = false ∧ req ≠ .getNumBlocks then some (fail .EFAULT)
  else
    match req with
    | .allocHeap size align blockid flags =>
      checkBlock blockid fail fun bi => s.allocHeap cfg filp size align bi flags o
    | .alloc poolid blockid flags =>
      checkBlock blockid fail fun bi => some (s.alloc cfg filp poolid bi flags o)
    | .freePhys physp => s.free cfg filp physp o
    | .freeVirt virtp =>
      let physp := cfg.getPhys o.elsewhere virtp
      if physp = noPhys w then some (fail .EFAULT) else s.free cfg filp physp o
    | .regUser physp => some (s.regUser cfg filp physp o)
    | .getPhys virtp =>
      let physp := cfg.getPhys o.elsewhere virtp
      if physp = noPhys w then some (fail .EFAULT) else some (reply o (.physp physp), s)
    | .getSize poolid blockid =>
      checkBlock blockid fail fun bi =>
        if (cfg.block bi).npools ≤ poolid ∨ poolid < 0 then some (fail .EINVAL)
        else some (reply o (.size (s.pObjs (bi, poolid.toNat)).size), s)
    | .getPool size blockid =>
      checkBlock blockid fail fun bi => (s.getPool cfg size bi o).map fun r => (r, s)
    | .getBlock blockid =>
      if h : blockid.toNat < cfg.nblocks ∧ blockid.toNat < 2 then
        let b := cfg.block ⟨blockid.toNat, h.2⟩
        some (reply o (.buffer b.start (subWord w b.stop b.start)), s)
      else some (fail .EINVAL)
    | .getNumBlocks => some (reply o (.number cfg.nblocks), s)

def keptUsers (filp : Filp) (lastClose : Bool) (users : List Filp) : List Filp :=
  if lastClose then [] else users.filter (· ≠ filp)

/-- The loop of `release` over the busy list of a pool: what stays busy and the new free list. -/
def sweepPool (filp : Filp) (lastClose : Bool) :
    List PoolBuffer → List PoolBuffer → List PoolBuffer × List PoolBuffer
  | [], freelist => ([], freelist)
  | e :: busy, freelist =>
    let users := keptUsers filp lastClose e.users
    if users = [] then sweepPool filp lastClose busy ({ e with users := [] } :: freelist)
    else
      let rest := sweepPool filp lastClose busy freelist
      ({ e with users := users } :: rest.1, rest.2)

/-- The loop of `release` over the busy list of a heap: what stays busy and the heap. -/
def sweepHeap (filp : Filp) (lastClose : Bool) (bi : BlockId) :
    List PoolBuffer → CmemState → Option (List PoolBuffer × CmemState)
  | [], s => some ([], s)
  | e :: busy, s =>
    let users := keptUsers filp lastClose e.users
    if users = [] then
      (s.heapFree cfg bi e.kvirtp e.size).bind fun s =>
        sweepHeap filp lastClose bi busy s
    else
      (sweepHeap filp lastClose bi busy s).map fun p => ({ e with users := users } :: p.1, p.2)

/-- What `release` does to one pool while it holds the mutex. -/
def sweep (s : CmemState) (filp : Filp) (lastClose : Bool) (id : PoolId) : Option CmemState :=
  let p := s.pObjs id
  if cfg.isHeap id then
    (sweepHeap cfg filp lastClose id.1 p.busylist s).map fun r =>
      r.2.setPool id { p with busylist := r.1 }
  else
    let r := sweepPool filp lastClose p.busylist p.freelist
    some (s.setPool id { p with busylist := r.1, freelist := r.2 })

end CmemState
end BifrostModule.Cmem
