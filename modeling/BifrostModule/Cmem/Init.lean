import BifrostModule.Cmem.Driver

/-! # Loading the contiguous memory manager

`cmem_init` reads the module parameters, maps the blocks and carves the buffers of the pools
out of them from the top down; the heap gets what is left. Words have 32 bits.
-/
namespace BifrostModule.Cmem
open Foundation

def maxPools : ℕ := 4

def pageAlign (x : ℕ) : ℕ := addWord 32 x (pageSize - 1) / pageSize * pageSize

/-! ## Strings -/

def digitValue (c : Char) : Option ℕ :=
  if '0' ≤ c ∧ c ≤ '9' then some (c.toNat - 48)
  else if 'a' ≤ c ∧ c ≤ 'f' then some (c.toNat - 87)
  else if 'A' ≤ c ∧ c ≤ 'F' then some (c.toNat - 55)
  else none

/-- The number of the leading digits of a string, behind one that was read before. -/
def parseDigits (base : ℕ) : ℕ → List Char → ℕ
  | acc, [] => acc
  | acc, c :: cs =>
    match digitValue c with
    | none => acc
    | some d => if d < base then parseDigits base (acc * base + d) cs else acc

def strtolDecimal : List Char → ℕ
  | '-' :: cs => subWord 32 0 (parseDigits 10 0 cs % 2 ^ 32)
  | cs => parseDigits 10 0 cs % 2 ^ 32

/-- `simple_strtol` with base 16, without or behind `0x`. -/
def strtolHex : List Char → ℕ
  | '-' :: '0' :: 'x' :: cs => subWord 32 0 (parseDigits 16 0 cs % 2 ^ 32)
  | '-' :: '0' :: 'X' :: cs => subWord 32 0 (parseDigits 16 0 cs % 2 ^ 32)
  | '-' :: cs => subWord 32 0 (parseDigits 16 0 cs % 2 ^ 32)
  | '0' :: 'x' :: cs => parseDigits 16 0 cs % 2 ^ 32
  | '0' :: 'X' :: cs => parseDigits 16 0 cs % 2 ^ 32
  | cs => parseDigits 16 0 cs % 2 ^ 32

/-- What the two calls of `strsep` make of the text of a pool: the parts before and behind the first
`x`. -/
def splitPool (t : List Char) : Option (List Char × List Char) :=
  match t.dropWhile (· ≠ 'x') with
  | [] => none
  | _ :: rest => some (t.takeWhile (· ≠ 'x'), rest)

/-! ## The module parameters and the kernel -/

structure Params where
  physStart : BlockId → Option (List Char)
  physEnd : BlockId → Option (List Char)
  pools : BlockId → List (List Char)
  useHeapIfPoolUnavailable : Bool

/-- What the kernel answers while the module is loaded; the result of `kmalloc` has the values that
were in the memory before. -/
structure Services where
  registerChrdev : Bool
  requestMemRegion : BlockId → ℕ → ℕ → Bool
  ioremap : BlockId → ℕ → ℕ → ℕ
  kmalloc : PoolId → ℕ → Option PoolBuffer
  memory : ℕ → HeapMemHeader
  elsewhere : ℕ → ℕ

/-- The variables of the module. The lists of a pool are `none` before `alloc_pool`; `memRegion` and
`mapped` are the bits of `block_flags`. -/
structure InitState where
  block : BlockId → CmemBlock
  avail : BlockId → ℕ
  memRegion : BlockId → Bool
  mapped : BlockId → Bool
  pObjs : PoolId → Option PoolObject
  heapHead : BlockId → HeapMemHeader
  mem : ℕ → HeapMemHeader
  totalNumBuffers : BlockId → ℕ
  nblocks : ℕ
  chrdev : Bool

abbrev Failure := Errno × InitState

namespace InitState

def config (s : InitState) (useHeap : Bool) : CmemConfig 32 := ⟨s.block, s.nblocks, useHeap⟩

def loaded (s : InitState) : CmemState where
  pObjs := fun id => (s.pObjs id).getD ⟨[], [], 0, 0, 0⟩
  heapHead := s.heapHead
  mem := s.mem
  referenceCount := 0

def setBlock (s : InitState) (bi : BlockId) (b : CmemBlock) : InitState :=
  { s with block := Function.update s.block bi b }

def setPool (s : InitState) (id : PoolId) (p : PoolObject) : InitState :=
  { s with pObjs := Function.update s.pObjs id (some p) }

def allocPoolBuffer (s : InitState) (bi : BlockId) (size : ℕ) : ℕ × InitState :=
  if size ≤ s.avail bi then
    let avail := s.avail bi - size
    (addWord 32 (s.block bi).virtp avail, { s with avail := Function.update s.avail bi avail })
  else (0, s)

variable (sv : Services)

/-- The loop of `alloc_pool`, for the buffers from `i` on; their virtual addresses. -/
def allocPoolLoop (id : PoolId) (size : ℕ) :
    ℕ → ℕ → InitState → Except InitState (List ℕ × InitState)
  | 0, _, s => .ok ([], s)
  | n + 1, i, s =>
    match sv.kmalloc id i with
    | none => .error s
    | some raw =>
      let r := s.allocPoolBuffer id.1 size
      if r.1 = 0 then .error r.2
      else
        let p := (r.2.pObjs id).getD ⟨[], [], 0, 0, 0⟩
        let entry : PoolBuffer := { raw with
          id := i
          physp := (r.2.config false).getPhys sv.elsewhere r.1
          size := size
          users := [] }
        (allocPoolLoop id size n (i + 1)
          (r.2.setPool id { p with freelist := p.freelist ++ [entry] })).map fun q =>
            (r.1 :: q.1, q.2)

/-- `alloc_pool`; a negative number of buffers is a word from 2^31 on. -/
def allocPool (s : InitState) (id : PoolId) (num reqsize : ℕ) :
    Except InitState (List ℕ × InitState) :=
  let size := pageAlign reqsize
  allocPoolLoop sv id size (if num < 2 ^ 31 then num else 0) 0
    (s.setPool id ⟨[], [], num, size, reqsize⟩)

/-- The loop of `cmem_init` over the pools of a block, from pool `i` on. -/
def initPools (bi : BlockId) : ℕ → List (List Char) → InitState → Except Failure InitState
  | _, [], s => .ok s
  | i, t :: ts, s =>
    match splitPool t with
    | none => .error (.EINVAL, s)
    | some (num, size) =>
      match s.allocPool sv (bi, i) (strtolDecimal num) (strtolDecimal size) with
      | .error s => .error (.ENOMEM, s)
      | .ok (_, s) =>
        let total := addWord 32 (s.totalNumBuffers bi) (strtolDecimal num)
        initPools bi (i + 1) ts
          { s with totalNumBuffers := Function.update s.totalNumBuffers bi total }

def enterHeap (s : InitState) (bi : BlockId) (header heapSize : ℕ) : InitState :=
  { s with
    block := Function.update s.block bi { s.block bi with
      heapVirtp := header
      heapPool := some (s.block bi).npools }
    heapHead := Function.update s.heapHead bi ⟨header, heapSize⟩
    mem := Function.update s.mem header ⟨0, heapSize⟩ }

/-- What is left becomes the heap. There is no next state where the code writes behind the arrays of
the block. -/
def initHeap (s : InitState) (bi : BlockId) : Option (Except Failure InitState) :=
  let heapSize := s.avail bi / pageSize * pageSize
  let b := s.block bi
  let s := s.setBlock bi { b with heapSize := heapSize }
  if 0 < heapSize then
    if b.npools = maxPools then none
    else
      match s.allocPool sv (bi, b.npools) 1 heapSize with
      | .error s => some (.error (.ENOMEM, s))
      | .ok (virtps, s) => some (.ok (s.enterHeap bi (virtps.headD 0) heapSize))
  else
    some (.ok { s with
      heapHead := Function.update s.heapHead bi { s.heapHead bi with next := 0 } })

def carveBlock (p : Params) (bi : BlockId) (s : InitState) : Option (Except Failure InitState) :=
  match initPools sv bi 0 (p.pools bi) s with
  | .error e => some (.error e)
  | .ok s => (initHeap sv s bi).map fun r => r.map fun s => { s with nblocks := s.nblocks + 1 }

/-- The first word of each page of a block is cleared. -/
def clearPages (mem : ℕ → HeapMemHeader) (virtp length : ℕ) : ℕ → HeapMemHeader := fun x =>
  if virtp ≤ x ∧ x - virtp < subWord 32 length 1 ∧ pageSize ∣ x - virtp then
    { mem x with next := 0 }
  else mem x

def initBlock (p : Params) (bi : BlockId) (physStart physEnd : List Char) (s : InitState) :
    Option (Except Failure InitState) :=
  let start := pageAlign (strtolHex physStart)
  let stop := pageAlign (strtolHex physEnd)
  let length := subWord 32 stop start
  let s := s.setBlock bi { s.block bi with start := start, stop := stop }
  if start = 0 then some (.error (.EINVAL, s))
  else
    let s := { s with avail := Function.update s.avail bi length }
    if sv.requestMemRegion bi start length = false then some (.error (.EFAULT, s))
    else
      let virtp := sv.ioremap bi start length
      let s := ({ s with memRegion := Function.update s.memRegion bi true }).setBlock bi
        { s.block bi with virtp := virtp }
      if virtp = 0 then some (.error (.EFAULT, s))
      else
        let s := ({ s with
          mapped := Function.update s.mapped bi true
          mem := clearPages s.mem virtp length }).setBlock bi { s.block bi with
            virtoff := subWord 32 virtp start
            virtend := addWord 32 virtp length }
        carveBlock sv p bi s

/-- The variables before the module is loaded, with the parameters. -/
def blank (p : Params) : InitState where
  block := fun bi => ⟨0, 0, 0, 0, 0, (p.pools bi).length, none, 0, 0⟩
  avail := fun _ => 0
  memRegion := fun _ => false
  mapped := fun _ => false
  pObjs := fun _ => none
  heapHead := fun _ => ⟨0, 0⟩
  mem := sv.memory
  totalNumBuffers := fun _ => 0
  nblocks := 0
  chrdev := false

def cleanup (s : InitState) : InitState :=
  { s with mapped := fun _ => false, memRegion := fun _ => false, chrdev := false }

def initBlocks (p : Params) (s : InitState) : Option (Except Failure InitState) :=
  match p.physStart 0, p.physEnd 0 with
  | some physStart, some physEnd =>
    (initBlock sv p 0 physStart physEnd s).bind fun r =>
      match r with
      | .error e => some (.error e)
      | .ok s =>
        match p.physStart 1, p.physEnd 1 with
        | some physStart, some physEnd => initBlock sv p 1 physStart physEnd s
        | _, _ => some (.ok s)
  | _, _ => some (if p.pools 0 = [] then .ok s else .error (.EINVAL, s))

def cmemInit (p : Params) : Option (Except Failure InitState) :=
  let s := blank sv p
  if ∃ bi, maxPools < (p.pools bi).length then some (.error (.EINVAL, s))
  else if sv.registerChrdev = false then some (.error (.ENODEV, s))
  else
    (initBlocks sv p { s with chrdev := true }).map fun r =>
      match r with
      | .error (e, s) => .error (e, s.cleanup)
      | .ok s => .ok s

end InitState
end BifrostModule.Cmem
