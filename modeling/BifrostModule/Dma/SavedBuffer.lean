import BifrostModule.Foundation.Machine
import BifrostModule.Dma.Request

/-! # The buffer that user-buffer transfers share

Every transfer with a user buffer goes through `saved_dma_buf`, without a lock.
The steps of the ioctls and of the device interleave in any order. A buffer is
known by the number of its allocation, and a bus address by the buffer it maps.
A completion is known by its address, which the next ioctl of a thread may reuse.
-/
namespace BifrostModule.Dma
open Foundation

abbrev Byte := BitVec 8

structure Buffer where
  size : BitVec 32
  data : ℕ → Byte

namespace Buffer

def read (m : Buffer) (len : BitVec 32) : List Byte := (List.range len.toNat).map m.data

def write (m : Buffer) (bytes : List Byte) : Buffer :=
  { m with data := fun i => bytes.getD i (m.data i) }

theorem read_length (m : Buffer) (len : BitVec 32) : (m.read len).length = len.toNat := by
  rw [read, List.length_map, List.length_range]

theorem read_write (m : Buffer) {len : BitVec 32} {bytes : List Byte}
    (h : bytes.length = len.toNat) : (m.write bytes).read len = bytes := by
  apply List.ext_getElem
  · rw [read_length, h]
  · intro i hi hb
    simp [read, write, hb]

end Buffer

/-- The memory of the device, by address. -/
abbrev DeviceRam := BitVec 32 → Byte

namespace DeviceRam

def read (ram : DeviceRam) (addr len : BitVec 32) : List Byte :=
  (List.range len.toNat).map fun i => ram (addr + BitVec.ofNat 32 i)

def write (ram : DeviceRam) (addr : BitVec 32) (bytes : List Byte) : DeviceRam :=
  fun x => bytes.getD (x - addr).toNat (ram x)

theorem read_length (ram : DeviceRam) (addr len : BitVec 32) :
    (ram.read addr len).length = len.toNat := by
  rw [read, List.length_map, List.length_range]

theorem read_write (ram : DeviceRam) (addr : BitVec 32) {len : BitVec 32} {bytes : List Byte}
    (h : bytes.length = len.toNat) : (ram.write addr bytes).read addr len = bytes := by
  apply List.ext_getElem
  · rw [read_length, h]
  · intro i hi hb
    have hlt : i < 4294967296 := by
      have hlen := len.isLt
      omega
    simp [read, write, Nat.mod_eq_of_lt hlt, hb]

end DeviceRam

structure SavedDmaBuf where
  size : BitVec 32
  virt : Option ℕ
  deriving DecidableEq

/-- How far an ioctl is: about to copy in, to map, to start its transfer, waiting for it, about to
copy out, or returned. -/
inductive Stage where
  | copying
  | mapping
  | starting
  | waiting
  | copyingOut
  | returned (rc : Except Errno (BitVec 32))
  deriving DecidableEq

/-- One START_DMA_UP_USER or START_DMA_DOWN_USER with its `struct dma_usr_req`: `work` is the
address of its completion on the stack of its thread, `done` whether that has been signalled, and
`finished` whether `dma_done` has run for its request. The last three fields are history: the bytes
of its user, those its transfer moved and those its user got. -/
structure UserCall where
  dir : Direction
  device : BitVec 32
  size : BitVec 32
  ticket : BitVec 32
  devBuff : Option ℕ
  busAddr : Option ℕ
  work : ℕ
  stage : Stage
  started : Bool
  done : Bool
  finished : Bool
  sent : List Byte
  moved : Option (List Byte)
  received : Option (List Byte)
  deriving DecidableEq

/-- The shared buffer, the buffers that are allocated and the ioctls so far. `stray` lists the
calls that used a buffer that was freed or too small. -/
structure Buffers where
  saved : SavedDmaBuf
  mem : ℕ → Option Buffer
  allocs : ℕ
  device : DeviceRam
  counter : BitVec 32
  calls : List UserCall
  stray : List ℕ

inductive BufferLabel where
  | enter (dir : Direction) (device size : BitVec 32) (work : ℕ) (allocated : Bool)
  | copyIn (f : ℕ) (bytes : List Byte)
  | map (f : ℕ) (mapped : Bool)
  | start (f : ℕ)
  | transfer (f : ℕ)
  | complete (f : ℕ)
  | wake (f : ℕ)
  | expire (f : ℕ)
  | copyOut (f : ℕ) (copied : Bool)

namespace UserCall

def Live (c : UserCall) : Prop :=
  match c.stage with
  | .returned _ => False
  | _ => True

instance (c : UserCall) : Decidable c.Live := by
  unfold Live
  split <;> infer_instance

/-- Live, or returned with its `dma_done` still to come. -/
def Active (c : UserCall) : Prop :=
  match c.stage with
  | .returned _ => c.started ∧ c.finished = false
  | _ => True

instance (c : UserCall) : Decidable c.Active := by
  unfold Active
  split <;> infer_instance

/-- `complete` at an address, where the completion of the call may lie. -/
def complete (addr : ℕ) (c : UserCall) : UserCall :=
  if c.Live ∧ c.work = addr then { c with done := true } else c

end UserCall

namespace Buffers

def setCall (s : Buffers) (f : ℕ) (c : UserCall) : Buffers := { s with calls := s.calls.set f c }

def free (s : Buffers) : Option ℕ → Buffers
  | none => s
  | some b => { s with mem := Function.update s.mem b none }

/-- The growth of the buffer in `prepare_dma_buffer`; `false` if there is no memory. -/
def grow (s : Buffers) (size : BitVec 32) (allocated : Bool) : Buffers × Bool :=
  if size.toNat > s.saved.size.toNat then
    let t := s.free s.saved.virt
    if allocated then
      ({ t with
        saved := ⟨size, some s.allocs⟩
        mem := Function.update t.mem s.allocs (some ⟨size, fun _ => 0⟩)
        allocs := s.allocs + 1 }, true)
    else ({ t with saved := ⟨0, none⟩ }, false)
  else (s, true)

def newCall (dir : Direction) (device size ticket : BitVec 32) (work : ℕ) (ready : Bool)
    (devBuff : Option ℕ) : UserCall where
  dir := dir
  device := device
  size := size
  ticket := ticket
  devBuff := devBuff
  busAddr := none
  work := work
  stage := if ready then .copying else .returned (.error .ENOMEM)
  started := false
  done := false
  finished := false
  sent := []
  moved := none
  received := none

/-- `alloc_dma_req`, and `prepare_dma_buffer` up to its copy, which includes `init_completion`. -/
def enter (s : Buffers) (dir : Direction) (device size : BitVec 32) (work : ℕ)
    (allocated : Bool) : Buffers :=
  let p := if size = 0 then (s, false) else s.grow size allocated
  let ticket := getTicket s.counter
  { p.1 with
    counter := ticket.2
    calls := s.calls ++ [newCall dir device size ticket.1 work p.2 p.1.saved.virt] }

def usable (s : Buffers) (b : Option ℕ) (size : BitVec 32) : Option (ℕ × Buffer) :=
  b.bind fun b => (s.mem b).bind fun m => if size ≤ m.size then some (b, m) else none

def put (s : Buffers) (f : ℕ) (b : Option ℕ) (size : BitVec 32) (bytes : List Byte) : Buffers :=
  match s.usable b size with
  | none => { s with stray := f :: s.stray }
  | some (b, m) => { s with mem := Function.update s.mem b (some (m.write bytes)) }

/-- Read from a buffer on behalf of a call; what a freed buffer reads is of no interest. -/
def get (s : Buffers) (f : ℕ) (b : Option ℕ) (size : BitVec 32) : Buffers × List Byte :=
  match s.usable b size with
  | none => ({ s with stray := f :: s.stray }, [])
  | some (_, m) => (s, m.read size)

/-- The device moves the bytes of a started transfer, from the buffer or into it. -/
def transfer (s : Buffers) (f : ℕ) (c : UserCall) : Buffers :=
  match c.dir with
  | .down =>
    let p := s.get f c.busAddr c.size
    { p.1 with device := p.1.device.write c.device p.2 }.setCall f { c with moved := some p.2 }
  | .up =>
    let bytes := s.device.read c.device c.size
    (s.put f c.busAddr c.size bytes).setCall f { c with moved := some bytes }

/-- `copy_from_user` into the buffer that is saved by then, or nothing for the other direction. -/
def copyIn (s : Buffers) (f : ℕ) (c : UserCall) (bytes : List Byte) : Buffers :=
  match c.dir with
  | .up => s.setCall f { c with stage := .mapping }
  | .down =>
    (s.put f s.saved.virt c.size bytes).setCall f { c with
      sent := bytes
      stage := if bytes.length = c.size.toNat then .mapping else .returned (.error .ENOMEM) }

/-- `copy_to_user` from the buffer that the call began with. -/
def copyOut (s : Buffers) (f : ℕ) (c : UserCall) (copied : Bool) : Buffers :=
  let p := s.get f c.devBuff c.size
  p.1.setCall f { c with
    received := if copied then some p.2 else none
    stage := .returned (if copied then .ok c.ticket else .error .ETIMEDOUT) }

/-- `dma_done` for the request of a call, which may have returned: `complete(req->pwork)` reaches
whatever call has its completion at the address by then. -/
def dmaDone (s : Buffers) (f : ℕ) (c : UserCall) : Buffers :=
  let s := s.setCall f { c with finished := true }
  { s with calls := s.calls.map (UserCall.complete c.work) }

/-- What a call does next, by its stage. -/
def stepCall (s : Buffers) (f : ℕ) (c : UserCall) : BufferLabel → Option Buffers
  | .enter _ _ _ _ _ => none
  | .copyIn _ bytes =>
    if c.stage = .copying ∧ bytes.length ≤ c.size.toNat then some (s.copyIn f c bytes) else none
  | .map _ mapped =>
    if c.stage = .mapping then
      some (s.setCall f (if mapped then { c with busAddr := s.saved.virt, stage := .starting }
        else { c with stage := .returned (.error .ENOMEM) }))
    else none
  | .start _ =>
    if c.stage = .starting then some (s.setCall f { c with started := true, stage := .waiting })
    else none
  | .transfer _ => if c.started ∧ c.moved = none then some (s.transfer f c) else none
  | .complete _ => if c.moved.isSome ∧ c.finished = false then some (s.dmaDone f c) else none
  | .wake _ =>
    if c.stage = .waiting ∧ c.done then
      some (s.setCall f { c with
        stage := if c.dir = .up then .copyingOut else .returned (.ok c.ticket) })
    else none
  | .expire _ =>
    if c.stage = .waiting ∧ ¬ c.done then
      some (s.setCall f { c with stage := .returned (.error .ETIMEDOUT) })
    else none
  | .copyOut _ copied => if c.stage = .copyingOut then some (s.copyOut f c copied) else none

end Buffers

def BufferLabel.caller : BufferLabel → Option ℕ
  | .enter _ _ _ _ _ => none
  | .copyIn f _ => some f
  | .map f _ => some f
  | .start f => some f
  | .transfer f => some f
  | .complete f => some f
  | .wake f => some f
  | .expire f => some f
  | .copyOut f _ => some f

namespace Buffers

/-- One step of a call. The stack frame of a new one belongs to no other that is under way. -/
def step (s : Buffers) : BufferLabel → Option Buffers
  | .enter dir device size work allocated =>
    if ∀ c ∈ s.calls, c.Live → c.work ≠ work then some (s.enter dir device size work allocated)
    else none
  | l => l.caller.bind fun f => (s.calls[f]?).bind fun c => s.stepCall f c l

def initial (device : DeviceRam) : Buffers := ⟨⟨0, none⟩, fun _ => none, 0, device, 0, [], []⟩

end Buffers

def sharedBuffer : Machine Buffers BufferLabel where
  start s := ∃ device, s = .initial device
  step := Buffers.step

theorem start_initial (device : DeviceRam) : sharedBuffer.start (.initial device) := ⟨device, rfl⟩

/-- An ioctl enters while no other user-buffer ioctl is under way and no `dma_done` of one that has
returned is still to come. -/
def Alone (s : Buffers) (l : BufferLabel) : Prop :=
  l.caller = none → ∀ c ∈ s.calls, ¬ c.Active

instance (s : Buffers) (l : BufferLabel) : Decidable (Alone s l) :=
  inferInstanceAs (Decidable (_ → _))

end BifrostModule.Dma
