import BifrostModule.Foundation.Errno

/-! # Events of `bifrost_cdev.c` and `bifrost_main.c`

Interrupt handlers queue work items; the single-threaded workqueue runs them one
after the other and copies their event to the open handles; ioctls take the
copies from the handles. A copy and a work item carry an origin that no code
looks at.
-/
namespace BifrostModule.Cdev
open Foundation

abbrev Addr := BitVec 64

abbrev eventBufferSize : ℕ := 20

def eventTypeIrq : BitVec 32 := 1#32 <<< 0

def eventTypeDmaDone : BitVec 32 := 1#32 <<< 3

/-- The words of an event are numbered by literals. -/
instance eventWords_neZero : NeZero 8 := ⟨by decide⟩

/-- `struct bifrost_event`. The union `data` is kept as its 32-bit words. -/
structure Event where
  type : BitVec 32
  data : Fin 8 → BitVec 32
  received : ℕ
  forwarded : ℕ
  deriving DecidableEq

namespace Event

/-- `data.irq_source`, the first word of every member of the union. -/
def irqSource (e : Event) : BitVec 32 := e.data 0

def dmaId (e : Event) : BitVec 32 := e.data 0

/-- `data.dma.cookie`, in the words 4 and 5. -/
def dmaCookie (e : Event) : BitVec 64 := e.data 5 ++ e.data 4

end Event

variable {γ : Type*}

structure Work (γ : Type*) where
  event : Event
  origin : γ
  deriving DecidableEq

/-- `struct bifrost_event_cont`: the `id` tells allocations apart. -/
structure EventCont (γ : Type*) where
  id : ℕ
  work : Work γ
  deriving DecidableEq

structure UserHandle (γ : Type*) where
  eventEnableMask : BitVec 32
  irqForwardingMask : BitVec 32
  eventList : List (EventCont γ)
  eventListCount : BitVec 32

namespace UserHandle

/-- A handle as `bifrost_open` sets it up on zeroed memory. -/
def fresh : UserHandle γ := ⟨0, 0, [], 0⟩

def dequeueEvent (h : UserHandle γ) : Option (EventCont γ × UserHandle γ) :=
  match h.eventList with
  | [] => none
  | p :: rest => some (p, { h with eventList := rest, eventListCount := h.eventListCount - 1 })

/-- `enqueue_event`; `false` for the copy that is freed with `-ENOSPC`. -/
def enqueueEvent (h : UserHandle γ) (p : EventCont γ) : Bool × UserHandle γ :=
  if h.eventListCount.toNat ≥ eventBufferSize then (false, h)
  else (true, { h with
    eventList := h.eventList ++ [p]
    eventListCount := h.eventListCount + 1 })

def enqueueOnThisHandle (h : UserHandle γ) (a : Addr) (e : Event) : Bool :=
  if e.type &&& h.eventEnableMask = 0 then false
  else if e.type = eventTypeIrq then
    if h.irqForwardingMask &&& e.irqSource = 0 then false else true
  else if e.type = eventTypeDmaDone then
    if a ≠ e.dmaCookie then false else true
  else true

end UserHandle

/-- A running work item: the handles its `bifrost_create_event` has visited, those still to visit,
and the copy it is about to enqueue on the first of these. -/
structure Delivery (γ : Type*) where
  work : Work γ
  received : ℕ
  visited : List Addr
  left : List Addr
  copy : Option (EventCont γ)

def Delivery.stamped (d : Delivery γ) : Work γ :=
  { d.work with event := { d.work.event with received := d.received } }

def Delivery.next (d : Delivery γ) : Delivery γ :=
  { d with visited := d.visited ++ d.left.take 1, left := d.left.tail, copy := none }

/-- The handles, the workqueue and the work item in execution, with the history of the work items,
of the copies and of what the dequeueing ioctls returned. -/
structure State (γ : Type*) where
  handles : Addr → Option (UserHandle γ)
  list : List Addr
  queue : List (Work γ)
  running : Option (Delivery γ)
  copies : ℕ
  freed : List ℕ
  created : List (Work γ)
  served : List (Work γ)
  results : List (Addr × Except Errno (Work γ))

inductive Label (γ : Type*) where
  | bifrostOpen (a : Addr) (allocated : Bool)
  | bifrostRelease (a : Addr)
  | enableEvent (a : Addr) (mask : BitVec 32)
  | irqForwarding (a : Addr) (mask : BitVec 32)
  | dequeueEvent (a : Addr) (now : ℕ) (copied : Bool)
  | createEvent (work : Work γ) (allocated : Bool)
  | run (now : ℕ)
  | visit (allocated : Bool)
  | enqueue
  | finish

namespace State

def setHandle (s : State γ) (a : Addr) (h : Option (UserHandle γ)) : State γ :=
  { s with handles := Function.update s.handles a h }

/-- `bifrost_open` puts the new handle first. -/
def openHandle (s : State γ) (a : Addr) : State γ :=
  { s.setHandle a (some .fresh) with list := a :: s.list }

def releaseHandle (s : State γ) (a : Addr) (h : UserHandle γ) : State γ :=
  { s.setHandle a none with
    list := s.list.erase a
    freed := s.freed ++ h.eventList.map EventCont.id }

/-- The value that `BIFROST_IOCTL_DEQUEUE_EVENT` returns for a copy it dequeued. -/
def forward (w : Work γ) (now : ℕ) (copied : Bool) : Except Errno (Work γ) :=
  if copied then .ok { w with event := { w.event with forwarded := now } } else .error .EFAULT

/-- `BIFROST_IOCTL_DEQUEUE_EVENT`, which frees the copy in any case. -/
def dequeue (s : State γ) (a : Addr) (h : UserHandle γ) (now : ℕ) (copied : Bool) : State γ :=
  match h.dequeueEvent with
  | none => { s with results := s.results ++ [(a, .error .EINVAL)] }
  | some (p, h) =>
    { s.setHandle a (some h) with
      freed := s.freed ++ [p.id]
      results := s.results ++ [(a, forward p.work now copied)] }

/-- `bifrost_create_event_in_atomic`, which drops the event if its pool is empty. -/
def createEvent (s : State γ) (work : Work γ) (allocated : Bool) : State γ :=
  if allocated then { s with queue := s.queue ++ [work], created := s.created ++ [work] } else s

/-- `enqueue_on_this_handle` and `duplicate_event` on the first of the handles left. -/
def visit (s : State γ) (d : Delivery γ) (a : Addr) (h : UserHandle γ) (allocated : Bool) :
    State γ :=
  if h.enqueueOnThisHandle a d.stamped.event ∧ allocated then
    { s with
      running := some { d with copy := some ⟨s.copies, d.stamped⟩ }
      copies := s.copies + 1 }
  else { s with running := some d.next }

/-- `enqueue_event` on the first of the handles left. -/
def enqueue (s : State γ) (d : Delivery γ) (a : Addr) (h : UserHandle γ) (p : EventCont γ) :
    State γ :=
  let r := h.enqueueEvent p
  { s.setHandle a (some r.2) with
    running := some d.next
    freed := if r.1 then s.freed else s.freed ++ [p.id] }

/-- One step. While a work item is running it holds `lock_list`, so no handle comes or goes. -/
def step (s : State γ) : Label γ → Option (State γ)
  | .bifrostOpen a allocated =>
    match s.running, s.handles a with
    | none, none => some (if allocated then s.openHandle a else s)
    | _, _ => none
  | .bifrostRelease a =>
    match s.running, s.handles a with
    | none, some h => some (s.releaseHandle a h)
    | _, _ => none
  | .enableEvent a mask =>
    (s.handles a).map fun h => s.setHandle a (some { h with eventEnableMask := mask })
  | .irqForwarding a mask =>
    (s.handles a).map fun h => s.setHandle a (some { h with irqForwardingMask := mask })
  | .dequeueEvent a now copied => (s.handles a).map fun h => s.dequeue a h now copied
  | .createEvent work allocated => some (s.createEvent work allocated)
  | .run now =>
    match s.running, s.queue with
    | none, w :: queue =>
      some { s with queue := queue, running := some ⟨w, now, [], s.list, none⟩ }
    | _, _ => none
  | .visit allocated =>
    match s.running with
    | some ⟨w, now, visited, a :: left, none⟩ =>
      (s.handles a).map fun h => s.visit ⟨w, now, visited, a :: left, none⟩ a h allocated
    | _ => none
  | .enqueue =>
    match s.running with
    | some ⟨w, now, visited, a :: left, some p⟩ =>
      (s.handles a).map fun h => s.enqueue ⟨w, now, visited, a :: left, some p⟩ a h p
    | _ => none
  | .finish =>
    match s.running with
    | some ⟨w, _, _, [], none⟩ => some { s with running := none, served := s.served ++ [w] }
    | _ => none

def initial : State γ where
  handles := fun _ => none
  list := []
  queue := []
  running := none
  copies := 0
  freed := []
  created := []
  served := []
  results := []

end State

def cdev (γ : Type*) : Machine (State γ) (Label γ) where
  start s := s = .initial
  step := State.step

end BifrostModule.Cdev
