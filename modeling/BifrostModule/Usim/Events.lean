import BifrostModule.Foundation.Errno
import BifrostModule.Foundation.InFlight

/-! # The event queue of `i2c_usim.c`

Senders post events and wait for them; the simulator gets and puts them through
ioctls. Events are kept by identity, freed ones included, so that a use of a
freed event can be seen. Every label is one locked section or one unlocked stretch.
-/
namespace BifrostModule.Usim
open Foundation Foundation.InFlight

/-- `STATE_READY`, `STATE_IN_PROGRESS` and `STATE_DONE`. -/
inductive EventState where
  | ready
  | inProgress
  | done
  deriving DecidableEq

inductive EventType where
  | i2cRead
  | i2cWrite
  | smbRead
  | smbWrite
  deriving DecidableEq

def EventType.isRead : EventType → Bool
  | i2cRead => true
  | smbRead => true
  | i2cWrite => false
  | smbWrite => false

/-- What the sender puts into its event before posting it. -/
structure Content where
  type : EventType
  bus : BitVec 32
  addr : BitVec 32
  len : BitVec 32
  data : ℕ → BitVec 8

/-- `struct event`; `live` is whether the memory is still allocated. -/
structure Event where
  content : Content
  ticket : BitVec 32
  refcnt : ℤ
  status : Option Errno
  state : EventState
  live : Bool

namespace Event

def alloc (ticket : BitVec 32) (content : Content) : Event where
  content := content
  ticket := ticket
  refcnt := 1
  status := none
  state := .ready
  live := true

def get (e : Event) : Event := { e with refcnt := e.refcnt + 1 }

def put (e : Event) : Event :=
  { e with refcnt := e.refcnt - 1, live := e.live && decide (e.refcnt - 1 ≠ 0) }

/-- `complete_event` before its `put_event`. -/
def complete (e : Event) (status : Option Errno) : Event :=
  { e with status := status, state := .done }

end Event

inductive Sender where
  | outside
  | allocated
  | posted
  | removed (signalled : Bool)
  | gone (rc : Except Errno Unit)
  deriving DecidableEq

/-- The references a sender holds on its event. -/
def Sender.refs : Sender → ℤ
  | outside => 0
  | allocated => 1
  | posted => 1
  | removed _ => 1
  | gone _ => 0

/-- How often the event of the sender is on the queue. -/
def Sender.queued : Sender → ℕ
  | posted => 1
  | outside => 0
  | allocated => 0
  | removed _ => 0
  | gone _ => 0

/-- A simulator ioctl between two of its steps, with the event it works on. -/
inductive UsimCall where
  | getting (id : ℕ)
  | putting (id : ℕ)
  | completing (id : ℕ) (status : Option Errno)
  | dropping (id : ℕ)
  deriving DecidableEq

@[simp] def UsimCall.event : UsimCall → ℕ
  | getting id => id
  | putting id => id
  | completing id _ => id
  | dropping id => id

/-- The reply of a PUT: whether `len` could be read, and how many data bytes could be. -/
structure Reply where
  lenRead : Bool
  len : BitVec 32
  copied : ℕ
  data : ℕ → BitVec 8

/-- The copies of PUT into an event that is read; `none` for the error exit. A `len` that is too
large stays in the event, and so do the bytes that were copied before a fault. -/
def Event.takeReply (e : Event) (reply : Reply) : Event × Option Errno :=
  if ¬ e.content.type.isRead then (e, none)
  else if ¬ reply.lenRead then (e, some Errno.EIO)
  else
    let e := { e with content := { e.content with len := reply.len } }
    if reply.len.toNat > 512 then (e, some Errno.EIO)
    else
      let n := min reply.copied reply.len.toNat
      let data := fun i => if i < n then reply.data i else e.content.data i
      let e := { e with content := { e.content with data := data } }
      if n < reply.len.toNat then (e, some Errno.EIO) else (e, none)

/-- The queue with its events and users, and the history of the simulator's references: the
events that a GET took, that were completed, and whose simulator reference was dropped. -/
structure EventQueue where
  counter : BitVec 32
  heap : ℕ → Option Event
  queue : List ℕ
  senders : ℕ → Sender
  users : Bool
  calls : List UsimCall
  taken : List ℕ
  completed : List ℕ
  released : List ℕ

inductive UsimLabel where
  | alloc (id : ℕ) (content : Content)
  | post (id : ℕ)
  | remove (id : ℕ) (signalled : Bool)
  | leave (id : ℕ)
  | usimOpen
  | usimRelease
  | getBegin
  | getEnd (id : ℕ) (copied : Bool)
  | putBegin (ticket : BitVec 32)
  | putCopy (id : ℕ) (reply : Reply)
  | complete (id : ℕ) (status : Option Errno)
  | drop (id : ℕ)

namespace EventQueue

def setEvent (s : EventQueue) (id : ℕ) (e : Event) : EventQueue :=
  { s with heap := Function.update s.heap id (some e) }

def setSender (s : EventQueue) (id : ℕ) (p : Sender) : EventQueue :=
  { s with senders := Function.update s.senders id p }

def HasState (s : EventQueue) (st : EventState) (id : ℕ) : Bool :=
  (s.heap id).any fun e => e.state = st

theorem hasState_iff {s : EventQueue} {st : EventState} {id : ℕ} :
    s.HasState st id = true ↔ ∃ e, s.heap id = some e ∧ e.state = st := by
  cases h : s.heap id with
  | none => simp [HasState, h]
  | some e => simp [HasState, h]

/-- The event that `get_1st_ready_event` takes. -/
def firstReady (s : EventQueue) : Option ℕ := s.queue.find? (s.HasState .ready)

def lookupEventWTicket (s : EventQueue) (ticket : BitVec 32) : Option ℕ :=
  s.queue.find? fun id => (s.heap id).any fun e => e.ticket = ticket

def alloc (s : EventQueue) (id : ℕ) (content : Content) : EventQueue :=
  { s.setEvent id (.alloc (s.counter + 1) content) with
    counter := s.counter + 1
    senders := Function.update s.senders id .allocated }

def postEvent (s : EventQueue) (id : ℕ) (e : Event) : EventQueue :=
  { s.setEvent id { e with state := .ready } with
    queue := s.queue ++ [id]
    senders := Function.update s.senders id .posted }

def removeEvent (s : EventQueue) (id : ℕ) (signalled : Bool) : EventQueue :=
  { s with
    queue := s.queue.erase id
    senders := Function.update s.senders id (.removed signalled) }

/-- The result of `wait_event_completion`. -/
def waitResult (e : Event) (signalled : Bool) : Except Errno Unit :=
  match e.status with
  | some err => .error err
  | none => if signalled then .error .ERESTARTSYS else .ok ()

/-- The sender reads the result and drops its reference. -/
def leave (s : EventQueue) (id : ℕ) (e : Event) (signalled : Bool) : EventQueue :=
  (s.setEvent id e.put).setSender id (.gone (waitResult e signalled))

/-- `get_1st_ready_event` with the event it finds. -/
def getReady (s : EventQueue) (id : ℕ) (e : Event) : EventQueue :=
  { s.setEvent id { e.get with state := .inProgress } with
    calls := .getting id :: s.calls
    taken := s.taken ++ [id] }

def completeEvent (s : EventQueue) (id : ℕ) (e : Event) (status : Option Errno) : EventQueue :=
  { s.setEvent id (e.complete status) with completed := s.completed ++ [id] }

def dropEvent (s : EventQueue) (id : ℕ) (e : Event) : EventQueue :=
  { s.setEvent id e.put with released := s.released ++ [id] }

/-- One turn of the loop of `i2c_usim_release`. -/
def completeOrphan (s : EventQueue) (id : ℕ) : EventQueue :=
  match s.heap id with
  | none => s
  | some e =>
    if e.state = .inProgress then
      (s.completeEvent id e (some Errno.EIO)).dropEvent id (e.complete (some Errno.EIO))
    else s

/-- `i2c_usim_release`, under the lock of the queue. -/
def release (s : EventQueue) : EventQueue := { s.queue.foldl completeOrphan s with users := false }

def step (s : EventQueue) : UsimLabel → Option EventQueue
  | .alloc id content => if s.heap id = none then some (s.alloc id content) else none
  | .post id =>
    match s.heap id, s.senders id with
    | some e, .allocated => some (s.postEvent id e)
    | _, _ => none
  | .remove id signalled =>
    match s.heap id, s.senders id with
    | some e, .posted =>
      if signalled ∨ e.state = .done then some (s.removeEvent id signalled) else none
    | _, _ => none
  | .leave id =>
    match s.heap id, s.senders id with
    | some e, .removed signalled => some (s.leave id e signalled)
    | _, _ => none
  | .usimOpen => some { s with users := true }
  | .usimRelease => if s.users ∧ s.calls = [] then some s.release else none
  | .getBegin =>
    if s.users then
      match s.firstReady with
      | none => some s
      | some id => (s.heap id).map (s.getReady id)
    else none
  | .getEnd id copied =>
    if .getting id ∈ s.calls then
      let rest := if copied then [] else [.completing id (some Errno.EIO)]
      some { s with calls := replace s.calls (.getting id) rest }
    else none
  | .putBegin ticket =>
    if s.users then
      match s.lookupEventWTicket ticket with
      | none => some s
      | some id => some { s with calls := .putting id :: s.calls }
    else none
  | .putCopy id reply =>
    if .putting id ∈ s.calls then
      (s.heap id).map fun e =>
        let p := e.takeReply reply
        { s.setEvent id p.1 with
          calls := replace s.calls (.putting id) [.completing id p.2] }
    else none
  | .complete id status =>
    if .completing id status ∈ s.calls then
      (s.heap id).map fun e =>
        { s.completeEvent id e status with
          calls := replace s.calls (.completing id status) [.dropping id] }
    else none
  | .drop id =>
    if .dropping id ∈ s.calls then
      (s.heap id).map fun e =>
        { s.dropEvent id e with calls := replace s.calls (.dropping id) [] }
    else none

/-- The steps, taken apart: what each needs and what it leaves. -/
inductive Step (s : EventQueue) : UsimLabel → EventQueue → Prop where
  | alloc {id : ℕ} {content : Content} (he : s.heap id = none) :
      Step s (.alloc id content) (s.alloc id content)
  | post {id : ℕ} {e : Event} (he : s.heap id = some e) (hp : s.senders id = .allocated) :
      Step s (.post id) (s.postEvent id e)
  | remove {id : ℕ} {e : Event} {signalled : Bool} (he : s.heap id = some e)
      (hp : s.senders id = .posted) (hdone : signalled = true ∨ e.state = .done) :
      Step s (.remove id signalled) (s.removeEvent id signalled)
  | leave {id : ℕ} {e : Event} {signalled : Bool} (he : s.heap id = some e)
      (hp : s.senders id = .removed signalled) : Step s (.leave id) (s.leave id e signalled)
  | usimOpen : Step s .usimOpen { s with users := true }
  | usimRelease (hu : s.users = true) (hc : s.calls = []) : Step s .usimRelease s.release
  | getNone (hu : s.users = true) (hid : s.firstReady = none) : Step s .getBegin s
  | getBegin {id : ℕ} {e : Event} (hu : s.users = true) (hid : s.firstReady = some id)
      (he : s.heap id = some e) : Step s .getBegin (s.getReady id e)
  | getEnd {id : ℕ} {copied : Bool} (hc : .getting id ∈ s.calls) :
      Step s (.getEnd id copied) { s with
        calls := replace s.calls (.getting id)
          (if copied then [] else [.completing id (some Errno.EIO)]) }
  | putNone {ticket : BitVec 32} (hu : s.users = true) (hid : s.lookupEventWTicket ticket = none) :
      Step s (.putBegin ticket) s
  | putBegin {ticket : BitVec 32} {id : ℕ} (hu : s.users = true)
      (hid : s.lookupEventWTicket ticket = some id) :
      Step s (.putBegin ticket) { s with calls := .putting id :: s.calls }
  | putCopy {id : ℕ} {e : Event} {reply : Reply} (hc : .putting id ∈ s.calls)
      (he : s.heap id = some e) :
      Step s (.putCopy id reply) { s.setEvent id (e.takeReply reply).1 with
        calls := replace s.calls (.putting id) [.completing id (e.takeReply reply).2] }
  | complete {id : ℕ} {e : Event} {status : Option Errno} (hc : .completing id status ∈ s.calls)
      (he : s.heap id = some e) :
      Step s (.complete id status) { s.completeEvent id e status with
        calls := replace s.calls (.completing id status) [.dropping id] }
  | drop {id : ℕ} {e : Event} (hc : .dropping id ∈ s.calls) (he : s.heap id = some e) :
      Step s (.drop id) { s.dropEvent id e with calls := replace s.calls (.dropping id) [] }

theorem Step.of_step {s t : EventQueue} {a : UsimLabel} (h : s.step a = some t) : s.Step a t := by
  cases a with
  | alloc id content =>
    obtain ⟨he, ⟨⟩⟩ := Option.ite_none_right_eq_some.mp h
    exact .alloc he
  | post id =>
    simp only [step] at h
    split at h
    · rename_i e he hp
      exact Option.some.inj h ▸ .post he hp
    · cases h
  | remove id signalled =>
    simp only [step] at h
    split at h
    · rename_i e he hp
      obtain ⟨hdone, ⟨⟩⟩ := Option.ite_none_right_eq_some.mp h
      exact .remove he hp hdone
    · cases h
  | leave id =>
    simp only [step] at h
    split at h
    · rename_i e signalled he hp
      exact Option.some.inj h ▸ .leave he hp
    · cases h
  | usimOpen => exact Option.some.inj h ▸ .usimOpen
  | usimRelease =>
    obtain ⟨⟨hu, hc⟩, ⟨⟩⟩ := Option.ite_none_right_eq_some.mp h
    exact .usimRelease hu hc
  | getBegin =>
    obtain ⟨hu, h⟩ := Option.ite_none_right_eq_some.mp h
    split at h
    · rename_i hid
      exact Option.some.inj h ▸ .getNone hu hid
    · rename_i id hid
      obtain ⟨e, he, rfl⟩ := Option.map_eq_some_iff.mp h
      exact .getBegin hu hid he
  | getEnd id copied =>
    obtain ⟨hc, ⟨⟩⟩ := Option.ite_none_right_eq_some.mp h
    exact .getEnd hc
  | putBegin ticket =>
    obtain ⟨hu, h⟩ := Option.ite_none_right_eq_some.mp h
    split at h
    · rename_i hid
      exact Option.some.inj h ▸ .putNone hu hid
    · rename_i id hid
      exact Option.some.inj h ▸ .putBegin hu hid
  | putCopy id reply =>
    obtain ⟨hc, h⟩ := Option.ite_none_right_eq_some.mp h
    obtain ⟨e, he, rfl⟩ := Option.map_eq_some_iff.mp h
    exact .putCopy hc he
  | complete id status =>
    obtain ⟨hc, h⟩ := Option.ite_none_right_eq_some.mp h
    obtain ⟨e, he, rfl⟩ := Option.map_eq_some_iff.mp h
    exact .complete hc he
  | drop id =>
    obtain ⟨hc, h⟩ := Option.ite_none_right_eq_some.mp h
    obtain ⟨e, he, rfl⟩ := Option.map_eq_some_iff.mp h
    exact .drop hc he

def initial : EventQueue where
  counter := 0
  heap := fun _ => none
  queue := []
  senders := fun _ => .outside
  users := false
  calls := []
  taken := []
  completed := []
  released := []

end EventQueue

def simulator : Machine EventQueue UsimLabel where
  start s := s = .initial
  step := EventQueue.step

end BifrostModule.Usim
