import BifrostModule.Cdev.Delivery
import BifrostModule.Dma.Request

/-! # Sessions of user handles and the transfers they start

The DMA scheduler and the delivery of events run side by side. A transfer is
tagged with the session of the handle that started it, a work item with the
session of the transfer it reports. No code looks at these tags: it compares
the address of the handle.
-/
namespace BifrostModule.Cdev
open Foundation

/-- A request with the session that started its transfer. -/
structure Owned where
  req : Dma.DmaReq
  session : ℕ
  deriving DecidableEq

/-- The event that `dma_msi_handler` makes of the ticket, the time and the cookie that `dma_done`
returned; `stack` is what the event's memory held before. -/
def dmaDoneEvent (stack : Event) (ticket : BitVec 32) (time : BitVec 64) (cookie : Addr) : Event :=
  { stack with
    type := eventTypeDmaDone
    data := ![ticket, stack.data 1, time.extractLsb' 0 32, time.extractLsb' 32 32,
      cookie.extractLsb' 0 32, cookie.extractLsb' 32 32, stack.data 6, stack.data 7] }

@[simp] theorem dmaDoneEvent_id (stack : Event) (ticket : BitVec 32) (time : BitVec 64)
    (cookie : Addr) : (dmaDoneEvent stack ticket time cookie).dmaId = ticket := rfl

@[simp] theorem dmaDoneEvent_cookie (stack : Event) (ticket : BitVec 32) (time : BitVec 64)
    (cookie : Addr) : (dmaDoneEvent stack ticket time cookie).dmaCookie = cookie := by
  change cookie.extractLsb' 32 32 ++ cookie.extractLsb' 0 32 = cookie
  rw [BitVec.extractLsb'_append_extractLsb'_eq_extractLsb' (by omega)]
  exact BitVec.extractLsb'_eq_self

/-- `prepared` holds the requests that `alloc_dma_req` made for ioctls that have yet to call
`start_dma_xfer`. The rest below it is history: the session of the handle at each address, the
number of sessions, the tickets they were given and the copies they took. -/
structure Sessions where
  sched : Dma.State Owned
  cdev : State (Option ℕ)
  counter : BitVec 32
  allocs : ℕ
  prepared : List Owned
  session : Addr → ℕ
  opened : ℕ
  given : List (ℕ × BitVec 32)
  dequeued : List (ℕ × Work (Option ℕ))

inductive SessionLabel where
  | bifrostOpen (a : Addr) (allocated : Bool)
  | bifrostRelease (a : Addr)
  | dequeueEvent (a : Addr) (now : ℕ) (copied : Bool)
  | doDmaStartXfer (a : Addr) (xfer : Dma.Transfer) (dir : Dma.Direction)
  | startDmaXfer (r : Owned)
  | sched (l : Dma.Label Owned)
  | dmaMsiHandler (r : Owned) (stack : Event) (time : BitVec 64) (allocated : Bool)
  | otherHandler (e : Event) (allocated : Bool)
  | cdev (l : Label (Option ℕ))

namespace Sessions

/-- The requests of ioctls that have yet to return from `start_dma_xfer`. -/
def starting (s : Sessions) : List Owned :=
  s.prepared ++ s.sched.calls.filterMap Dma.Call.kicking

/-- `alloc_dma_req` for the handle at address `a`, whose address is the cookie. -/
def alloc (s : Sessions) (a : Addr) (xfer : Dma.Transfer) (dir : Dma.Direction) : Sessions :=
  let req := (Dma.allocDmaReq s.allocs s.counter a).setDirection xfer dir
  { s with
    counter := (Dma.getTicket s.counter).2
    allocs := s.allocs + 1
    prepared := s.prepared ++ [⟨req, s.session a⟩]
    given := s.given ++ [(s.session a, req.ticket)] }

def oldest (s : Sessions) (a : Addr) : List (Work (Option ℕ)) :=
  ((s.cdev.handles a).bind fun h => h.eventList.head?.map EventCont.work).toList

def report (s : Sessions) (r : Owned) (stack : Event) (time : BitVec 64) (allocated : Bool) :
    Sessions :=
  let event := dmaDoneEvent stack r.req.ticket time r.req.cookie
  { s with cdev := s.cdev.createEvent ⟨event, some r.session⟩ allocated }

/-- A step of the scheduler other than a submission and the return of `dma_done`. -/
def schedStep (s : Sessions) (l : Dma.Label Owned) : Option Sessions :=
  match l with
  | .submit _ => none
  | .ret _ => none
  | l => (s.sched.step l).map fun t => { s with sched := t }

def cdevStep (s : Sessions) (l : Label (Option ℕ)) : Option Sessions :=
  match l with
  | .bifrostOpen _ _ => none
  | .bifrostRelease _ => none
  | .dequeueEvent _ _ _ => none
  | .createEvent _ _ => none
  | l => (s.cdev.step l).map fun t => { s with cdev := t }

/-- One step. A handle is released once no ioctl of it is under way. -/
def step (s : Sessions) : SessionLabel → Option Sessions
  | .bifrostOpen a allocated =>
    (s.cdev.step (.bifrostOpen a allocated)).map fun t =>
      if allocated then
        { s with
          cdev := t
          session := Function.update s.session a s.opened
          opened := s.opened + 1 }
      else { s with cdev := t }
  | .bifrostRelease a =>
    if ∀ r ∈ s.starting, r.req.cookie ≠ a then
      (s.cdev.step (.bifrostRelease a)).map fun t => { s with cdev := t }
    else none
  | .dequeueEvent a now copied =>
    (s.cdev.step (.dequeueEvent a now copied)).map fun t =>
      { s with cdev := t, dequeued := s.dequeued ++ (s.oldest a).map fun w => (s.session a, w) }
  | .doDmaStartXfer a xfer dir => (s.cdev.handles a).map fun _ => s.alloc a xfer dir
  | .startDmaXfer r =>
    if r ∈ s.prepared then
      (s.sched.step (.submit r)).map fun t => { s with sched := t, prepared := s.prepared.erase r }
    else none
  | .sched l => s.schedStep l
  | .dmaMsiHandler r stack time allocated =>
    (s.sched.step (.ret r)).map fun t => { s.report r stack time allocated with sched := t }
  | .otherHandler e allocated =>
    if e.type = eventTypeDmaDone then none
    else some { s with cdev := s.cdev.createEvent ⟨e, none⟩ allocated }
  | .cdev l => s.cdevStep l

def initial (ctl : Dma.DmaCtl Owned) : Sessions :=
  ⟨.initial ctl, .initial, 0, 0, [], fun _ => 0, 0, [], []⟩

/-- The origin of the work is the session, which was given the ticket that the event carries. -/
def OwnTicket (s : Sessions) (n : ℕ) (w : Work (Option ℕ)) : Prop :=
  w.event.type = eventTypeDmaDone → w.origin = some n ∧ (n, w.event.dmaId) ∈ s.given

instance (s : Sessions) (n : ℕ) (w : Work (Option ℕ)) : Decidable (s.OwnTicket n w) :=
  inferInstanceAs (Decidable (_ → _))

end Sessions

def SessionLabel.opens : SessionLabel → Option Addr
  | .bifrostOpen a true => some a
  | _ => none

/-- Neither an outstanding request nor a queued DMA_DONE event has the address as its cookie. -/
def Sessions.Fresh (s : Sessions) (a : Addr) : Prop :=
  (∀ r ∈ s.sched.outstanding, r.req.cookie ≠ a) ∧
    ∀ w ∈ s.cdev.queue, w.event.type = eventTypeDmaDone → w.event.dmaCookie ≠ a

instance (s : Sessions) (a : Addr) : Decidable (s.Fresh a) :=
  inferInstanceAs (Decidable (_ ∧ _))

def FreshAddress (s : Sessions) (l : SessionLabel) : Prop := l.opens.elim True s.Fresh

instance (s : Sessions) (l : SessionLabel) : Decidable (FreshAddress s l) :=
  match h : l.opens with
  | none => .isTrue (by simp [FreshAddress, h])
  | some a => decidable_of_iff (s.Fresh a) (by simp [FreshAddress, h])

def sessions : Machine Sessions SessionLabel where
  start s := ∃ ctl, (Dma.scheduler Owned).start (.initial ctl) ∧ s = .initial ctl
  step := Sessions.step

end BifrostModule.Cdev
