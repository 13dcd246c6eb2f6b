import BifrostModule.Cdev.Lockstep
import BifrostModule.Cdev.Session

/-! # What the payload of an event shows of the handler's stack

A handler builds its event in a local variable, and the whole variable is copied to
user space. The origin of a work item is here the word of padding between `type` and
`data`, so a work item holds every byte of a `struct bifrost_event` with 64-bit longs.
-/
namespace BifrostModule.Cdev
open Foundation

/-- A `struct bifrost_event` with its padding. -/
abbrev PaddedEvent := Work (BitVec 32)

namespace PaddedEvent

def memset (_event : PaddedEvent) : PaddedEvent := ⟨⟨0, fun _ => 0, 0, 0⟩, 0⟩

theorem memset_eq (event event' : PaddedEvent) : event.memset = event'.memset := rfl

def interrupt (event : PaddedEvent) (irqSource : BitVec 32) : PaddedEvent :=
  { event with event := { event.event with
    type := eventTypeIrq
    data := Function.update event.event.data 0 irqSource } }

def setValue (event : PaddedEvent) (value : BitVec 32) : PaddedEvent :=
  { event with event := { event.event with data := Function.update event.event.data 1 value } }

def setFrameSize (event : PaddedEvent) (value : BitVec 32) : PaddedEvent :=
  { event with event := { event.event with data := Function.update event.event.data 2 value } }

def setTime (event : PaddedEvent) (now : BitVec 64 × BitVec 64) : PaddedEvent :=
  let data := event.event.data
  { event with event := { event.event with
    data := ![data 0, data 1, data 2, data 3, now.1.extractLsb' 0 32, now.1.extractLsb' 32 32,
      now.2.extractLsb' 0 32, now.2.extractLsb' 32 32] } }

end PaddedEvent

/-- The 16-bit registers of the FPGA as a handler reads them, each at most once. -/
abbrev Registers := BitVec 32 → BitVec 16

def Registers.read (regs : Registers) (offset : BitVec 32) : BitVec 32 :=
  (regs offset).setWidth 32

/-- An interrupt with all that its handler reads: what `dma_done` returned unless an error, the
device and the vector of the message, the registers and the clock. -/
inductive Interrupt where
  | dmaMsiHandler (done : Option (BitVec 32 × BitVec 64 × Addr))
  | defaultMsiHandler (bifrost : Bool) (vec : Fin 32)
  | fvdInterruptService (regs : Registers)
  | fvdIrq1Service (regs : Registers) (now : BitVec 64 × BitVec 64)
  | fvdIrq2Service (regs : Registers) (now : BitVec 64 × BitVec 64)

/-! ## The handlers, from the stack they find to the events they create -/

section Handlers
variable (regs : Registers) (now : BitVec 64 × BitVec 64) (event : PaddedEvent)

def dmaMsiHandler (done : Option (BitVec 32 × BitVec 64 × Addr)) : List PaddedEvent :=
  (done.map fun (ticket, time, cookie) =>
    { event with event := dmaDoneEvent event.event ticket time cookie }).toList

/-- `default_msi_handler`; `map_msi_to_event` shifts a bit to the vector. -/
def defaultMsiHandler (bifrost : Bool) (vec : Fin 32) : List PaddedEvent :=
  if bifrost then [event.interrupt (1#32 <<< vec.val)] else []

def fvdInterruptService : List PaddedEvent :=
  [(event.memset.interrupt 1).setValue (regs.read 0x1C)]

def jpegLsFrame : PaddedEvent :=
  let event := event.interrupt 0x04
  let frameNo := regs.read 0x170
  let frameSizeReg := 0x171 + frameNo
  ((event.setValue frameNo).setFrameSize (regs.read frameSizeReg)).setTime now

def digitalInput : PaddedEvent :=
  let camtype := regs.read 0x23
  let status :=
    if camtype &&& 0xFFFF = 0x8 then regs.read 0x150
    else if camtype &&& 0xFFFF = 0x19 then regs.read 0x152
    else if camtype &&& 0xFFFF = 0x1F then regs.read 0x152
    else 0
  (event.interrupt 0x08).setValue status

def hsiCable : PaddedEvent :=
  let hsiState := regs.read 0x141
  (event.interrupt 0x10).setValue (if hsiState &&& 0x10 = 0 then 1 else 0)

/-- The reports of `FVDIRQ1Service`, which uses one variable for all events. -/
def fvdIrq1Reports (event0 : PaddedEvent) : List PaddedEvent :=
  let mask := regs.read 0x38
  let vector := regs.read 0x37
  let raised (bit : BitVec 32) := mask &&& vector &&& bit ≠ 0
  let event1 := if raised 0x10 then event0.interrupt 0x40 else event0
  let event2 := if raised 0x20 then event1.interrupt 0x02 else event1
  let event3 := if raised 0x100 then jpegLsFrame regs now event2 else event2
  let event4 := if raised 0x200 then digitalInput regs event3 else event3
  let event5 := if raised 0x400 then hsiCable regs event4 else event4
  (if raised 0x10 then [event1] else []) ++ (if raised 0x20 then [event2] else []) ++
    (if raised 0x100 then [event3] else []) ++ (if raised 0x200 then [event4] else []) ++
    (if raised 0x400 then [event5] else [])

def fvdIrq1Service : List PaddedEvent := fvdIrq1Reports regs now event.memset

/-- The line and trig state with the time stamps, in `FVDIRQ2Service`. -/
def lineState : PaddedEvent :=
  let bufNo := regs.read 0xb9
  let hd1 := regs.read 0x14E
  let hd2 := regs.read 0x14F
  let hd3 := regs.read 0x150
  let hd4 := regs.read 0x151
  let hd5 := regs.read 0x152
  let frameCnt := regs.read 0x153
  let frameNo := bufNo &&& 0xF
  let frameNo := if hd5 &&& 0x1 ≠ 0 then frameNo ||| 0x10 else frameNo
  let frameNo := if hd5 &&& 0x100 ≠ 0 then frameNo ||| 0x20 else frameNo
  let frameNo := if hd1 &&& 0x1 ≠ 0 then frameNo ||| 0x40 else frameNo
  let frameNo := if hd1 &&& 0x100 ≠ 0 then frameNo ||| 0x80 else frameNo
  let frameNo := frameNo ||| (hd2 &&& (0xF#32 <<< 8))
  let frameNo := frameNo ||| (((hd3 >>> 8) &&& 0xF) <<< 12)
  let frameNo := frameNo ||| (frameCnt <<< 16)
  (event.setValue frameNo).setFrameSize
    (((hd2 >>> 8) &&& 0xFF) ||| ((hd3 &&& 0xFF) <<< 8) ||| ((hd4 &&& 0xFFFF) <<< 16))

def fvdIrq2Report : PaddedEvent :=
  let camtype := regs.read 0x23
  let event :=
    if camtype &&& 0xFFFF = 0x19 ∨ camtype &&& 0xFFFF = 0x1F then lineState regs event
    else if camtype &&& 0xFFFF = 0x2A ∨ camtype &&& 0xFFFF = 0x26 then
      event.setValue (regs.read 0xb9 &&& 0xF)
    else event
  (event.interrupt 0x20).setTime now

def fvdIrq2Service : List PaddedEvent := [fvdIrq2Report regs now event.memset]

end Handlers

namespace Interrupt

def events (stack : PaddedEvent) : Interrupt → List PaddedEvent
  | dmaMsiHandler done => Cdev.dmaMsiHandler stack done
  | defaultMsiHandler bifrost vec => Cdev.defaultMsiHandler stack bifrost vec
  | fvdInterruptService regs => Cdev.fvdInterruptService regs stack
  | fvdIrq1Service regs now => Cdev.fvdIrq1Service regs now stack
  | fvdIrq2Service regs now => Cdev.fvdIrq2Service regs now stack

/-- The handler clears its variable, or creates no event. -/
def Clean : Interrupt → Prop
  | dmaMsiHandler done => done = none
  | defaultMsiHandler bifrost _ => bifrost = false
  | fvdInterruptService _ => True
  | fvdIrq1Service _ _ => True
  | fvdIrq2Service _ _ => True

theorem events_of_clean {i : Interrupt} (hi : i.Clean) (stack stack' : PaddedEvent) :
    i.events stack = i.events stack' := by
  cases i with
  | dmaMsiHandler done =>
    obtain rfl : done = none := hi
    simp only [events, Cdev.dmaMsiHandler, Option.map_none]
  | defaultMsiHandler bifrost vec =>
    obtain rfl : bifrost = false := hi
    simp only [events, Cdev.defaultMsiHandler, Bool.false_eq_true, if_false]
  | fvdInterruptService regs =>
    exact congrArg (fun event : PaddedEvent => [(event.interrupt 1).setValue (regs.read 0x1C)])
      (stack.memset_eq stack')
  | fvdIrq1Service regs now => exact congrArg (fvdIrq1Reports regs now) (stack.memset_eq stack')
  | fvdIrq2Service regs now =>
    exact congrArg (fun event : PaddedEvent => [fvdIrq2Report regs now event])
      (stack.memset_eq stack')

end Interrupt

/-- Every byte but the time stamps is the same. -/
structure SameBytes (w v : PaddedEvent) : Prop where
  type : w.event.type = v.event.type
  data : w.event.data = v.event.data
  padding : w.origin = v.origin

/-- The same event of one interrupt, which found different memory on its stack. -/
def SameInterrupt (ok : Interrupt → Prop) (w v : PaddedEvent) : Prop :=
  ∃ (i : Interrupt) (stack stack' : PaddedEvent) (k : ℕ),
    ok i ∧ (i.events stack)[k]? = some w ∧ (i.events stack')[k]? = some v

/-- Whatever the handlers find on their stacks, the dequeueing ioctls return the same bytes. -/
def NoStackLeak (ok : Interrupt → Prop) : Prop :=
  ∀ ls ms : List (Label (BitVec 32)), List.Forall₂ (LabelRel (SameInterrupt ok)) ls ms →
    ∀ s, (cdev (BitVec 32)).exec .initial ls = some s →
      ∃ t, (cdev (BitVec 32)).exec .initial ms = some t ∧ t.results = s.results

/-! ## Handlers that clear their variable -/

theorem sameBytes_payloads : Payloads SameBytes where
  look w v h := by
    refine ⟨h.type.symm, fun _ => ?_, fun _ => ?_⟩
    · rw [Event.irqSource, Event.irqSource, h.data]
    · rw [Event.dmaCookie, Event.dmaCookie, h.data]
  received _ _ _ h := ⟨h.type, h.data, h.padding⟩
  forwarded _ _ _ h := ⟨h.type, h.data, h.padding⟩

theorem sameBytes_of_clean {ok : Interrupt → Prop} (hok : ∀ i, ok i → i.Clean)
    {w v : PaddedEvent} (h : SameInterrupt ok w v) : SameBytes w v := by
  obtain ⟨i, stack, stack', k, hi, hw, hv⟩ := h
  rw [Interrupt.events_of_clean (hok i hi) stack stack', hv] at hw
  obtain rfl := Option.some.inj hw
  exact ⟨rfl, rfl, rfl⟩

theorem LabelRel.mono {γ : Type*} {P Q : Work γ → Work γ → Prop} (hPQ : ∀ w v, P w v → Q w v)
    {l m : Label γ} (h : LabelRel P l m) : LabelRel Q l m := by
  cases h with
  | same l hnot => exact .same l hnot
  | createEvent hwv allocated => exact .createEvent (hPQ _ _ hwv) allocated

theorem eq_of_resultRel {r r' : Addr × Except Errno PaddedEvent}
    (h : ResultRel SameBytes r r') : r' = r := by
  cases h with
  | error a err => rfl
  | ok a hwv hreceived hforwarded =>
    rename_i w v
    obtain ⟨⟨type, data, received, forwarded⟩, padding⟩ := w
    obtain ⟨⟨type', data', received', forwarded'⟩, padding'⟩ := v
    obtain ⟨rfl, rfl, rfl⟩ := hwv
    obtain rfl : received = received' := hreceived
    obtain rfl : forwarded = forwarded' := hforwarded
    rfl

theorem results_eq {rs rs' : List (Addr × Except Errno PaddedEvent)}
    (h : List.Forall₂ (ResultRel SameBytes) rs rs') : rs' = rs := by
  induction h with
  | nil => rfl
  | cons h _ ih => rw [eq_of_resultRel h, ih]

theorem noStackLeak_of_clean {ok : Interrupt → Prop} (hok : ∀ i, ok i → i.Clean) :
    NoStackLeak ok := by
  intro ls ms hlm s hs
  have hbytes : List.Forall₂ (LabelRel SameBytes) ls ms :=
    hlm.imp fun _ _ h => h.mono fun _ _ => sameBytes_of_clean hok
  obtain ⟨t, ht, hst⟩ := runs_related sameBytes_payloads hbytes hs
  exact ⟨t, ht, results_eq hst.results⟩

/-! ## Handlers that do not -/

/-- A handle is opened, subscribes with the masks and dequeues the event. -/
def delivering (a : Addr) (mask irqMask : BitVec 32) (w : PaddedEvent) : List (Label (BitVec 32)) :=
  [.bifrostOpen a true, .enableEvent a mask, .irqForwarding a irqMask, .createEvent w true, .run 0,
    .visit true, .enqueue, .finish, .dequeueEvent a 0 true]

theorem delivering_results {a : Addr} {mask irqMask : BitVec 32} {w : PaddedEvent}
    (hw : (⟨mask, irqMask, [], 0#32⟩ : UserHandle (BitVec 32)).enqueueOnThisHandle a
      ⟨w.event.type, w.event.data, 0, w.event.forwarded⟩ = true) :
    ∃ s, (cdev (BitVec 32)).exec .initial (delivering a mask irqMask w) = some s ∧
      s.results =
        [(a, .ok { w with event := { w.event with received := 0, forwarded := 0 } })] := by
  simp [delivering, Machine.exec, cdev, State.step, State.initial, State.openHandle,
    State.setHandle, State.createEvent, State.visit, Delivery.stamped, UserHandle.fresh, hw,
    State.enqueue, UserHandle.enqueueEvent, Delivery.next, State.dequeue,
    UserHandle.dequeueEvent, State.forward, eventBufferSize]

theorem delivering_related {P : PaddedEvent → PaddedEvent → Prop} (a : Addr)
    (mask irqMask : BitVec 32) {w v : PaddedEvent} (hwv : P w v) :
    List.Forall₂ (LabelRel P) (delivering a mask irqMask w) (delivering a mask irqMask v) := by
  refine .cons (.same _ nofun) (.cons (.same _ nofun) (.cons (.same _ nofun)
    (.cons (.createEvent hwv true) ?_)))
  exact .cons (.same _ nofun) (.cons (.same _ nofun) (.cons (.same _ nofun)
    (.cons (.same _ nofun) (.cons (.same _ nofun) .nil))))

/-- Two events of one interrupt that differ in a word, and that one handle subscribes to. -/
theorem leak {ok : Interrupt → Prop} {w v : PaddedEvent} (hwv : SameInterrupt ok w v) (a : Addr)
    (mask irqMask : BitVec 32) (hne : w.event.data ≠ v.event.data)
    (hw : (⟨mask, irqMask, [], 0#32⟩ : UserHandle (BitVec 32)).enqueueOnThisHandle a
      ⟨w.event.type, w.event.data, 0, w.event.forwarded⟩ = true)
    (hv : (⟨mask, irqMask, [], 0#32⟩ : UserHandle (BitVec 32)).enqueueOnThisHandle a
      ⟨v.event.type, v.event.data, 0, v.event.forwarded⟩ = true) : ¬ NoStackLeak ok := by
  intro hno
  obtain ⟨s, hs, hsres⟩ := delivering_results hw
  obtain ⟨t, ht, htres⟩ := delivering_results hv
  obtain ⟨t', ht', hres⟩ := hno _ _ (delivering_related a mask irqMask hwv) s hs
  obtain rfl : t = t' := Option.some.inj (ht.symm.trans ht')
  rw [hsres, htres] at hres
  apply hne
  simp only [List.cons.injEq, Prod.mk.injEq, Except.ok.injEq, Work.mk.injEq, Event.mk.injEq] at hres
  exact hres.1.2.1.2.1.symm

theorem subscribes_dmaDone {a : Addr} {irqMask : BitVec 32} {e : Event}
    (htype : e.type = eventTypeDmaDone) (hcookie : e.dmaCookie = a) :
    (⟨eventTypeDmaDone, irqMask, [], 0#32⟩ : UserHandle (BitVec 32)).enqueueOnThisHandle a e =
      true := by
  unfold UserHandle.enqueueOnThisHandle
  rw [htype, hcookie, if_neg (by simp [eventTypeDmaDone]), if_neg (by decide), if_pos rfl,
    if_neg (by simp)]

theorem subscribes_irq {a : Addr} {irqMask : BitVec 32} {e : Event}
    (htype : e.type = eventTypeIrq) (hsource : irqMask &&& e.irqSource ≠ 0) :
    (⟨eventTypeIrq, irqMask, [], 0#32⟩ : UserHandle (BitVec 32)).enqueueOnThisHandle a e =
      true := by
  unfold UserHandle.enqueueOnThisHandle
  rw [htype, if_neg (by simp [eventTypeIrq]), if_pos rfl, if_neg hsource]

/-- Memory with a number in each word of the union. -/
def filled (n : BitVec 32) : PaddedEvent := ⟨⟨0, fun _ => n, 0, 0⟩, 0⟩

/-- A handler that does not clear its variable shows the second word of the union. -/
theorem leak_of_not_clean {ok : Interrupt → Prop} {i : Interrupt} (hok : ok i)
    (hi : ¬ i.Clean) : ¬ NoStackLeak ok := by
  cases i with
  | dmaMsiHandler done =>
    obtain ⟨⟨ticket, time, cookie⟩, rfl⟩ := Option.ne_none_iff_exists'.mp hi
    refine leak (w := ⟨dmaDoneEvent (filled 0).event ticket time cookie, 0⟩)
      (v := ⟨dmaDoneEvent (filled 1).event ticket time cookie, 0⟩)
      ⟨_, filled 0, filled 1, 0, hok, rfl, rfl⟩ cookie eventTypeDmaDone 0 ?_ ?_ ?_
    · intro heq
      exact absurd (congrFun heq 1) (by decide : (0 : BitVec 32) ≠ 1)
    · exact subscribes_dmaDone rfl (dmaDoneEvent_cookie (filled 0).event ticket time cookie)
    · exact subscribes_dmaDone rfl (dmaDoneEvent_cookie (filled 1).event ticket time cookie)
  | defaultMsiHandler bifrost vec =>
    obtain rfl : bifrost = true := by simpa [Interrupt.Clean] using hi
    have hbit : ∀ v : Fin 32, 1#32 <<< v.val &&& 1#32 <<< v.val ≠ 0 := by decide
    refine leak (w := (filled 0).interrupt (1#32 <<< vec.val))
      (v := (filled 1).interrupt (1#32 <<< vec.val))
      ⟨_, filled 0, filled 1, 0, hok, rfl, rfl⟩ 0 eventTypeIrq (1#32 <<< vec.val) ?_ ?_ ?_
    · intro heq
      exact absurd (congrFun heq 1) (by decide : (0 : BitVec 32) ≠ 1)
    · exact subscribes_irq rfl (hbit vec)
    · exact subscribes_irq rfl (hbit vec)
  | fvdInterruptService regs => exact absurd trivial hi
  | fvdIrq1Service regs now => exact absurd trivial hi
  | fvdIrq2Service regs now => exact absurd trivial hi

/-- What user space reads of the events does not depend on the handlers' stacks exactly if each
handler clears its variable or creates no event. -/
theorem noStackLeak_iff (ok : Interrupt → Prop) : NoStackLeak ok ↔ ∀ i, ok i → i.Clean := by
  constructor
  · intro hno i hi
    by_contra hclean
    exact leak_of_not_clean hi hclean hno
  · exact noStackLeak_of_clean

theorem stack_leaks : ¬ NoStackLeak fun _ => True :=
  leak_of_not_clean (i := .defaultMsiHandler true 8) trivial (by simp [Interrupt.Clean])

end BifrostModule.Cdev
