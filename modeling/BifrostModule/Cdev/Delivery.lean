import BifrostModule.Foundation.InFlight
import BifrostModule.Cdev.Mailbox

/-! # The driver delivers events as independent mailboxes would

The abstraction reads one mailbox off each open handle. Each step of the driver
acts on the mailboxes as one operation, and the handles, their counters, the
workqueue and the copies are accounted for along every run.
-/
namespace BifrostModule.Cdev
open Foundation Foundation.InFlight Foundation.BoundedFifo

variable {γ : Type*}

namespace State

/-- The event that the running work item is about to enqueue on the handle. -/
def offered (s : State γ) (a : Addr) : Option (Work γ) :=
  s.running.bind fun d => if d.left.head? = some a then d.copy.map EventCont.work else none

def mailbox (s : State γ) (a : Addr) (h : UserHandle γ) : Mailbox γ where
  enabled := h.eventEnableMask
  forwarded := h.irqForwardingMask
  pending := h.eventList.map EventCont.work
  accepted := s.offered a

def abs (s : State γ) : Mailboxes γ := ⟨fun a => (s.handles a).map (s.mailbox a), s.results⟩

/-- The operation on the mailboxes that a step of the driver performs. -/
def view (s : State γ) : Label γ → Op γ
  | .bifrostOpen a allocated => if allocated then .opened a else .idle
  | .bifrostRelease a => .closed a
  | .enableEvent a mask => .enable a mask
  | .irqForwarding a mask => .forwardIrq a mask
  | .dequeueEvent a now copied => .dequeue a now copied
  | .createEvent _ _ => .idle
  | .run _ => .idle
  | .visit allocated =>
    match s.running with
    | some ⟨w, now, visited, a :: left, copy⟩ =>
      .accept a (Delivery.stamped ⟨w, now, visited, a :: left, copy⟩) allocated
    | _ => .idle
  | .enqueue =>
    match s.running with
    | some ⟨_, _, _, a :: _, _⟩ => .append a
    | _ => .idle
  | .finish => .idle

/-- The counter of a handle is the number of its pending events, which is bounded. -/
def Counted (h : UserHandle γ) : Prop :=
  h.eventListCount.toNat = h.eventList.length ∧ h.eventList.length ≤ eventBufferSize

def pendingAt (s : State γ) (a : Addr) : Multiset ℕ :=
  (s.handles a).elim 0 fun h => ↑(h.eventList.map EventCont.id)

def pending (s : State γ) : Multiset ℕ := (s.list.map s.pendingAt).sum

def inHand (s : State γ) : Multiset ℕ :=
  held (s.running.bind fun d => d.copy.map EventCont.id)

def runningWork (s : State γ) : List (Work γ) := (s.running.map Delivery.work).toList

/-- The driver's invariant. The running work item has yet to visit, or has visited, each open
handle once; the work items are in order; each allocated copy is in one place. -/
structure Inv (s : State γ) : Prop where
  counted : ∀ a h, s.handles a = some h → Counted h
  listed : ∀ a, a ∈ s.list ↔ (s.handles a).isSome
  nodup : s.list.Nodup
  covered : ∀ d, s.running = some d → d.visited ++ d.left = s.list
  ordered : s.created = s.served ++ s.runningWork ++ s.queue
  accounted : Multiset.range s.copies = s.pending + s.inHand + ↑s.freed

variable {s t : State γ} {a : Addr} {h : UserHandle γ}

theorem abs_ext {b : Mailboxes γ} (hbox : s.abs.box = b.box) (hres : s.results = b.results) :
    s.abs = b := Mailboxes.ext hbox hres

/-- One mailbox changes when one handle does. -/
theorem abs_box (s t : State γ) (a : Addr) (o : Option (UserHandle γ))
    (ht : t.handles = Function.update s.handles a o)
    (hoff : ∀ b, b ≠ a → t.offered b = s.offered b) :
    t.abs.box = Function.update s.abs.box a (o.map (t.mailbox a)) := by
  funext b
  by_cases hb : b = a
  · subst hb
    simp only [abs, ht, Function.update_self]
  · have hm : t.mailbox b = s.mailbox b := by
      funext h
      simp only [mailbox, hoff b hb]
    simp only [abs, ht, Function.update_of_ne hb, hm]

theorem abs_box_self (ha : s.handles a = some h) : s.abs.box a = some (s.mailbox a h) := by
  simp only [abs, ha, Option.map_some]

theorem abs_modify (ha : s.handles a = some h) {h' : UserHandle γ} {f : Mailbox γ → Mailbox γ}
    (ht : t.handles = Function.update s.handles a (some h'))
    (hoff : ∀ b, b ≠ a → t.offered b = s.offered b)
    (hf : t.mailbox a h' = f (s.mailbox a h)) : t.abs.box = (s.abs.modify a f).box := by
  rw [abs_box s t a (some h') ht hoff, Mailboxes.modify, abs_box_self ha, Option.map_some,
    Option.map_some, hf]

theorem abs_idle (ht : t.handles = s.handles) (hoff : ∀ b, t.offered b = s.offered b)
    (hres : t.results = s.results) : t.abs = s.abs := by
  apply abs_ext
  · have hm : t.mailbox = s.mailbox := by
      funext b h
      simp only [mailbox, hoff b]
    simp only [abs, ht, hm]
  · exact hres

/-- The handle's filter is the mailbox's subscription. -/
theorem enqueueOnThisHandle_iff (s : State γ) (a : Addr) (h : UserHandle γ) (e : Event) :
    h.enqueueOnThisHandle a e = true ↔ (s.mailbox a h).Subscribes a e := by
  have hne : eventTypeDmaDone ≠ eventTypeIrq := by decide
  unfold UserHandle.enqueueOnThisHandle Mailbox.Subscribes
  change _ ↔ e.type &&& h.eventEnableMask ≠ 0 ∧
    (e.type = eventTypeIrq → h.irqForwardingMask &&& e.irqSource ≠ 0) ∧ _
  by_cases hm : e.type &&& h.eventEnableMask = 0
  · simp [hm]
  · rw [if_neg hm, and_iff_right hm]
    by_cases hirq : e.type = eventTypeIrq
    · simp [hirq, hne.symm]
    · by_cases hdma : e.type = eventTypeDmaDone
      · simp [hdma, hne]
      · simp [hirq, hdma]

theorem abs_open (hrun : s.running = none) (a : Addr) :
    (s.openHandle a).abs = s.abs.act (.opened a) := by
  apply abs_ext
  · refine (abs_box s (s.openHandle a) a (some .fresh) rfl fun _ _ => rfl).trans ?_
    simp [Mailboxes.act, mailbox, offered, openHandle, setHandle, hrun, UserHandle.fresh]
  · rfl

theorem abs_release (s : State γ) (a : Addr) (h : UserHandle γ) :
    (s.releaseHandle a h).abs = s.abs.act (.closed a) := by
  apply abs_ext
  · exact abs_box s (s.releaseHandle a h) a none rfl fun _ _ => rfl
  · rfl

theorem abs_setHandle (ha : s.handles a = some h) (h' : UserHandle γ) (f : Mailbox γ → Mailbox γ)
    (hf : s.mailbox a h' = f (s.mailbox a h)) :
    (s.setHandle a (some h')).abs = s.abs.modify a f := by
  apply abs_ext
  · exact abs_modify ha rfl (fun _ _ => rfl) hf
  · rfl

theorem dequeue_nil (hl : h.eventList = []) (now : ℕ) (copied : Bool) :
    s.dequeue a h now copied = { s with results := s.results ++ [(a, .error .EINVAL)] } := by
  simp [dequeue, UserHandle.dequeueEvent, hl]

def rest (h : UserHandle γ) : UserHandle γ :=
  { h with eventList := h.eventList.tail, eventListCount := h.eventListCount - 1 }

theorem dequeue_cons {p : EventCont γ} {l : List (EventCont γ)} (hl : h.eventList = p :: l)
    (now : ℕ) (copied : Bool) :
    s.dequeue a h now copied = { s.setHandle a (some (rest h)) with
      freed := s.freed ++ [p.id]
      results := s.results ++ [(a, forward p.work now copied)] } := by
  simp [dequeue, UserHandle.dequeueEvent, hl, rest]

/-- What the ioctl returns is the mailbox's oldest event, or that it has none. -/
theorem abs_dequeue (ha : s.handles a = some h) (now : ℕ) (copied : Bool) :
    (s.dequeue a h now copied).abs = s.abs.act (.dequeue a now copied) := by
  have hact : s.abs.act (.dequeue a now copied) =
      ⟨(s.abs.modify a Mailbox.remove).box,
        s.results ++ [(a, (s.mailbox a h).oldest now copied)]⟩ := by
    change Mailboxes.mk _ (s.results ++ ((s.abs.box a).map _).toList) = _
    rw [abs_box_self ha]
    rfl
  rw [hact]
  cases hl : h.eventList with
  | nil =>
    rw [dequeue_nil hl]
    apply abs_ext
    · have hself : s.handles = Function.update s.handles a (some h) := by
        rw [← ha, Function.update_eq_self]
      refine abs_modify ha hself (fun _ _ => rfl) ?_
      simp [mailbox, Mailbox.remove, hl, offered]
    · simp [Mailbox.oldest, mailbox, hl]
  | cons p l =>
    rw [dequeue_cons hl]
    apply abs_ext
    · refine abs_modify ha rfl (fun _ _ => rfl) ?_
      simp [mailbox, Mailbox.remove, hl, offered, rest, setHandle]
    · simp [Mailbox.oldest, mailbox, hl]

section Counting

/-- A counted handle takes a copy exactly if fewer than `eventBufferSize` are pending. -/
theorem enqueueEvent_eq (hc : Counted h) (p : EventCont γ) :
    h.enqueueEvent p =
      if h.eventList.length < eventBufferSize then
        (true, { h with eventList := h.eventList ++ [p], eventListCount := h.eventListCount + 1 })
      else (false, h) := by
  unfold UserHandle.enqueueEvent
  rw [hc.1]
  by_cases hlt : h.eventList.length < eventBufferSize
  · rw [if_pos hlt, if_neg (by omega)]
  · rw [if_neg hlt, if_pos (by omega)]

theorem eventList_enqueueEvent (hc : Counted h) (p : EventCont γ) :
    (h.enqueueEvent p).2.eventList = offer eventBufferSize h.eventList p := by
  rw [enqueueEvent_eq hc, offer]
  split <;> rfl

theorem counted_fresh : Counted (UserHandle.fresh : UserHandle γ) := by
  simp [Counted, UserHandle.fresh]

theorem counted_enqueueEvent (hc : Counted h) (p : EventCont γ) :
    Counted (h.enqueueEvent p).2 := by
  refine ⟨?_, eventList_enqueueEvent hc p ▸ length_offer_le hc.2⟩
  rw [enqueueEvent_eq hc]
  have hcount := hc.1
  have hone : (1 : BitVec 32).toNat = 1 := rfl
  split
  · rename_i hlt
    have hcap : h.eventList.length < 20 := hlt
    simp only [List.length_append, List.length_singleton, BitVec.toNat_add, hone]
    omega
  · exact hcount

theorem counted_rest (hc : Counted h) (hne : h.eventList ≠ []) : Counted (rest h) := by
  have hpos : 0 < h.eventList.length := List.length_pos_iff.mpr hne
  have hone : (1 : BitVec 32).toNat = 1 := rfl
  have hcap : h.eventList.length ≤ 20 := hc.2
  obtain ⟨hcount, hle⟩ := hc
  constructor
  · simp only [rest, List.length_tail, BitVec.toNat_sub, hone]
    omega
  · simp only [rest, List.length_tail]
    omega

end Counting

section Delivering
variable {d : Delivery γ} {left : List Addr}

theorem offered_eq (hrun : s.running = some d) (hleft : d.left = a :: left) :
    s.offered a = d.copy.map EventCont.work := by
  simp [offered, hrun, hleft]

theorem offered_ne (hrun : s.running = some d) (hleft : d.left = a :: left) {b : Addr}
    (hb : b ≠ a) : s.offered b = none := by
  simp [offered, hrun, hleft, hb.symm]

theorem offered_none (hrun : s.running = some d) (hcopy : d.copy = none) (b : Addr) :
    s.offered b = none := by
  simp [offered, hrun, hcopy]

theorem abs_visit (ha : s.handles a = some h) (hrun : s.running = some d)
    (hleft : d.left = a :: left) (hcopy : d.copy = none) (allocated : Bool) :
    (s.visit d a h allocated).abs = s.abs.act (.accept a d.stamped allocated) := by
  have hsub := enqueueOnThisHandle_iff s a h d.stamped.event
  have hself : s.handles = Function.update s.handles a (some h) := by
    rw [← ha, Function.update_eq_self]
  unfold visit
  by_cases hacc : h.enqueueOnThisHandle a d.stamped.event ∧ allocated
  · rw [if_pos hacc]
    apply abs_ext
    · refine abs_modify ha hself (fun b hb => ?_) ?_
      · rw [offered_none hrun hcopy]
        exact offered_ne (d := { d with copy := some ⟨s.copies, d.stamped⟩ }) rfl hleft hb
      · rw [Mailbox.accept, if_pos ⟨hsub.mp hacc.1, hacc.2⟩]
        simp [mailbox, offered, hleft]
    · rfl
  · rw [if_neg hacc]
    apply abs_ext
    · refine abs_modify ha hself (fun b _ => ?_) ?_
      · rw [offered_none hrun hcopy]
        exact offered_none (d := d.next) rfl rfl b
      · rw [Mailbox.accept, if_neg fun hm => hacc ⟨hsub.mpr hm.1, hm.2⟩]
        simp [mailbox, offered, hrun, hcopy, Delivery.next]
    · rfl

/-- The enqueueing of the copy appends the accepted event, unless the mailbox is full. -/
theorem abs_enqueue {p : EventCont γ} (ha : s.handles a = some h) (hc : Counted h)
    (hrun : s.running = some d) (hleft : d.left = a :: left) (hcopy : d.copy = some p) :
    (s.enqueue d a h p).abs = s.abs.act (.append a) := by
  apply abs_ext
  · refine abs_modify ha rfl (fun b hb => ?_) ?_
    · rw [offered_ne hrun hleft hb]
      exact offered_none (d := d.next) rfl rfl b
    · have hacc : (s.mailbox a h).accepted = some p.work := by
        simp [mailbox, offered_eq hrun hleft, hcopy]
      have hnone : (s.enqueue d a h p).offered a = none :=
        offered_none (d := d.next) rfl rfl a
      rw [Mailbox.append, hacc]
      simp only [mailbox, hnone, eventList_enqueueEvent hc, map_offer, Mailbox.mk.injEq,
        and_true]
      rw [enqueueEvent_eq hc]
      split <;> exact ⟨rfl, rfl⟩
  · rfl

end Delivering

/-! ## What each step can do -/

section Steps

theorem step_open {allocated : Bool} (hst : s.step (.bifrostOpen a allocated) = some t) :
    s.running = none ∧ s.handles a = none ∧ t = if allocated then s.openHandle a else s := by
  simp only [step] at hst
  split at hst
  · rename_i hrun ha
    exact ⟨hrun, ha, (Option.some.inj hst).symm⟩
  · cases hst

theorem step_release (hst : s.step (.bifrostRelease a) = some t) :
    s.running = none ∧ ∃ h, s.handles a = some h ∧ t = s.releaseHandle a h := by
  simp only [step] at hst
  split at hst
  · rename_i h hrun ha
    exact ⟨hrun, h, ha, (Option.some.inj hst).symm⟩
  · cases hst

theorem map_handle {f : UserHandle γ → State γ} (hst : (s.handles a).map f = some t) :
    ∃ h, s.handles a = some h ∧ t = f h := by
  obtain ⟨h, ha, rfl⟩ := Option.map_eq_some_iff.mp hst
  exact ⟨h, ha, rfl⟩

theorem step_run {now : ℕ} (hst : s.step (.run now) = some t) :
    s.running = none ∧ ∃ w queue, s.queue = w :: queue ∧
      t = { s with queue := queue, running := some ⟨w, now, [], s.list, none⟩ } := by
  simp only [step] at hst
  split at hst
  · rename_i w queue hrun hq
    exact ⟨hrun, w, queue, hq, (Option.some.inj hst).symm⟩
  · cases hst

theorem step_visit {allocated : Bool} (hst : s.step (.visit allocated) = some t) :
    ∃ d a left h, s.running = some d ∧ d.left = a :: left ∧ d.copy = none ∧
      s.handles a = some h ∧ t = s.visit d a h allocated := by
  simp only [step] at hst
  split at hst
  · rename_i hrun
    obtain ⟨h, ha, rfl⟩ := map_handle hst
    exact ⟨_, _, _, h, hrun, rfl, rfl, ha, rfl⟩
  · cases hst

theorem step_enqueue (hst : s.step .enqueue = some t) :
    ∃ d a left p h, s.running = some d ∧ d.left = a :: left ∧ d.copy = some p ∧
      s.handles a = some h ∧ t = s.enqueue d a h p := by
  simp only [step] at hst
  split at hst
  · rename_i hrun
    obtain ⟨h, ha, rfl⟩ := map_handle hst
    exact ⟨_, _, _, _, h, hrun, rfl, rfl, ha, rfl⟩
  · cases hst

theorem step_finish (hst : s.step .finish = some t) :
    ∃ d, s.running = some d ∧ d.left = [] ∧ d.copy = none ∧
      t = { s with running := none, served := s.served ++ [d.work] } := by
  simp only [step] at hst
  split at hst
  · rename_i hrun
    exact ⟨_, hrun, rfl, rfl, (Option.some.inj hst).symm⟩
  · cases hst

end Steps

/-- Each step of the driver acts on the mailboxes as the operation it stands for. -/
theorem abs_step {l : Label γ} (hi : s.Inv) (hst : s.step l = some t) :
    t.abs = s.abs.act (s.view l) := by
  cases l with
  | bifrostOpen a allocated =>
    obtain ⟨hrun, -, rfl⟩ := step_open hst
    cases allocated with
    | true => exact abs_open hrun a
    | false => rfl
  | bifrostRelease a =>
    obtain ⟨-, h, -, rfl⟩ := step_release hst
    exact abs_release s a h
  | enableEvent a mask =>
    obtain ⟨h, ha, rfl⟩ := map_handle hst
    exact abs_setHandle ha _ _ rfl
  | irqForwarding a mask =>
    obtain ⟨h, ha, rfl⟩ := map_handle hst
    exact abs_setHandle ha _ _ rfl
  | dequeueEvent a now copied =>
    obtain ⟨h, ha, rfl⟩ := map_handle hst
    exact abs_dequeue ha now copied
  | createEvent work allocated =>
    obtain rfl := Option.some.inj hst
    cases allocated <;> rfl
  | run now =>
    obtain ⟨hrun, w, queue, -, rfl⟩ := step_run hst
    change _ = s.abs
    apply abs_idle
    · rfl
    · intro b
      simp [offered, hrun]
    · rfl
  | visit allocated =>
    obtain ⟨⟨w, now, visited, -, -⟩, a, left, h, hrun, rfl, rfl, ha, rfl⟩ := step_visit hst
    rw [abs_visit ha hrun rfl rfl]
    simp only [view, hrun]
  | enqueue =>
    obtain ⟨⟨w, now, visited, -, -⟩, a, left, p, h, hrun, rfl, rfl, ha, rfl⟩ := step_enqueue hst
    rw [abs_enqueue ha (hi.counted a h ha) hrun rfl rfl]
    simp only [view, hrun]
  | finish =>
    obtain ⟨d, hrun, -, hcopy, rfl⟩ := step_finish hst
    change _ = s.abs
    apply abs_idle
    · rfl
    · intro b
      rw [offered_none hrun hcopy]
      rfl
    · rfl

/-! ## The invariant -/

section Preservation

theorem inHand_eq {d : Delivery γ} (hrun : s.running = some d) :
    s.inHand = held (d.copy.map EventCont.id) := by
  simp [inHand, hrun]

theorem runningWork_eq {d : Delivery γ} (hrun : s.running = some d) :
    s.runningWork = [d.work] := by
  simp [runningWork, hrun]

theorem inHand_idle (hrun : s.running = none) : s.inHand = 0 := by
  simp [inHand, hrun]

theorem runningWork_idle (hrun : s.running = none) : s.runningWork = [] := by
  simp [runningWork, hrun]

theorem Inv.mem_list (hi : s.Inv) (ha : s.handles a = some h) : a ∈ s.list := by
  rw [hi.listed, ha]
  rfl

/-- The pending copies after a change of one open handle. -/
theorem pending_change (hi : s.Inv) (ha : s.handles a = some h) {h' : UserHandle γ}
    (hlist : t.list = s.list) (ht : t.handles = Function.update s.handles a (some h')) :
    t.pending + ↑(h.eventList.map EventCont.id) =
      ↑(h'.eventList.map EventCont.id) + s.pending := by
  have hother : ∀ b, b ≠ a → t.pendingAt b = s.pendingAt b := by
    intro b hb
    simp only [pendingAt, ht, Function.update_of_ne hb]
  have hchange := sum_map_change hi.nodup (hi.mem_list ha) hother
  have hold : s.pendingAt a = ↑(h.eventList.map EventCont.id) := by
    simp only [pendingAt, ha, Option.elim_some]
  have hnew : t.pendingAt a = ↑(h'.eventList.map EventCont.id) := by
    simp only [pendingAt, ht, Function.update_self, Option.elim_some]
  rw [hold, hnew] at hchange
  rw [pending, pending, hlist]
  exact hchange

/-- A change of one open handle, its list of copies included, keeps the handles in order. -/
theorem Inv.change (hi : s.Inv) (ha : s.handles a = some h) {h' : UserHandle γ}
    (hc : Counted h') (hlist : t.list = s.list)
    (ht : t.handles = Function.update s.handles a (some h'))
    (hcov : ∀ d, t.running = some d → d.visited ++ d.left = s.list)
    (hord : t.created = t.served ++ t.runningWork ++ t.queue)
    (hacc : Multiset.range t.copies = t.pending + t.inHand + ↑t.freed) : t.Inv where
  counted b g hg := by
    rw [ht] at hg
    by_cases hb : b = a
    · rw [hb, Function.update_self, Option.some.injEq] at hg
      exact hg ▸ hc
    · rw [Function.update_of_ne hb] at hg
      exact hi.counted b g hg
  listed b := by
    rw [hlist, ht, hi.listed]
    by_cases hb : b = a
    · rw [hb, Function.update_self, ha]
      rfl
    · rw [Function.update_of_ne hb]
  nodup := hlist ▸ hi.nodup
  covered d hd := hlist ▸ hcov d hd
  ordered := hord
  accounted := hacc

theorem inv_initial : (initial : State γ).Inv where
  counted _ _ h := by cases h
  listed a := by simp [initial]
  nodup := List.nodup_nil
  covered _ h := by cases h
  ordered := rfl
  accounted := rfl

theorem inv_open (hi : s.Inv) (hrun : s.running = none) (ha : s.handles a = none) :
    (s.openHandle a).Inv := by
  have hnot : a ∉ s.list := by
    rw [hi.listed, ha]
    exact Bool.false_ne_true
  refine ⟨?_, ?_, List.nodup_cons.mpr ⟨hnot, hi.nodup⟩, ?_, hi.ordered, ?_⟩
  · intro b g hg
    by_cases hb : b = a
    · rw [hb] at hg
      simp only [openHandle, setHandle, Function.update_self, Option.some.injEq] at hg
      exact hg ▸ counted_fresh
    · simp only [openHandle, setHandle, Function.update_of_ne hb] at hg
      exact hi.counted b g hg
  · intro b
    by_cases hb : b = a
    · simp [openHandle, setHandle, hb]
    · simp [openHandle, setHandle, hb, hi.listed]
  · intro d hd
    simp only [openHandle, setHandle, hrun] at hd
    cases hd
  · have hpend : (s.openHandle a).pending = s.pending := by
      have hrest : s.list.map (s.openHandle a).pendingAt = s.list.map s.pendingAt := by
        apply List.map_congr_left
        intro b hb
        have hne : b ≠ a := fun heq => hnot (heq ▸ hb)
        simp [pendingAt, openHandle, setHandle, hne]
      change ((a :: s.list).map _).sum = _
      rw [List.map_cons, List.sum_cons, hrest]
      simp [pendingAt, openHandle, setHandle, UserHandle.fresh, pending]
    rw [hpend]
    exact hi.accounted

theorem inv_release (hi : s.Inv) (hrun : s.running = none) (ha : s.handles a = some h) :
    (s.releaseHandle a h).Inv := by
  have hmem := hi.mem_list ha
  refine ⟨?_, ?_, hi.nodup.erase a, ?_, hi.ordered, ?_⟩
  · intro b g hg
    by_cases hb : b = a
    · simp [releaseHandle, setHandle, hb] at hg
    · simp only [releaseHandle, setHandle, Function.update_of_ne hb] at hg
      exact hi.counted b g hg
  · intro b
    by_cases hb : b = a
    · simp [releaseHandle, setHandle, hb, hi.nodup.mem_erase_iff]
    · simp [releaseHandle, setHandle, hb, hi.nodup.mem_erase_iff, hi.listed]
  · intro d hd
    simp only [releaseHandle, setHandle, hrun] at hd
    cases hd
  · have hpend : s.pending =
        ↑(h.eventList.map EventCont.id) + (s.releaseHandle a h).pending := by
      have hrest : (s.list.erase a).map (s.releaseHandle a h).pendingAt =
          (s.list.erase a).map s.pendingAt := by
        apply List.map_congr_left
        intro b hb
        have hne : b ≠ a := (hi.nodup.mem_erase_iff.mp hb).1
        simp [pendingAt, releaseHandle, setHandle, hne]
      change _ = _ + ((s.list.erase a).map _).sum
      rw [hrest, pending, ← List.sum_map_erase s.pendingAt hmem]
      simp [pendingAt, ha]
    have hacc := hi.accounted
    rw [hpend] at hacc
    change Multiset.range s.copies = _ + s.inHand + ↑(s.freed ++ h.eventList.map EventCont.id)
    rw [hacc, ← Multiset.coe_add]
    abel

theorem inv_setMasks (hi : s.Inv) (ha : s.handles a = some h) {h' : UserHandle γ}
    (hl : h'.eventList = h.eventList) (hn : h'.eventListCount = h.eventListCount) :
    (s.setHandle a (some h')).Inv := by
  have hc : Counted h' := by
    rw [Counted, hl, hn]
    exact hi.counted a h ha
  have hpend : (s.setHandle a (some h')).pending = s.pending := by
    have hchange := pending_change (t := s.setHandle a (some h')) hi ha rfl rfl
    rw [hl, add_comm] at hchange
    exact add_left_cancel hchange
  refine hi.change ha hc rfl rfl hi.covered hi.ordered ?_
  rw [hpend]
  exact hi.accounted

theorem inv_dequeue (hi : s.Inv) (ha : s.handles a = some h) (now : ℕ) (copied : Bool) :
    (s.dequeue a h now copied).Inv := by
  cases hl : h.eventList with
  | nil =>
    rw [dequeue_nil hl]
    exact ⟨hi.counted, hi.listed, hi.nodup, hi.covered, hi.ordered, hi.accounted⟩
  | cons p l =>
    rw [dequeue_cons hl]
    have hc : Counted (rest h) := counted_rest (hi.counted a h ha) (by simp [hl])
    have hpend := pending_change (t := s.setHandle a (some (rest h))) hi ha rfl rfl
    have hrest : (rest h).eventList = l := by simp [rest, hl]
    refine hi.change ha hc rfl rfl hi.covered hi.ordered ?_
    change Multiset.range s.copies =
      (s.setHandle a (some (rest h))).pending + s.inHand + ↑(s.freed ++ [p.id])
    rw [hrest, hl, List.map_cons, ← Multiset.cons_coe, ← Multiset.singleton_add,
      add_comm _ s.pending, ← add_assoc] at hpend
    rw [hi.accounted, ← add_right_cancel hpend, ← Multiset.coe_add, Multiset.coe_singleton]
    abel

theorem inv_createEvent (hi : s.Inv) (work : Work γ) (allocated : Bool) :
    (s.createEvent work allocated).Inv := by
  cases allocated with
  | false => exact hi
  | true =>
    refine ⟨hi.counted, hi.listed, hi.nodup, hi.covered, ?_, hi.accounted⟩
    change s.created ++ [work] = s.served ++ s.runningWork ++ (s.queue ++ [work])
    rw [hi.ordered, List.append_assoc _ s.queue]

theorem inv_run {w : Work γ} {queue : List (Work γ)} (hi : s.Inv) (hrun : s.running = none)
    (hq : s.queue = w :: queue) (now : ℕ) :
    ({ s with queue := queue, running := some ⟨w, now, [], s.list, none⟩ } : State γ).Inv := by
  refine ⟨hi.counted, hi.listed, hi.nodup, ?_, ?_, ?_⟩
  · intro d hd
    obtain rfl := Option.some.inj hd
    rfl
  · have hord := hi.ordered
    rw [runningWork_idle hrun, hq] at hord
    rw [runningWork_eq rfl, hord]
    simp
  · have hacc := hi.accounted
    rw [inHand_idle hrun] at hacc
    rw [inHand_eq rfl]
    exact hacc

/-- The running work item moves on to the next handle. -/
theorem next_covered {d : Delivery γ} : d.next.visited ++ d.next.left = d.visited ++ d.left := by
  rw [Delivery.next, List.append_assoc, ← List.drop_one, List.take_append_drop]

theorem inv_visit {d : Delivery γ} (hi : s.Inv) (hrun : s.running = some d)
    (hcopy : d.copy = none) (a : Addr) (h : UserHandle γ) (allocated : Bool) :
    (s.visit d a h allocated).Inv := by
  have hord := hi.ordered
  have hacc := hi.accounted
  rw [runningWork_eq hrun] at hord
  rw [inHand_eq hrun, hcopy] at hacc
  unfold visit
  split
  · refine ⟨hi.counted, hi.listed, hi.nodup, ?_, ?_, ?_⟩
    · intro e he
      obtain rfl := Option.some.inj he
      exact hi.covered d hrun
    · rw [runningWork_eq rfl]
      exact hord
    · rw [inHand_eq rfl]
      change Multiset.range (s.copies + 1) = s.pending + {s.copies} + ↑s.freed
      rw [Multiset.range_succ, ← Multiset.singleton_add, hacc]
      simp only [Option.map_none, held_none]
      abel
  · refine ⟨hi.counted, hi.listed, hi.nodup, ?_, ?_, ?_⟩
    · intro e he
      obtain rfl := Option.some.inj he
      exact next_covered.trans (hi.covered d hrun)
    · rw [runningWork_eq rfl]
      exact hord
    · rw [inHand_eq rfl]
      exact hacc

theorem inv_enqueue {d : Delivery γ} {p : EventCont γ} (hi : s.Inv) (hrun : s.running = some d)
    (hcopy : d.copy = some p) (ha : s.handles a = some h) : (s.enqueue d a h p).Inv := by
  have hcounted := hi.counted a h ha
  have hord := hi.ordered
  have hacc := hi.accounted
  rw [runningWork_eq hrun] at hord
  rw [inHand_eq hrun, hcopy] at hacc
  refine hi.change ha (counted_enqueueEvent hcounted p) rfl rfl ?_ ?_ ?_
  · intro e he
    obtain rfl := Option.some.inj he
    exact next_covered.trans (hi.covered d hrun)
  · rw [runningWork_eq (d := d.next) rfl]
    exact hord
  · have hpend := pending_change (t := s.enqueue d a h p) hi ha rfl rfl
    rw [inHand_eq (d := d.next) rfl]
    change Multiset.range s.copies = (s.enqueue d a h p).pending + 0 +
      ↑(if (h.enqueueEvent p).1 then s.freed else s.freed ++ [p.id])
    rw [hacc]
    rw [enqueueEvent_eq hcounted] at hpend ⊢
    by_cases hlt : h.eventList.length < eventBufferSize
    · rw [if_pos hlt] at hpend ⊢
      rw [List.map_append, ← Multiset.coe_add, add_assoc, add_comm] at hpend
      rw [add_left_cancel hpend]
      simp only [if_true, List.map_singleton, Multiset.coe_singleton, Option.map_some, held_some]
      abel
    · rw [if_neg hlt] at hpend ⊢
      rw [add_comm] at hpend
      rw [add_left_cancel hpend]
      simp only [Bool.false_eq_true, if_false, ← Multiset.coe_add, Multiset.coe_singleton,
        Option.map_some, held_some]
      abel

theorem inv_finish {d : Delivery γ} (hi : s.Inv) (hrun : s.running = some d)
    (hcopy : d.copy = none) :
    ({ s with running := none, served := s.served ++ [d.work] } : State γ).Inv := by
  refine ⟨hi.counted, hi.listed, hi.nodup, ?_, ?_, ?_⟩
  · intro e he
    cases he
  · have hord := hi.ordered
    rw [runningWork_eq hrun] at hord
    rw [runningWork_idle rfl, List.append_nil]
    exact hord
  · have hacc := hi.accounted
    rw [inHand_eq hrun, hcopy] at hacc
    rw [inHand_idle rfl]
    exact hacc

end Preservation

theorem inv_step {l : Label γ} (hi : s.Inv) (hst : s.step l = some t) : t.Inv := by
  cases l with
  | bifrostOpen a allocated =>
    obtain ⟨hrun, ha, rfl⟩ := step_open hst
    cases allocated with
    | true => exact inv_open hi hrun ha
    | false => exact hi
  | bifrostRelease a =>
    obtain ⟨hrun, h, ha, rfl⟩ := step_release hst
    exact inv_release hi hrun ha
  | enableEvent a mask =>
    obtain ⟨h, ha, rfl⟩ := map_handle hst
    exact inv_setMasks hi ha rfl rfl
  | irqForwarding a mask =>
    obtain ⟨h, ha, rfl⟩ := map_handle hst
    exact inv_setMasks hi ha rfl rfl
  | dequeueEvent a now copied =>
    obtain ⟨h, ha, rfl⟩ := map_handle hst
    exact inv_dequeue hi ha now copied
  | createEvent work allocated =>
    obtain rfl := Option.some.inj hst
    exact inv_createEvent hi work allocated
  | run now =>
    obtain ⟨hrun, w, queue, hq, rfl⟩ := step_run hst
    exact inv_run hi hrun hq now
  | visit allocated =>
    obtain ⟨d, a, left, h, hrun, -, hcopy, -, rfl⟩ := step_visit hst
    exact inv_visit hi hrun hcopy a h allocated
  | enqueue =>
    obtain ⟨d, a, left, p, h, hrun, -, hcopy, ha, rfl⟩ := step_enqueue hst
    exact inv_enqueue hi hrun hcopy ha
  | finish =>
    obtain ⟨d, hrun, -, hcopy, rfl⟩ := step_finish hst
    exact inv_finish hi hrun hcopy

theorem Inv.freed_nodup (hi : s.Inv) : s.freed.Nodup := by
  have hle : (↑s.freed : Multiset ℕ) ≤ Multiset.range s.copies := by
    rw [hi.accounted]
    exact Multiset.le_add_left _ _
  exact Multiset.coe_nodup.mp (Multiset.nodup_of_le hle (Multiset.nodup_range _))

/-- Once the handles are closed every copy has been freed. -/
theorem Inv.freed_all (hi : s.Inv) (hlist : s.list = []) (hrun : s.running = none) :
    s.freed.Perm (List.range s.copies) := by
  have hacc := hi.accounted
  rw [inHand_idle hrun, pending, hlist] at hacc
  simp only [List.map_nil, List.sum_nil, zero_add] at hacc
  exact (Multiset.coe_eq_coe.mp hacc).symm

end State

open State in
/-- Along every run each open handle is its own bounded queue: it is what the operations on it make
of an empty mailbox, and the dequeueing ioctls return what the mailboxes hold. Work items run in
their order, each visits every open handle once, the counters are exact, and a copy is pending, in
the hand of the running work item or freed, once. -/
theorem events_delivered {as : List (Label γ)} {t : State γ}
    (hrun : (cdev γ).exec .initial as = some t) :
    t.abs = ((cdev γ).views State.view .initial as).foldl Mailboxes.act .empty ∧
    (∀ a, t.abs.box a = ((((cdev γ).views State.view .initial as).filter
      fun op => op.target = some a).foldl Mailboxes.act .empty).box a) ∧
    (∀ a h, t.handles a = some h → h.eventListCount.toNat = h.eventList.length ∧
      h.eventList.length ≤ eventBufferSize) ∧
    t.created = t.served ++ t.runningWork ++ t.queue ∧
    (∀ d, t.running = some d → (d.visited ++ d.left).Nodup ∧
      ∀ a, a ∈ d.visited ++ d.left ↔ (t.handles a).isSome) ∧
    Multiset.range t.copies = t.pending + t.inHand + ↑t.freed ∧ t.freed.Nodup ∧
    (t.list = [] → t.running = none → t.freed.Perm (List.range t.copies)) := by
  have hinv : t.Inv := (Machine.Reachable.of_exec (.start rfl) hrun).invariant (I := Inv)
    (fun _ h => h ▸ inv_initial) fun _ _ _ hi h => inv_step hi h
  have hsim : ∀ s l u, State.Inv s → (cdev γ).step s l = some u →
      u.abs = s.abs.act (s.view l) := fun _ _ _ hi h => abs_step hi h
  have habs : t.abs = ((cdev γ).views State.view .initial as).foldl Mailboxes.act .empty :=
    Machine.exec_abs (I := Inv) (fun _ _ _ hi h => inv_step hi h) hsim inv_initial hrun
  refine ⟨habs, fun a => ?_, hinv.counted, hinv.ordered, fun d hd => ?_, hinv.accounted,
    hinv.freed_nodup, hinv.freed_all⟩
  · rw [habs]
    exact Mailboxes.foldl_act_box _ a rfl
  · rw [hinv.covered d hd]
    exact ⟨hinv.nodup, hinv.listed⟩

/-- One handle subscribes to an interrupt, takes the event and is closed. -/
theorem events_delivered_irq : ∃ t : State Unit, t.freed = [0] ∧
    Multiset.range t.copies = t.pending + t.inHand + ↑t.freed := by
  have hrun : ((cdev Unit).exec .initial
      [.bifrostOpen 8 true, .enableEvent 8 1, .irqForwarding 8 2,
        .createEvent ⟨⟨eventTypeIrq, fun _ => 2, 0, 0⟩, ()⟩ true, .run 5, .visit true, .enqueue,
        .finish, .dequeueEvent 8 7 true, .bifrostRelease 8]).map
      (fun t => decide (t.freed = [0])) = some true := by decide
  obtain ⟨t, ht, hfreed⟩ := Option.map_eq_some_iff.mp hrun
  exact ⟨t, of_decide_eq_true hfreed, (events_delivered ht).2.2.2.2.2.1⟩

end BifrostModule.Cdev
