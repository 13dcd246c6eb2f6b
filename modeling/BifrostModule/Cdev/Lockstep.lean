import BifrostModule.Cdev.Delivery

/-! # Runs that differ in the payload of events only

The delivery of an event looks at its type, at the interrupt source of an interrupt
and at the cookie of a completed transfer. Two runs whose events agree on these
proceed in lockstep, and what they dequeue is related as what was created.
-/
namespace BifrostModule.Cdev
open Foundation

variable {γ : Type*}

structure SameLook (w v : Work γ) : Prop where
  type : v.event.type = w.event.type
  irqSource : w.event.type = eventTypeIrq → v.event.irqSource = w.event.irqSource
  dmaCookie : w.event.type = eventTypeDmaDone → v.event.dmaCookie = w.event.dmaCookie

/-- A relation between events that ignores the time stamps, which are set on the way. -/
structure Payloads (P : Work γ → Work γ → Prop) : Prop where
  look : ∀ w v, P w v → SameLook w v
  received : ∀ w v n, P w v → P { w with event := { w.event with received := n } }
    { v with event := { v.event with received := n } }
  forwarded : ∀ w v n, P w v → P { w with event := { w.event with forwarded := n } }
    { v with event := { v.event with forwarded := n } }

section Relations
variable (P : Work γ → Work γ → Prop)

/-- Two copies of related events, made at the same time. -/
def ContRel (p q : EventCont γ) : Prop :=
  p.id = q.id ∧ p.work.event.received = q.work.event.received ∧ P p.work q.work

structure HandleRel (h g : UserHandle γ) : Prop where
  eventEnableMask : h.eventEnableMask = g.eventEnableMask
  irqForwardingMask : h.irqForwardingMask = g.irqForwardingMask
  eventList : List.Forall₂ (ContRel P) h.eventList g.eventList
  eventListCount : h.eventListCount = g.eventListCount

structure DeliveryRel (d e : Delivery γ) : Prop where
  work : P d.work e.work
  received : d.received = e.received
  visited : d.visited = e.visited
  left : d.left = e.left
  copy : Option.Rel (ContRel P) d.copy e.copy

inductive ResultRel : Addr × Except Errno (Work γ) → Addr × Except Errno (Work γ) → Prop where
  | error (a : Addr) (err : Errno) : ResultRel (a, .error err) (a, .error err)
  | ok (a : Addr) {w v : Work γ} (h : P w v) (hreceived : w.event.received = v.event.received)
      (hforwarded : w.event.forwarded = v.event.forwarded) : ResultRel (a, .ok w) (a, .ok v)

structure StateRel (s t : State γ) : Prop where
  handles : ∀ a, Option.Rel (HandleRel P) (s.handles a) (t.handles a)
  list : s.list = t.list
  queue : List.Forall₂ P s.queue t.queue
  running : Option.Rel (DeliveryRel P) s.running t.running
  copies : s.copies = t.copies
  freed : s.freed = t.freed
  results : List.Forall₂ (ResultRel P) s.results t.results

inductive LabelRel : Label γ → Label γ → Prop where
  | same (l : Label γ) (h : ∀ w allocated, l ≠ .createEvent w allocated) : LabelRel l l
  | createEvent {w v : Work γ} (h : P w v) (allocated : Bool) :
      LabelRel (.createEvent w allocated) (.createEvent v allocated)

end Relations

variable {P : Work γ → Work γ → Prop} {s t s' : State γ} {h g : UserHandle γ} {a : Addr}

theorem enqueueOnThisHandle_look (hh : HandleRel P h g) {w v : Work γ} (hl : SameLook w v) :
    g.enqueueOnThisHandle a v.event = h.enqueueOnThisHandle a w.event := by
  unfold UserHandle.enqueueOnThisHandle
  rw [hl.type, hh.eventEnableMask, hh.irqForwardingMask]
  by_cases hirq : w.event.type = eventTypeIrq
  · rw [hl.irqSource hirq, if_pos hirq, if_pos hirq]
  · by_cases hdma : w.event.type = eventTypeDmaDone
    · rw [hl.dmaCookie hdma, if_neg hirq, if_neg hirq]
    · rw [if_neg hirq, if_neg hirq, if_neg hdma, if_neg hdma]

theorem StateRel.handles_update (hst : StateRel P s t) (a : Addr) {o o' : Option (UserHandle γ)}
    (ho : Option.Rel (HandleRel P) o o') (b : Addr) :
    Option.Rel (HandleRel P) (Function.update s.handles a o b)
      (Function.update t.handles a o' b) := by
  by_cases hb : b = a
  · subst hb
    rw [Function.update_self, Function.update_self]
    exact ho
  · rw [Function.update_of_ne hb, Function.update_of_ne hb]
    exact hst.handles b

theorem rel_some {α : Type*} {R : α → α → Prop} {o p : Option α} {x : α} (hrel : Option.Rel R o p)
    (ho : o = some x) : ∃ y, p = some y ∧ R x y := by
  subst ho
  cases hrel with
  | some hxy => exact ⟨_, rfl, hxy⟩

theorem rel_none {α : Type*} {R : α → α → Prop} {o p : Option α} (hrel : Option.Rel R o p)
    (ho : o = none) : p = none := by
  subst ho
  cases hrel with
  | none => rfl

section Steps
variable {d e : Delivery γ}

theorem stateRel_initial : StateRel P (.initial : State γ) .initial where
  handles _ := .none
  list := rfl
  queue := .nil
  running := .none
  copies := rfl
  freed := rfl
  results := .nil

theorem ids_eq {l m : List (EventCont γ)} (hrel : List.Forall₂ (ContRel P) l m) :
    l.map EventCont.id = m.map EventCont.id := by
  induction hrel with
  | nil => rfl
  | cons hpq _ ih => rw [List.map_cons, List.map_cons, hpq.1, ih]

theorem stateRel_open (hst : StateRel P s t) (a : Addr) :
    StateRel P (s.openHandle a) (t.openHandle a) where
  handles := hst.handles_update a (.some ⟨rfl, rfl, .nil, rfl⟩)
  list := congrArg (List.cons a) hst.list
  queue := hst.queue
  running := hst.running
  copies := hst.copies
  freed := hst.freed
  results := hst.results

theorem stateRel_release (hst : StateRel P s t) (a : Addr) (hh : HandleRel P h g) :
    StateRel P (s.releaseHandle a h) (t.releaseHandle a g) where
  handles := hst.handles_update a .none
  list := congrArg (List.erase · a) hst.list
  queue := hst.queue
  running := hst.running
  copies := hst.copies
  freed := congrArg₂ (· ++ ·) hst.freed (ids_eq hh.eventList)
  results := hst.results

theorem stateRel_setHandle (hst : StateRel P s t) (a : Addr) (hh : HandleRel P h g) :
    StateRel P (s.setHandle a (some h)) (t.setHandle a (some g)) where
  handles := hst.handles_update a (.some hh)
  list := hst.list
  queue := hst.queue
  running := hst.running
  copies := hst.copies
  freed := hst.freed
  results := hst.results

/-- What a dequeueing ioctl returns for related copies is related. -/
theorem resultRel_forward (hP : Payloads P) (a : Addr) {p q : EventCont γ} (hpq : ContRel P p q)
    (now : ℕ) (copied : Bool) :
    ResultRel P (a, State.forward p.work now copied) (a, State.forward q.work now copied) := by
  cases copied with
  | false => exact .error a .EFAULT
  | true => exact .ok a (hP.forwarded _ _ now hpq.2.2) hpq.2.1 rfl

theorem stateRel_dequeue (hP : Payloads P) (hst : StateRel P s t) (a : Addr)
    (hh : HandleRel P h g) (now : ℕ) (copied : Bool) :
    StateRel P (s.dequeue a h now copied) (t.dequeue a g now copied) := by
  have hrel := hh.eventList
  cases hl : h.eventList with
  | nil =>
    rw [hl] at hrel
    rw [State.dequeue_nil hl, State.dequeue_nil (List.forall₂_nil_left_iff.mp hrel)]
    exact ⟨hst.handles, hst.list, hst.queue, hst.running, hst.copies, hst.freed,
      List.rel_append hst.results (.cons (.error a .EINVAL) .nil)⟩
  | cons p l =>
    rw [hl] at hrel
    obtain ⟨q, m, hpq, hlm, hm⟩ := List.forall₂_cons_left_iff.mp hrel
    rw [State.dequeue_cons hl, State.dequeue_cons hm]
    refine ⟨?_, hst.list, hst.queue, hst.running, hst.copies, ?_, ?_⟩
    · refine hst.handles_update a (.some ⟨hh.eventEnableMask, hh.irqForwardingMask, ?_, ?_⟩)
      · simpa only [State.rest, hl, hm, List.tail_cons] using hlm
      · simp only [State.rest, hh.eventListCount]
    · simp only [hst.freed, hpq.1]
    · exact List.rel_append hst.results (.cons (resultRel_forward hP a hpq now copied) .nil)

theorem stateRel_createEvent (hst : StateRel P s t) {w v : Work γ} (hwv : P w v)
    (allocated : Bool) : StateRel P (s.createEvent w allocated) (t.createEvent v allocated) := by
  cases allocated with
  | false => exact hst
  | true =>
    exact ⟨hst.handles, hst.list, List.rel_append hst.queue (.cons hwv .nil), hst.running,
      hst.copies, hst.freed, hst.results⟩

theorem DeliveryRel.stamped (hP : Payloads P) (hde : DeliveryRel P d e) :
    P d.stamped e.stamped := by
  unfold Delivery.stamped
  rw [hde.received]
  exact hP.received _ _ _ hde.work

theorem DeliveryRel.next (hde : DeliveryRel P d e) : DeliveryRel P d.next e.next where
  work := hde.work
  received := hde.received
  visited := by simp only [Delivery.next, hde.visited, hde.left]
  left := congrArg List.tail hde.left
  copy := .none

theorem stateRel_visit (hP : Payloads P) (hst : StateRel P s t) (hde : DeliveryRel P d e)
    (a : Addr) (hh : HandleRel P h g) (allocated : Bool) :
    StateRel P (s.visit d a h allocated) (t.visit e a g allocated) := by
  have hstamped := hde.stamped hP
  have hlook := enqueueOnThisHandle_look (a := a) hh (hP.look _ _ hstamped)
  unfold State.visit
  rw [hlook]
  split
  · refine ⟨hst.handles, hst.list, hst.queue, ?_, congrArg (· + 1) hst.copies, hst.freed,
      hst.results⟩
    exact .some ⟨hde.work, hde.received, hde.visited, hde.left,
      .some ⟨hst.copies, hde.received, hstamped⟩⟩
  · exact ⟨hst.handles, hst.list, hst.queue, .some hde.next, hst.copies, hst.freed, hst.results⟩

theorem enqueueEvent_related (hh : HandleRel P h g) {p q : EventCont γ} (hpq : ContRel P p q) :
    (h.enqueueEvent p).1 = (g.enqueueEvent q).1 ∧
      HandleRel P (h.enqueueEvent p).2 (g.enqueueEvent q).2 := by
  unfold UserHandle.enqueueEvent
  rw [hh.eventListCount]
  split
  · exact ⟨rfl, hh⟩
  · exact ⟨rfl, hh.eventEnableMask, hh.irqForwardingMask,
      List.rel_append hh.eventList (.cons hpq .nil), rfl⟩

theorem stateRel_enqueue (hst : StateRel P s t) (hde : DeliveryRel P d e) (a : Addr)
    (hh : HandleRel P h g) {p q : EventCont γ} (hpq : ContRel P p q) :
    StateRel P (s.enqueue d a h p) (t.enqueue e a g q) := by
  obtain ⟨htaken, hhandle⟩ := enqueueEvent_related hh hpq
  refine ⟨hst.handles_update a (.some hhandle), hst.list, hst.queue, .some hde.next, hst.copies,
    ?_, hst.results⟩
  simp only [State.enqueue, htaken, hst.freed, hpq.1]

end Steps

/-- A step of one run is a step of the other. -/
theorem step_related (hP : Payloads P) {l m : Label γ} (hst : StateRel P s t)
    (hlm : LabelRel P l m) (hstep : s.step l = some s') :
    ∃ t', t.step m = some t' ∧ StateRel P s' t' := by
  cases hlm with
  | createEvent hwv allocated =>
    obtain rfl := Option.some.inj hstep
    exact ⟨_, rfl, stateRel_createEvent hst hwv allocated⟩
  | same l hnot =>
    cases l with
    | bifrostOpen a allocated =>
      obtain ⟨hrun, ha, rfl⟩ := State.step_open hstep
      refine ⟨if allocated then t.openHandle a else t, ?_, ?_⟩
      · simp only [State.step, rel_none hst.running hrun, rel_none (hst.handles a) ha]
      cases allocated with
      | true => exact stateRel_open hst a
      | false => exact hst
    | bifrostRelease a =>
      obtain ⟨hrun, h, ha, rfl⟩ := State.step_release hstep
      obtain ⟨g, hg, hh⟩ := rel_some (hst.handles a) ha
      exact ⟨_, by simp only [State.step, rel_none hst.running hrun, hg],
        stateRel_release hst a hh⟩
    | enableEvent a mask =>
      obtain ⟨h, ha, rfl⟩ := State.map_handle hstep
      obtain ⟨g, hg, hh⟩ := rel_some (hst.handles a) ha
      exact ⟨t.setHandle a (some { g with eventEnableMask := mask }),
        by simp only [State.step, hg, Option.map_some],
        stateRel_setHandle hst a ⟨rfl, hh.irqForwardingMask, hh.eventList, hh.eventListCount⟩⟩
    | irqForwarding a mask =>
      obtain ⟨h, ha, rfl⟩ := State.map_handle hstep
      obtain ⟨g, hg, hh⟩ := rel_some (hst.handles a) ha
      exact ⟨t.setHandle a (some { g with irqForwardingMask := mask }),
        by simp only [State.step, hg, Option.map_some],
        stateRel_setHandle hst a ⟨hh.eventEnableMask, rfl, hh.eventList, hh.eventListCount⟩⟩
    | dequeueEvent a now copied =>
      obtain ⟨h, ha, rfl⟩ := State.map_handle hstep
      obtain ⟨g, hg, hh⟩ := rel_some (hst.handles a) ha
      exact ⟨_, by simp only [State.step, hg, Option.map_some],
        stateRel_dequeue hP hst a hh now copied⟩
    | createEvent w allocated => exact absurd rfl (hnot w allocated)
    | run now =>
      obtain ⟨hrun, w, queue, hq, rfl⟩ := State.step_run hstep
      have hqueue := hst.queue
      rw [hq] at hqueue
      obtain ⟨v, rest, hwv, hrest, hv⟩ := List.forall₂_cons_left_iff.mp hqueue
      exact ⟨{ t with queue := rest, running := some ⟨v, now, [], t.list, none⟩ },
        by simp only [State.step, rel_none hst.running hrun, hv], hst.handles, hst.list, hrest,
        .some ⟨hwv, rfl, rfl, hst.list, .none⟩, hst.copies, hst.freed, hst.results⟩
    | visit allocated =>
      obtain ⟨d, a, left, h, hrun, hleft, hcopy, ha, rfl⟩ := State.step_visit hstep
      obtain ⟨⟨v, now, visited, rest, copy⟩, he, hde⟩ := rel_some hst.running hrun
      obtain ⟨g, hg, hh⟩ := rel_some (hst.handles a) ha
      obtain rfl : rest = a :: left := hde.left.symm.trans hleft
      obtain rfl : copy = none := rel_none hde.copy hcopy
      exact ⟨_, by simp only [State.step, he, hg, Option.map_some],
        stateRel_visit hP hst hde a hh allocated⟩
    | enqueue =>
      obtain ⟨d, a, left, p, h, hrun, hleft, hcopy, ha, rfl⟩ := State.step_enqueue hstep
      obtain ⟨⟨v, now, visited, rest, copy⟩, he, hde⟩ := rel_some hst.running hrun
      obtain ⟨g, hg, hh⟩ := rel_some (hst.handles a) ha
      obtain rfl : rest = a :: left := hde.left.symm.trans hleft
      obtain ⟨q, rfl, hpq⟩ : ∃ q, copy = some q ∧ ContRel P p q := rel_some hde.copy hcopy
      exact ⟨_, by simp only [State.step, he, hg, Option.map_some],
        stateRel_enqueue hst hde a hh hpq⟩
    | finish =>
      obtain ⟨d, hrun, hleft, hcopy, rfl⟩ := State.step_finish hstep
      obtain ⟨⟨v, now, visited, rest, copy⟩, he, hde⟩ := rel_some hst.running hrun
      obtain rfl : rest = [] := hde.left.symm.trans hleft
      obtain rfl : copy = none := rel_none hde.copy hcopy
      exact ⟨{ t with running := none, served := t.served ++ [v] },
        by simp only [State.step, he], hst.handles, hst.list, hst.queue, .none, hst.copies,
        hst.freed, hst.results⟩

/-- Runs over related labels end in related states. -/
theorem runs_related (hP : Payloads P) {ls ms : List (Label γ)}
    (hlm : List.Forall₂ (LabelRel P) ls ms) (hrun : (cdev γ).exec .initial ls = some s) :
    ∃ t, (cdev γ).exec .initial ms = some t ∧ StateRel P s t :=
  Machine.exec_related (M := cdev γ) (N := cdev γ) (R := StateRel P)
    (fun _ _ _ _ _ hst hlm hstep => step_related hP hst hlm hstep) stateRel_initial hlm hrun

end BifrostModule.Cdev
