import BifrostModule.Cdev.Session
import BifrostModule.Dma.Conservation

/-! # DMA completions and the sessions they belong to

The address of a handle identifies its session as long as no address is reused
while a request or a work item still carries it. Then each completion stays
with the session that started its transfer.
-/
namespace BifrostModule.Cdev
open Foundation Foundation.InFlight

namespace State
variable {γ : Type*} {s t : State γ} {a : Addr}

def works (s : State γ) : List (Work γ) := s.runningWork ++ s.queue

end State

def Label.queues {γ : Type*} : Label γ → List (Work γ)
  | .createEvent w true => [w]
  | _ => []

namespace State
variable {γ : Type*} {s t : State γ} {a : Addr} {l : Label γ}

theorem works_eq {d : Delivery γ} (hrun : s.running = some d) : s.works = d.work :: s.queue := by
  rw [works, runningWork_eq hrun, List.singleton_append]

theorem works_idle (hrun : s.running = none) : s.works = s.queue := by
  rw [works, runningWork_idle hrun, List.nil_append]

/-- Work items enter the workqueue when an event is created, and in no other way. -/
theorem works_step (hst : s.step l = some t) {w : Work γ} (hw : w ∈ t.works) :
    w ∈ s.works ∨ w ∈ l.queues := by
  cases l with
  | bifrostOpen a allocated =>
    obtain ⟨-, -, rfl⟩ := step_open hst
    cases allocated <;> exact .inl hw
  | bifrostRelease a =>
    obtain ⟨-, h, -, rfl⟩ := step_release hst
    exact .inl hw
  | enableEvent a mask =>
    obtain ⟨h, -, rfl⟩ := map_handle hst
    exact .inl hw
  | irqForwarding a mask =>
    obtain ⟨h, -, rfl⟩ := map_handle hst
    exact .inl hw
  | dequeueEvent a now copied =>
    obtain ⟨h, -, rfl⟩ := map_handle hst
    cases hl : h.eventList with
    | nil =>
      rw [dequeue_nil hl] at hw
      exact .inl hw
    | cons p rest =>
      rw [dequeue_cons hl] at hw
      exact .inl hw
  | createEvent work allocated =>
    obtain rfl := Option.some.inj hst
    cases allocated with
    | false => exact .inl hw
    | true =>
      change w ∈ s.runningWork ++ (s.queue ++ [work]) at hw
      rw [← List.append_assoc] at hw
      exact List.mem_append.mp hw
  | run now =>
    obtain ⟨hrun, v, queue, hq, rfl⟩ := step_run hst
    rw [works_eq rfl] at hw
    rw [works_idle hrun, hq]
    exact .inl hw
  | visit allocated =>
    obtain ⟨d, b, left, h, hrun, -, -, -, rfl⟩ := step_visit hst
    rw [works_eq hrun]
    unfold visit at hw
    split at hw
    · rw [works_eq rfl] at hw
      exact .inl hw
    · rw [works_eq (d := d.next) rfl] at hw
      exact .inl hw
  | enqueue =>
    obtain ⟨d, b, left, p, h, hrun, -, -, -, rfl⟩ := step_enqueue hst
    rw [works_eq (d := d.next) rfl] at hw
    rw [works_eq hrun]
    exact .inl hw
  | finish =>
    obtain ⟨d, hrun, -, -, rfl⟩ := step_finish hst
    rw [works_idle rfl] at hw
    rw [works_eq hrun]
    exact .inl (List.mem_cons_of_mem _ hw)

theorem isSome_box (s : State γ) (a : Addr) : (s.abs.box a).isSome = (s.handles a).isSome := by
  rw [abs, Option.isSome_map]

theorem isSome_step (hi : s.Inv) (hst : s.step l = some t) (h : (t.handles a).isSome) :
    (s.handles a).isSome ∨ l = .bifrostOpen a true := by
  rw [← isSome_box, abs_step hi hst] at h
  rcases Mailboxes.isSome_act h with h | h
  · exact .inl (isSome_box s a ▸ h)
  · cases l with
    | bifrostOpen b allocated =>
      cases allocated with
      | true =>
        obtain rfl : b = a := by simpa [view] using h
        exact .inr rfl
      | false => simp [view] at h
    | visit allocated =>
      simp only [view] at h
      split at h <;> cases h
    | enqueue =>
      simp only [view] at h
      split at h <;> cases h
    | _ => cases h

theorem isSome_of_step (hi : s.Inv) (hst : s.step l = some t) (h : (s.handles a).isSome) :
    (t.handles a).isSome ∨ l = .bifrostRelease a := by
  rw [← isSome_box] at h ⊢
  rw [abs_step hi hst]
  rcases Mailboxes.isSome_of_act h (s.view l) with h | h
  · exact .inl h
  · cases l with
    | bifrostRelease b =>
      obtain rfl : b = a := by simpa [view] using h
      exact .inr rfl
    | bifrostOpen b allocated => cases allocated <;> simp [view] at h
    | visit allocated =>
      simp only [view] at h
      split at h <;> cases h
    | enqueue =>
      simp only [view] at h
      split at h <;> cases h
    | _ => cases h

/-- An event in a mailbox was there before the step, or it is a work item to which the handle
subscribes, with its time stamp. -/
theorem holds_step (hi : s.Inv) (hst : s.step l = some t) {w : Work γ} (h : t.abs.Holds a w) :
    s.abs.Holds a w ∨ ∃ (d : Delivery γ) (m : Mailbox γ), d.work ∈ s.works ∧ w = d.stamped ∧
      s.abs.box a = some m ∧ m.Subscribes a w.event := by
  rw [abs_step hi hst] at h
  rcases Mailboxes.holds_act h with h | ⟨m, allocated, hop, hm, hsub⟩
  · exact .inl h
  · cases l with
    | visit al =>
      simp only [view] at hop
      split at hop
      · rename_i v now visited b left copy hrun
        obtain ⟨rfl, rfl, -⟩ := Op.accept.inj hop
        exact .inr ⟨_, m, by rw [works_eq hrun]; exact List.mem_cons_self, rfl, hm, hsub⟩
      · cases hop
    | bifrostOpen b al => cases al <;> simp [view] at hop
    | enqueue =>
      simp only [view] at hop
      split at hop <;> cases hop
    | _ => cases hop

/-- What a copy on an open handle holds is in its mailbox. -/
theorem holds_of_pending {h : UserHandle γ} (ha : s.handles a = some h) {p : EventCont γ}
    (hp : p ∈ h.eventList) : s.abs.Holds a p.work :=
  ⟨_, abs_box_self ha, .inl (List.mem_map_of_mem hp)⟩

end State

namespace Sessions

/-- The session was given the ticket, and no other session is open at the address. -/
def Owns (s : Sessions) (a : Addr) (n : ℕ) (ticket : BitVec 32) : Prop :=
  (n, ticket) ∈ s.given ∧ ((s.cdev.handles a).isSome → s.session a = n)

/-- A DMA_DONE event that carries the cookie and the ticket of its own session. -/
def OwnWork (s : Sessions) (w : Work (Option ℕ)) : Prop :=
  w.event.type = eventTypeDmaDone →
    ∃ n, w.origin = some n ∧ s.Owns w.event.dmaCookie n w.event.dmaId

/-- Each request, work item and copy belongs to the session that its address stands for. -/
structure Home (s : Sessions) : Prop where
  cdev : s.cdev.Inv
  requests : ∀ r ∈ s.prepared ++ s.sched.outstanding, s.Owns r.req.cookie r.session r.req.ticket
  prepared : ∀ r ∈ s.prepared, (s.cdev.handles r.req.cookie).isSome
  works : ∀ w ∈ s.cdev.works, s.OwnWork w
  boxes : ∀ a w, s.cdev.abs.Holds a w → s.OwnTicket (s.session a) w
  dequeued : ∀ n w, (n, w) ∈ s.dequeued → s.OwnTicket n w

variable {s t : Sessions} {a : Addr}

theorem Owns.mono {n : ℕ} {ticket : BitVec 32} (h : s.Owns a n ticket)
    (hgiven : s.given ⊆ t.given) (hopen : (t.cdev.handles a).isSome → (s.cdev.handles a).isSome)
    (hsession : t.session a = s.session a) : t.Owns a n ticket :=
  ⟨hgiven h.1, fun hs => hsession.trans (h.2 (hopen hs))⟩

theorem OwnTicket.mono {n : ℕ} {w : Work (Option ℕ)} (h : s.OwnTicket n w)
    (hgiven : s.given ⊆ t.given) : t.OwnTicket n w := fun hty => ⟨(h hty).1, hgiven (h hty).2⟩

/-- An accepted DMA_DONE event has the address of the handle as its cookie, and so its session. -/
theorem OwnWork.accepted {d : Delivery (Option ℕ)} {m : Mailbox (Option ℕ)}
    (h : s.OwnWork d.work) (hm : s.cdev.abs.box a = some m)
    (hsub : m.Subscribes a d.stamped.event) :
    s.OwnTicket (s.session a) d.stamped := by
  intro hty
  obtain ⟨n, horigin, hgiven, hopen⟩ := h hty
  have hcookie : a = d.work.event.dmaCookie := hsub.2.2 hty
  have hn : s.session a = n := by
    rw [hcookie]
    apply hopen
    rw [← State.isSome_box, ← hcookie, hm]
    rfl
  rw [hn]
  exact ⟨horigin, hgiven⟩

/-- A step of the cdev that opens no handle, closes none that an ioctl works on, and queues no
stray DMA_DONE event. -/
theorem Home.cdev_step (hi : s.Home) {l : Label (Option ℕ)} {u : State (Option ℕ)}
    (hst : s.cdev.step l = some u) (hopen : ∀ a, l ≠ .bifrostOpen a true)
    (hclose : ∀ r ∈ s.prepared, l ≠ .bifrostRelease r.req.cookie)
    (hnew : ∀ w ∈ l.queues, s.OwnWork w) : Home { s with cdev := u } := by
  have hsome : ∀ a, (u.handles a).isSome → (s.cdev.handles a).isSome := fun a h =>
    (State.isSome_step hi.cdev hst h).resolve_right (hopen a)
  refine ⟨State.inv_step hi.cdev hst, ?_, ?_, ?_, ?_, hi.dequeued⟩
  · intro r hr
    exact (hi.requests r hr).mono (fun _ h => h) (hsome _) rfl
  · intro r hr
    exact (State.isSome_of_step hi.cdev hst (hi.prepared r hr)).resolve_right (hclose r hr)
  · intro w hw hty
    have hown : s.OwnWork w := (State.works_step hst hw).elim (hi.works w) (hnew w)
    obtain ⟨n, horigin, howns⟩ := hown hty
    exact ⟨n, horigin, howns.mono (fun _ h => h) (hsome _) rfl⟩
  · intro a w hw
    rcases State.holds_step hi.cdev hst hw with hw | ⟨d, m, hd, rfl, hm, hsub⟩
    · exact hi.boxes a w hw
    · exact (hi.works _ hd).accepted hm hsub

theorem Home.open (hi : s.Home) {u : State (Option ℕ)} (hrun : s.cdev.running = none)
    (ha : s.cdev.handles a = none) (hst : s.cdev.step (.bifrostOpen a true) = some u)
    (hfresh : s.Fresh a) :
    Home { s with
      cdev := u, session := Function.update s.session a s.opened, opened := s.opened + 1 } := by
  have hprep : ∀ r ∈ s.prepared, r.req.cookie ≠ a := by
    intro r hr heq
    have hsome := hi.prepared r hr
    rw [heq, ha] at hsome
    cases hsome
  have hmono : ∀ b n ticket, b ≠ a → s.Owns b n ticket → Owns { s with
      cdev := u, session := Function.update s.session a s.opened, opened := s.opened + 1 }
      b n ticket := by
    intro b n ticket hb howns
    refine howns.mono (fun _ h => h) (fun h => ?_) (Function.update_of_ne hb _ _)
    refine (State.isSome_step hi.cdev hst h).resolve_right fun heq => ?_
    cases heq
    exact hb rfl
  refine ⟨State.inv_step hi.cdev hst, ?_, ?_, ?_, ?_, hi.dequeued⟩
  · intro r hr
    refine hmono _ _ _ ?_ (hi.requests r hr)
    exact (List.mem_append.mp hr).elim (hprep r) (hfresh.1 r)
  · intro r hr
    exact (State.isSome_of_step hi.cdev hst (hi.prepared r hr)).resolve_right nofun
  · intro w hw hty
    rcases State.works_step hst hw with hw | hw
    · obtain ⟨n, horigin, howns⟩ := hi.works w hw hty
      rw [State.works_idle hrun] at hw
      exact ⟨n, horigin, hmono _ _ _ (hfresh.2 w hw hty) howns⟩
    · cases hw
  · intro b w hw
    obtain ⟨m, hm, hhas⟩ := hw
    rw [State.abs_step hi.cdev hst] at hm
    by_cases hb : b = a
    · simp only [State.view, Mailboxes.act, hb, Function.update_self, if_true,
        Option.some.injEq] at hm
      subst hm
      simp [Mailbox.Has] at hhas
    · simp only [State.view, Mailboxes.act, Function.update_of_ne hb, if_true] at hm
      change OwnTicket s (Function.update s.session a s.opened b) w
      rw [Function.update_of_ne hb]
      exact hi.boxes b w ⟨m, hm, hhas⟩

/-- A request gets the session of the handle whose address is its cookie. -/
theorem Home.alloc (hi : s.Home) (ha : (s.cdev.handles a).isSome) (xfer : Dma.Transfer)
    (dir : Dma.Direction) : (s.alloc a xfer dir).Home := by
  have hgiven : s.given ⊆ (s.alloc a xfer dir).given := List.subset_append_left _ _
  refine ⟨hi.cdev, ?_, ?_, ?_, ?_, ?_⟩
  · intro r hr
    change r ∈ s.prepared ++ [_] ++ s.sched.outstanding at hr
    rw [List.append_assoc] at hr
    rcases List.mem_append.mp hr with hr | hr
    · exact (hi.requests r (List.mem_append_left _ hr)).mono hgiven (fun h => h) rfl
    · rcases List.mem_append.mp hr with hr | hr
      · obtain rfl := List.mem_singleton.mp hr
        refine ⟨List.mem_append_right _ List.mem_cons_self, fun _ => ?_⟩
        simp [Sessions.alloc, Dma.allocDmaReq]
      · exact (hi.requests r (List.mem_append_right _ hr)).mono hgiven (fun h => h) rfl
  · intro r hr
    rcases List.mem_append.mp hr with hr | hr
    · exact hi.prepared r hr
    · obtain rfl := List.mem_singleton.mp hr
      simpa [Sessions.alloc, Dma.allocDmaReq] using ha
  · intro w hw hty
    obtain ⟨n, horigin, howns⟩ := hi.works w hw hty
    exact ⟨n, horigin, howns.mono hgiven (fun h => h) rfl⟩
  · intro b w hw
    exact (hi.boxes b w hw).mono hgiven
  · intro n w hw
    exact (hi.dequeued n w hw).mono hgiven

/-- The scheduler takes a step that submits prepared requests only. -/
theorem Home.sched_step (hi : s.Home) {l : Dma.Label Owned} {u : Dma.State Owned}
    (hst : s.sched.step l = some u) {rest : List Owned} (hrest : rest ⊆ s.prepared)
    (hsub : l.submits ⊆ s.prepared) : Home { s with sched := u, prepared := rest } := by
  refine ⟨hi.cdev, ?_, fun r hr => hi.prepared r (hrest hr), hi.works, hi.boxes, hi.dequeued⟩
  intro r hr
  apply hi.requests r
  rcases List.mem_append.mp hr with hr | hr
  · exact List.mem_append_left _ (hrest hr)
  · rcases Dma.State.outstanding_step hst hr with hr | hr
    · exact List.mem_append_right _ hr
    · exact List.mem_append_left _ (hsub hr)

theorem Home.dequeue (hi : s.Home) {now : ℕ} {copied : Bool} {u : State (Option ℕ)}
    (hst : s.cdev.step (.dequeueEvent a now copied) = some u) :
    Home { s with
      cdev := u, dequeued := s.dequeued ++ (s.oldest a).map fun w => (s.session a, w) } := by
  have hcdev := hi.cdev_step hst nofun nofun nofun
  refine ⟨hcdev.cdev, hcdev.requests, hcdev.prepared, hcdev.works, hcdev.boxes, ?_⟩
  intro n w hw
  rcases List.mem_append.mp hw with hw | hw
  · exact hi.dequeued n w hw
  · obtain ⟨v, hv, heq⟩ := List.mem_map.mp hw
    obtain ⟨rfl, rfl⟩ := Prod.mk.inj heq
    obtain ⟨h, ha, hhead⟩ := Option.bind_eq_some_iff.mp (Option.mem_toList.mp hv)
    obtain ⟨p, hp, rfl⟩ := Option.map_eq_some_iff.mp hhead
    exact hi.boxes a _ (State.holds_of_pending ha (List.mem_of_mem_head? hp))

/-- The interrupt handler reports the request's own cookie, session and ticket. -/
theorem Home.report (hi : s.Home) {r : Owned} {u : Dma.State Owned}
    (hst : s.sched.step (.ret r) = some u) (stack : Event) (time : BitVec 64) (allocated : Bool) :
    Home { s.report r stack time allocated with sched := u } := by
  have howns : s.Owns r.req.cookie r.session r.req.ticket :=
    hi.requests r (List.mem_append_right _ (Dma.State.outstanding_ret hst))
  have hcdev : (s.report r stack time allocated).Home := by
    refine hi.cdev_step (l := .createEvent ⟨_, some r.session⟩ allocated) rfl nofun nofun ?_
    intro w hw _
    cases allocated with
    | false => cases hw
    | true =>
      obtain rfl := List.mem_singleton.mp hw
      refine ⟨r.session, rfl, ?_⟩
      rw [dmaDoneEvent_cookie, dmaDoneEvent_id]
      exact howns
  exact hcdev.sched_step hst (fun _ h => h) nofun

theorem home_initial {ctl : Dma.DmaCtl Owned} (hctl : (Dma.scheduler Owned).start (.initial ctl)) :
    (initial ctl).Home := by
  have hsched : (Dma.State.initial ctl).Inv := Dma.State.reachable_inv (.start hctl)
  have hplace : ∀ r p, ¬ (Dma.State.initial ctl).At r p := by
    intro r p hp
    cases hsched.submitted_iff.mpr ⟨p, hp⟩
  refine ⟨State.inv_initial, ?_, nofun, nofun, ?_, nofun⟩
  · intro r hr
    rcases Dma.State.mem_outstanding.mp hr with hr | ⟨c, hr⟩ | ⟨k, hk, -⟩
    · exact absurd hr (hplace r .pending)
    · exact absurd hr (hplace r (.inProgress c))
    · cases hk
  · rintro a w ⟨m, hm, -⟩
    cases hm

theorem home_step {l : SessionLabel} (hi : s.Home) (hok : FreshAddress s l)
    (hst : s.step l = some t) : t.Home := by
  cases l with
  | bifrostOpen a allocated =>
    obtain ⟨u, hu, rfl⟩ := Option.map_eq_some_iff.mp hst
    cases allocated with
    | true =>
      obtain ⟨hrun, ha, -⟩ := State.step_open hu
      exact hi.open hrun ha hu hok
    | false => exact hi.cdev_step hu nofun nofun nofun
  | bifrostRelease a =>
    obtain ⟨hidle, hst⟩ := Option.ite_none_right_eq_some.mp hst
    obtain ⟨u, hu, rfl⟩ := Option.map_eq_some_iff.mp hst
    refine hi.cdev_step hu nofun (fun r hr heq => ?_) nofun
    exact hidle r (List.mem_append_left _ hr) (Label.bifrostRelease.inj heq).symm
  | dequeueEvent a now copied =>
    obtain ⟨u, hu, rfl⟩ := Option.map_eq_some_iff.mp hst
    exact hi.dequeue hu
  | doDmaStartXfer a xfer dir =>
    obtain ⟨h, ha, rfl⟩ := Option.map_eq_some_iff.mp hst
    exact hi.alloc (ha ▸ rfl) xfer dir
  | startDmaXfer r =>
    obtain ⟨hr, hst⟩ := Option.ite_none_right_eq_some.mp hst
    obtain ⟨u, hu, rfl⟩ := Option.map_eq_some_iff.mp hst
    refine hi.sched_step hu List.erase_subset ?_
    intro r' hr'
    exact List.mem_singleton.mp hr' ▸ hr
  | sched l =>
    cases l with
    | submit r => cases hst
    | ret r => cases hst
    | _ =>
      obtain ⟨u, hu, rfl⟩ := Option.map_eq_some_iff.mp hst
      exact hi.sched_step hu (fun _ h => h) (List.nil_subset _)
  | dmaMsiHandler r stack time allocated =>
    obtain ⟨u, hu, rfl⟩ := Option.map_eq_some_iff.mp hst
    exact hi.report hu stack time allocated
  | otherHandler e allocated =>
    obtain ⟨hty, ⟨⟩⟩ := Option.ite_none_left_eq_some.mp hst
    refine hi.cdev_step (l := .createEvent ⟨e, none⟩ allocated) rfl nofun nofun ?_
    intro w hw hdone
    cases allocated with
    | false => cases hw
    | true =>
      obtain rfl := List.mem_singleton.mp hw
      exact absurd hdone hty
  | cdev l =>
    cases l with
    | bifrostOpen a allocated => cases hst
    | bifrostRelease a => cases hst
    | dequeueEvent a now copied => cases hst
    | createEvent w allocated => cases hst
    | _ =>
      obtain ⟨u, hu, rfl⟩ := Option.map_eq_some_iff.mp hst
      exact hi.cdev_step hu nofun nofun nofun

end Sessions

open Sessions in
/-- As long as each handle is opened at an address that no outstanding request and no queued
DMA_DONE event carries, a DMA_DONE event is queued on, and dequeued from, the session that started
its transfer, and its id is a ticket that the session was given. -/
theorem dma_done_own_session {s : Sessions} (h : sessions.ReachableUnder FreshAddress s) :
    (∀ a hnd, s.cdev.handles a = some hnd →
      ∀ p ∈ hnd.eventList, s.OwnTicket (s.session a) p.work) ∧
    ∀ n w, (n, w) ∈ s.dequeued → s.OwnTicket n w := by
  have hstart : ∀ s, sessions.start s → s.Home := by
    rintro _ ⟨ctl, hctl, rfl⟩
    exact home_initial hctl
  have hi : s.Home := h.invariant hstart fun _ _ _ hi hok hst => home_step hi hok hst
  exact ⟨fun a hnd ha p hp => hi.boxes a _ (State.holds_of_pending ha hp), hi.dequeued⟩

private def firstOwned : Owned := ⟨⟨0, 0x1000, 0x2000, 8, .down, 1, 8, none⟩, 0⟩

private def completed : List SessionLabel :=
  [.sched (.interrupt 40), .sched (.complete 0 firstOwned), .sched (.handOff 0 firstOwned),
    .dmaMsiHandler firstOwned ⟨0, fun _ => 0, 0, 0⟩ 0 true, .cdev (.run 0), .cdev (.visit true),
    .cdev .enqueue, .cdev .finish, .dequeueEvent 8 0 true]

private theorem start_oneChannel : sessions.start (.initial (.bifrostDmaInit 1 0 40)) :=
  ⟨_, Dma.start_bifrostDmaInit 1 0 40, rfl⟩

theorem dma_done_own_session_one : ∃ s : Sessions,
    s.dequeued.length = 1 ∧ ∀ n w, (n, w) ∈ s.dequeued → s.OwnTicket n w := by
  have hrun : (sessions.execUnder FreshAddress (.initial (.bifrostDmaInit 1 0 40))
      ([.bifrostOpen 8 true, .cdev (.enableEvent 8 eventTypeDmaDone),
        .doDmaStartXfer 8 ⟨0x1000, 0x2000, 8⟩ .down, .startDmaXfer firstOwned,
        .sched (.kickOff 0 firstOwned none)] ++ completed)).map
      (fun s => decide (s.dequeued.length = 1)) = some true := by decide +kernel
  obtain ⟨s, hs, hp⟩ := Machine.exists_reachableUnder_of_exec start_oneChannel hrun
  exact ⟨s, of_decide_eq_true hp, (dma_done_own_session hs).2⟩

/-- The handle that started a transfer is closed, a new handle is opened at its address while the
transfer is in progress, and the completion reaches the new session. -/
theorem dma_done_reaches_new_session : ¬ ∀ s, sessions.Reachable s →
    ∀ n w, (n, w) ∈ s.dequeued → s.OwnTicket n w := by
  have hrun : (sessions.exec (.initial (.bifrostDmaInit 1 0 40))
      ([.bifrostOpen 8 true, .doDmaStartXfer 8 ⟨0x1000, 0x2000, 8⟩ .down,
        .startDmaXfer firstOwned, .sched (.kickOff 0 firstOwned none), .bifrostRelease 8,
        .bifrostOpen 8 true, .cdev (.enableEvent 8 eventTypeDmaDone)] ++ completed)).map
      (fun s => decide (∃ p ∈ s.dequeued, ¬ s.OwnTicket p.1 p.2)) = some true := by decide +kernel
  obtain ⟨s, hs, hp⟩ := Machine.exists_reachable_of_exec start_oneChannel hrun
  obtain ⟨⟨n, w⟩, hmem, hbad⟩ := of_decide_eq_true hp
  exact fun hall => hbad (hall s hs n w hmem)

end BifrostModule.Cdev
