import BifrostModule.Usim.Events

/-! # Lifetime of simulator events

What the driver and the simulator do to one event is read off a view of that
event alone: its sender, its place on the queue, the ioctls that work on it and
its history. Each step changes the view of one event and leaves the others as they are.
-/
namespace BifrostModule.Usim
open Foundation Foundation.InFlight

def callOn (id : ℕ) (c : UsimCall) : Option UsimCall := if c.event = id then some c else none

/-- Everything but the event itself that belongs to its identity. -/
structure View where
  sender : Sender
  queued : ℕ
  calls : Multiset UsimCall
  taken : ℕ
  completed : ℕ
  released : ℕ

def EventQueue.view (s : EventQueue) (id : ℕ) : View where
  sender := s.senders id
  queued := s.queue.count id
  calls := keys (callOn id) s.calls
  taken := s.taken.count id
  completed := s.completed.count id
  released := s.released.count id

def Sender.HasPosted (p : Sender) : Prop := p ≠ .outside ∧ p ≠ .allocated

/-- The history of an event and the call on it, state by state. -/
def Stage (id : ℕ) (e : Event) (v : View) : Prop :=
  match e.state with
  | .ready => v.calls = 0 ∧ v.taken = 0 ∧ v.completed = 0 ∧ v.released = 0 ∧
      e.refcnt = v.sender.refs
  | .inProgress => v.sender.HasPosted ∧ v.taken = 1 ∧ v.completed = 0 ∧ v.released = 0 ∧
      e.refcnt = v.sender.refs + 1 ∧
      (v.calls = 0 ∨ v.calls = {.getting id} ∨ v.calls = {.putting id} ∨
        ∃ status, v.calls = {.completing id status})
  | .done => v.sender.HasPosted ∧ v.taken = 1 ∧ v.completed = 1 ∧
      (v.released = 0 ∧ v.calls = {.dropping id} ∧ e.refcnt = v.sender.refs + 1 ∨
        v.released = 1 ∧ v.calls = 0 ∧ e.refcnt = v.sender.refs)

structure Sound (id : ℕ) (e : Event) (v : View) : Prop where
  inside : v.sender ≠ .outside
  queued : v.queued = v.sender.queued
  live : e.live = decide (e.refcnt ≠ 0)
  stage : Stage id e v

variable {id : ℕ} {e : Event}

theorem Stage.calls_card {v : View} (h : Stage id e v) : v.calls.card ≤ 1 := by
  unfold Stage at h
  split at h
  · simp [h.1]
  · rcases h.2.2.2.2.2 with hc | hc | hc | ⟨status, hc⟩ <;> simp [hc]
  · rcases h.2.2.2 with ⟨-, hc, -⟩ | ⟨-, hc, -⟩ <;> simp [hc]

/-- A call on an event other than the last step of a completion finds it in progress. -/
theorem Stage.inProgress {v : View} {c : UsimCall} (h : Stage id e v) (hc : v.calls = {c})
    (hne : c ≠ .dropping id) : e.state = .inProgress := by
  unfold Stage at h
  split at h
  · rw [h.1] at hc
    exact absurd hc.symm (Multiset.singleton_ne_zero c)
  · assumption
  · rcases h.2.2.2 with ⟨-, hd, -⟩ | ⟨-, hd, -⟩
    · rw [hd] at hc
      exact absurd (Multiset.singleton_inj.mp hc).symm hne
    · rw [hd] at hc
      exact absurd hc.symm (Multiset.singleton_ne_zero c)

/-- An event whose completion is about to drop its reference is done. -/
theorem Stage.dropping {v : View} (h : Stage id e v) (hc : v.calls = {.dropping id}) :
    e.state = .done := by
  unfold Stage at h
  split at h
  · rw [h.1] at hc
    exact absurd hc.symm (Multiset.singleton_ne_zero _)
  · rcases h.2.2.2.2.2 with hd | hd | hd | ⟨status, hd⟩ <;> simp [hd] at hc
  · assumption

theorem Sender.refs_nonneg (p : Sender) : 0 ≤ p.refs := by
  cases p <;> simp [Sender.refs]

theorem put_live (hlive : e.live = decide (e.refcnt ≠ 0)) (hpos : 0 < e.refcnt) :
    e.put.live = decide (e.put.refcnt ≠ 0) := by
  have htrue : e.live = true := by
    rw [hlive, decide_eq_true_eq]
    omega
  simp [Event.put, htrue]

/-- A state change that the state machine of an event allows, or none. -/
def Advances (p q : EventState) : Prop :=
  p = q ∨ p = .ready ∧ q = .inProgress ∨ p = .inProgress ∧ q = .done

namespace EventQueue

structure Inv (s : EventQueue) : Prop where
  absent : ∀ id, s.heap id = none → s.view id = ⟨.outside, 0, 0, 0, 0, 0⟩
  sound : ∀ id e, s.heap id = some e → Sound id e (s.view id)

def Moves (s t : EventQueue) : Prop :=
  ∀ id e e', s.heap id = some e → t.heap id = some e' → Advances e.state e'.state

/-- The two states differ in one event and its view only. -/
structure DiffersAt (s t : EventQueue) (id : ℕ) (e : Event) : Prop where
  heap : t.heap = Function.update s.heap id (some e)
  other : ∀ j, j ≠ id → t.view j = s.view j

variable {s t : EventQueue}

theorem DiffersAt.inv (hd : DiffersAt s t id e) (hi : s.Inv) (h : Sound id e (t.view id)) :
    t.Inv := by
  constructor
  · intro j hj
    by_cases hjid : j = id
    · rw [hd.heap, hjid, Function.update_self] at hj
      cases hj
    · rw [hd.heap, Function.update_of_ne hjid] at hj
      rw [hd.other j hjid]
      exact hi.absent j hj
  · intro j e' hj
    by_cases hjid : j = id
    · rw [hd.heap, hjid, Function.update_self] at hj
      cases hj
      exact hjid ▸ h
    · rw [hd.heap, Function.update_of_ne hjid] at hj
      rw [hd.other j hjid]
      exact hi.sound j e' hj

theorem DiffersAt.moves (hd : DiffersAt s t id e)
    (h : ∀ d, s.heap id = some d → Advances d.state e.state) : s.Moves t := by
  intro j d d' hj hj'
  by_cases hjid : j = id
  · rw [hd.heap, hjid, Function.update_self] at hj'
    cases hj'
    exact h d (hjid ▸ hj)
  · rw [hd.heap, Function.update_of_ne hjid, hj] at hj'
    cases hj'
    exact .inl rfl

/-- An event that is on the queue has a sender that waits for it. -/
theorem Inv.queued_posted (hi : s.Inv) (h : id ∈ s.queue) :
    s.senders id = .posted ∧ ∃ e, s.heap id = some e := by
  have hpos : 0 < (s.view id).queued := List.count_pos_iff.mpr h
  cases he : s.heap id with
  | none =>
    rw [hi.absent id he] at hpos
    exact absurd hpos (lt_irrefl 0)
  | some e =>
    rw [(hi.sound id e he).queued] at hpos
    have hs : (s.view id).sender = s.senders id := rfl
    rw [hs] at hpos
    refine ⟨?_, e, rfl⟩
    cases hp : s.senders id with
    | posted => rfl
    | _ =>
      rw [hp] at hpos
      exact absurd hpos (lt_irrefl 0)

/-- The only call on an event is the one that is in flight. -/
theorem Inv.calls_eq (hi : s.Inv) (id : ℕ) {c : UsimCall} (hc : c ∈ s.calls) (hid : c.event = id) :
    (s.view id).calls = {c} ∧ ∃ e, s.heap id = some e := by
  have hmem : c ∈ (s.view id).calls := mem_keys_of hc (if_pos hid)
  cases he : s.heap id with
  | none =>
    rw [hi.absent _ he] at hmem
    exact absurd hmem (Multiset.notMem_zero c)
  | some e =>
    obtain ⟨m, hm⟩ := Multiset.exists_cons_of_mem hmem
    have hcard := (hi.sound _ e he).stage.calls_card
    rw [hm, Multiset.card_cons] at hcard
    have hzero : m = 0 := Multiset.card_eq_zero.mp (by omega)
    rw [hm, hzero]
    exact ⟨rfl, e, rfl⟩

theorem calls_replace_self {l new : List UsimCall} {c : UsimCall} (hc : c ∈ l)
    (hl : keys (callOn id) l = {c}) (hid : callOn id c = some c) :
    keys (callOn id) (replace l c new) = keys (callOn id) new := by
  have h := keys_replace (callOn id) hc new
  rw [hl, hid, held_some, add_comm] at h
  exact (add_left_cancel h).symm

theorem calls_replace_ne {l new : List UsimCall} {c : UsimCall} {j : ℕ} (hc : c ∈ l)
    (hid : c.event ≠ j) (hnew : ∀ b ∈ new, b.event ≠ j) :
    keys (callOn j) (replace l c new) = keys (callOn j) l := by
  have hzero : keys (callOn j) new = 0 := by
    induction new with
    | nil => rfl
    | cons b new ih =>
      rw [keys_cons, callOn, if_neg (hnew b List.mem_cons_self), held_none, zero_add]
      exact ih fun b hb => hnew b (List.mem_cons_of_mem _ hb)
  rw [keys_replace_gain hc (if_neg hid), hzero, zero_add]

/-- The two properties that every step is shown to keep. -/
def Keeps (s t : EventQueue) : Prop := t.Inv ∧ s.Moves t

theorem keeps_at (id : ℕ) (e : Event) (hd : DiffersAt s t id e) (hi : s.Inv)
    (h : Sound id e (t.view id)) (ha : ∀ d, s.heap id = some d → Advances d.state e.state) :
    s.Keeps t :=
  ⟨hd.inv hi h, hd.moves ha⟩

theorem keeps_of_same (hi : s.Inv) (hheap : t.heap = s.heap) (hview : ∀ j, t.view j = s.view j) :
    s.Keeps t := by
  refine ⟨⟨fun j hj => ?_, fun j d hj => ?_⟩, fun j d d' hj hj' => ?_⟩
  · rw [hview j]
    exact hi.absent j (hheap ▸ hj)
  · rw [hview j]
    exact hi.sound j d (hheap ▸ hj)
  · rw [hheap, hj] at hj'
    cases hj'
    exact .inl rfl

theorem keeps_alloc (hi : s.Inv) (he : s.heap id = none) (content : Content) :
    s.Keeps (s.alloc id content) := by
  have hv : (s.alloc id content).view id = ⟨.allocated, 0, 0, 0, 0, 0⟩ := by
    have h : (s.alloc id content).view id = { s.view id with sender := .allocated } := by
      simp [view, alloc, setEvent]
    rw [h, hi.absent id he]
  refine keeps_at id _ ⟨rfl, fun j hj => ?_⟩ hi ?_ ?_
  · simp [view, alloc, setEvent, hj]
  · rw [hv]
    exact ⟨by simp, rfl, rfl, rfl, rfl, rfl, rfl, rfl⟩
  · intro d hd
    rw [he] at hd
    cases hd

/-- An event that is not posted yet is as `alloc_event` made it. -/
theorem Inv.ready_of_allocated (hi : s.Inv) (he : s.heap id = some e)
    (hp : s.senders id = .allocated) : e.state = .ready := by
  have hsender : (s.view id).sender = .allocated := hp
  have hst := (hi.sound id e he).stage
  unfold Stage at hst
  split at hst
  · assumption
  · exact absurd hsender hst.1.2
  · exact absurd hsender hst.1.2

theorem keeps_post (hi : s.Inv) (he : s.heap id = some e) (hp : s.senders id = .allocated) :
    s.Keeps (s.postEvent id e) := by
  have hs := hi.sound id e he
  have hsender : (s.view id).sender = .allocated := hp
  have hv : (s.postEvent id e).view id =
      { s.view id with sender := .posted, queued := (s.view id).queued + 1 } := by
    simp [view, postEvent, setEvent]
  have hready := hi.ready_of_allocated he hp
  refine keeps_at id _ ⟨rfl, fun j hj => ?_⟩ hi ?_ ?_
  · simp [view, postEvent, setEvent, hj, Ne.symm hj]
  · rw [hv]
    refine ⟨by simp, ?_, hs.live, ?_⟩
    · change (s.view id).queued + 1 = 1
      rw [hs.queued, hsender]
      rfl
    · have hst := hs.stage
      simp only [Stage, hready] at hst ⊢
      rw [hsender] at hst
      exact hst
  · intro d hd
    rw [he] at hd
    cases hd
    exact .inl hready

theorem keeps_remove (hi : s.Inv) (he : s.heap id = some e) (hp : s.senders id = .posted)
    (signalled : Bool) : s.Keeps (s.removeEvent id signalled) := by
  have hs := hi.sound id e he
  have hsender : (s.view id).sender = .posted := hp
  have hv : (s.removeEvent id signalled).view id =
      { s.view id with sender := .removed signalled, queued := (s.view id).queued - 1 } := by
    simp [view, removeEvent]
  refine keeps_at id e ⟨?_, fun j hj => ?_⟩ hi ?_ ?_
  · rw [← he, Function.update_eq_self]
    rfl
  · simp [view, removeEvent, hj, List.count_erase_of_ne hj]
  · rw [hv]
    refine ⟨by simp, ?_, hs.live, ?_⟩
    · change (s.view id).queued - 1 = 0
      rw [hs.queued, hsender]
      rfl
    · have hst := hs.stage
      unfold Stage at hst ⊢
      rw [hsender] at hst
      simpa [Sender.HasPosted, Sender.refs] using hst
  · intro d hd
    rw [he] at hd
    cases hd
    exact .inl rfl

theorem keeps_leave (hi : s.Inv) (he : s.heap id = some e) {signalled : Bool}
    (hp : s.senders id = .removed signalled) : s.Keeps (s.leave id e signalled) := by
  have hs := hi.sound id e he
  have hsender : (s.view id).sender = .removed signalled := hp
  have hv : (s.leave id e signalled).view id =
      { s.view id with sender := .gone (waitResult e signalled) } := by
    simp [view, leave, setEvent, setSender]
  have hst := hs.stage
  have hpos : 0 < e.refcnt := by
    unfold Stage at hst
    rw [hsender] at hst
    split at hst
    · simp [hst.2.2.2.2, Sender.refs]
    · simp [hst.2.2.2.2.1, Sender.refs]
    · rcases hst.2.2.2 with ⟨-, -, hr⟩ | ⟨-, -, hr⟩ <;> simp [hr, Sender.refs]
  refine keeps_at id _ ⟨rfl, fun j hj => ?_⟩ hi ?_ ?_
  · simp [view, leave, setEvent, setSender, hj]
  · rw [hv]
    refine ⟨by simp, ?_, put_live hs.live hpos, ?_⟩
    · change (s.view id).queued = 0
      rw [hs.queued, hsender]
      rfl
    · unfold Stage at hst ⊢
      rw [hsender] at hst
      cases hstate : e.state <;>
        simp only [hstate, Event.put, Sender.HasPosted, Sender.refs] at hst ⊢ <;> grind
  · intro d hd
    rw [he] at hd
    cases hd
    exact .inl rfl

theorem keeps_getReady (hi : s.Inv) (hid : s.firstReady = some id) (he : s.heap id = some e) :
    s.Keeps (s.getReady id e) := by
  have hs := hi.sound id e he
  have hsender : (s.view id).sender = .posted :=
    (hi.queued_posted (List.mem_of_find?_eq_some hid)).1
  have hready : e.state = .ready := by
    obtain ⟨d, hd, hstate⟩ := hasState_iff.mp (List.find?_some hid)
    rw [he] at hd
    cases hd
    exact hstate
  have hst := hs.stage
  simp only [Stage, hready, hsender, Sender.refs] at hst
  obtain ⟨hcalls, htaken, hcompleted, hreleased, hrefs⟩ := hst
  have hv : (s.getReady id e).view id =
      { s.view id with calls := {.getting id}, taken := 1 } := by
    have h : (s.getReady id e).view id = { s.view id with
        calls := {.getting id} + (s.view id).calls, taken := (s.view id).taken + 1 } := by
      simp [view, getReady, setEvent, callOn, UsimCall.event]
    rw [h, hcalls, htaken]
    rfl
  refine keeps_at id _ ⟨rfl, fun j hj => ?_⟩ hi ?_ ?_
  · simp [view, getReady, setEvent, Ne.symm hj, callOn, UsimCall.event]
  · rw [hv]
    refine ⟨hs.inside, hs.queued, ?_, ?_⟩
    · simp [Event.get, hs.live, hrefs]
    · simp [Stage, Event.get, hsender, Sender.HasPosted, Sender.refs, hrefs, hcompleted,
        hreleased]
  · intro d hd
    rw [he] at hd
    cases hd
    exact .inr (.inl ⟨hready, rfl⟩)

theorem keeps_calls (hi : s.Inv) (he : s.heap id = some e) {l : List UsimCall}
    (hother : ∀ j, j ≠ id → keys (callOn j) l = keys (callOn j) s.calls)
    (hself : Stage id e { s.view id with calls := keys (callOn id) l }) :
    s.Keeps { s with calls := l } := by
  have hs := hi.sound id e he
  refine keeps_at id e ⟨?_, fun j hj => ?_⟩ hi ⟨hs.inside, hs.queued, hs.live, hself⟩ ?_
  · rw [← he, Function.update_eq_self]
  · simp only [view, hother j hj]
  · intro d hd
    rw [he] at hd
    cases hd
    exact .inl rfl

theorem stage_of_inProgress {v : View} (h : Stage id e v) (hstate : e.state = .inProgress)
    {m : Multiset UsimCall} (hm : m = 0 ∨ m = {.getting id} ∨ m = {.putting id} ∨
      ∃ status, m = {.completing id status}) : Stage id e { v with calls := m } := by
  simp only [Stage, hstate] at h ⊢
  exact ⟨h.1, h.2.1, h.2.2.1, h.2.2.2.1, h.2.2.2.2.1, hm⟩

theorem keeps_getEnd (hi : s.Inv) (hc : .getting id ∈ s.calls) {new : List UsimCall}
    (hnew : new = [] ∨ new = [.completing id (some Errno.EIO)]) :
    s.Keeps { s with calls := replace s.calls (.getting id) new } := by
  obtain ⟨hcalls, e, he⟩ := hi.calls_eq id hc rfl
  have hst := (hi.sound id e he).stage
  have hstate := hst.inProgress hcalls (by simp)
  have hev : ∀ b ∈ new, b.event = id := by
    rcases hnew with rfl | rfl
    · simp
    · simp [UsimCall.event]
  refine keeps_calls hi he (fun j hj => ?_) ?_
  · exact calls_replace_ne hc (Ne.symm hj) fun b hb => (hev b hb).trans_ne (Ne.symm hj)
  · rw [calls_replace_self hc hcalls (if_pos rfl)]
    apply stage_of_inProgress hst hstate
    rcases hnew with rfl | rfl
    · exact .inl rfl
    · exact .inr (.inr (.inr ⟨some Errno.EIO, by simp [callOn, UsimCall.event]⟩))

/-- A PUT that finds an event in progress with no call on it. -/
theorem keeps_putBegin (hi : s.Inv) (he : s.heap id = some e) (hstate : e.state = .inProgress)
    (hno : ∀ c ∈ s.calls, c.event ≠ id) :
    s.Keeps { s with calls := .putting id :: s.calls } := by
  have hst := (hi.sound id e he).stage
  have hzero : keys (callOn id) s.calls = 0 := by
    refine Multiset.eq_zero_of_forall_notMem fun c hc => ?_
    obtain ⟨b, hb, hbc⟩ := mem_keys.mp hc
    rw [callOn, if_neg (hno b hb)] at hbc
    cases hbc
  refine keeps_calls hi he (fun j hj => ?_) ?_
  · simp [callOn, Ne.symm hj]
  · have hself : keys (callOn id) (.putting id :: s.calls) = {.putting id} := by
      simp [callOn, hzero]
    rw [hself]
    exact stage_of_inProgress hst hstate (.inr (.inr (.inl rfl)))

theorem takeReply_frame (e : Event) (reply : Reply) :
    (e.takeReply reply).1.state = e.state ∧ (e.takeReply reply).1.refcnt = e.refcnt ∧
      (e.takeReply reply).1.live = e.live := by
  unfold Event.takeReply
  dsimp only
  split_ifs <;> exact ⟨rfl, rfl, rfl⟩

theorem keeps_putCopy (hi : s.Inv) (hc : .putting id ∈ s.calls) (he : s.heap id = some e)
    (reply : Reply) :
    s.Keeps { s.setEvent id (e.takeReply reply).1 with
      calls := replace s.calls (.putting id) [.completing id (e.takeReply reply).2] } := by
  obtain ⟨hcalls, -⟩ := hi.calls_eq id hc rfl
  have hs := hi.sound id e he
  have hstate := hs.stage.inProgress hcalls (by simp)
  obtain ⟨hstate', hrefs, hlive⟩ := takeReply_frame e reply
  refine keeps_at id _ ⟨rfl, fun j hj => ?_⟩ hi ⟨hs.inside, hs.queued, ?_, ?_⟩ ?_
  · simp only [view, setEvent]
    rw [calls_replace_ne hc (Ne.symm hj) (by simpa [UsimCall.event] using Ne.symm hj)]
  · rw [hlive, hrefs]
    exact hs.live
  · have hst := stage_of_inProgress hs.stage hstate
      (m := {.completing id (e.takeReply reply).2}) (.inr (.inr (.inr ⟨_, rfl⟩)))
    simp only [Stage, hstate, hstate', hrefs, view, setEvent] at hst ⊢
    rw [calls_replace_self hc hcalls (if_pos rfl)]
    simpa [callOn, UsimCall.event] using hst
  · intro d hd
    rw [he] at hd
    cases hd
    exact .inl hstate'.symm

theorem keeps_complete (hi : s.Inv) {status : Option Errno}
    (hc : .completing id status ∈ s.calls) (he : s.heap id = some e) :
    s.Keeps { s.completeEvent id e status with
      calls := replace s.calls (.completing id status) [.dropping id] } := by
  obtain ⟨hcalls, -⟩ := hi.calls_eq id hc rfl
  have hs := hi.sound id e he
  have hstate := hs.stage.inProgress hcalls (by simp)
  have hst := hs.stage
  simp only [Stage, hstate] at hst
  obtain ⟨hposted, htaken, hcompleted, hreleased, hrefs, -⟩ := hst
  refine keeps_at id _ ⟨rfl, fun j hj => ?_⟩ hi ⟨hs.inside, hs.queued, hs.live, ?_⟩ ?_
  · simp only [view, completeEvent, setEvent]
    rw [calls_replace_ne hc (Ne.symm hj) (by simpa [UsimCall.event] using Ne.symm hj)]
    simp [Ne.symm hj]
  · refine ⟨hposted, htaken, ?_, .inl ⟨hreleased, ?_, hrefs⟩⟩
    · change (s.completed ++ [id]).count id = 1
      rw [List.count_append, List.count_singleton_self]
      exact congrArg (· + 1) hcompleted
    · change keys (callOn id) (replace s.calls _ _) = _
      rw [calls_replace_self hc hcalls (if_pos rfl)]
      simp [callOn, UsimCall.event]
  · intro d hd
    rw [he] at hd
    cases hd
    exact .inr (.inr ⟨hstate, rfl⟩)

theorem keeps_drop (hi : s.Inv) (hc : .dropping id ∈ s.calls) (he : s.heap id = some e) :
    s.Keeps { s.dropEvent id e with calls := replace s.calls (.dropping id) [] } := by
  obtain ⟨hcalls, -⟩ := hi.calls_eq id hc rfl
  have hs := hi.sound id e he
  have hstate := hs.stage.dropping hcalls
  have hst := hs.stage
  simp only [Stage, hstate] at hst
  obtain ⟨hposted, htaken, hcompleted, hlast⟩ := hst
  obtain ⟨hreleased, -, hrefs⟩ := hlast.resolve_right fun h => by
    rw [h.2.1] at hcalls
    exact Multiset.singleton_ne_zero _ hcalls.symm
  have hnonneg := (s.view id).sender.refs_nonneg
  have hlive := put_live hs.live (by omega)
  refine keeps_at id _ ⟨rfl, fun j hj => ?_⟩ hi ⟨hs.inside, hs.queued, hlive, ?_⟩ ?_
  · simp only [view, dropEvent, setEvent]
    rw [calls_replace_ne hc (Ne.symm hj) (by simp)]
    simp [Ne.symm hj]
  · have hdone : e.put.state = .done := hstate
    simp only [Stage, hdone]
    refine ⟨hposted, htaken, hcompleted, .inr ⟨?_, ?_, ?_⟩⟩
    · change (s.released ++ [id]).count id = 1
      rw [List.count_append, List.count_singleton_self]
      exact congrArg (· + 1) hreleased
    · exact calls_replace_self hc hcalls (if_pos rfl)
    · change e.refcnt - 1 = (s.view id).sender.refs
      omega
  · intro d hd
    rw [he] at hd
    cases hd
    exact .inl rfl

/-- Completing what is left in progress: no event is taken, and some in progress become done. -/
def Finishes (s t : EventQueue) : Prop :=
  ∀ id e, s.heap id = some e → ∃ e', t.heap id = some e' ∧
    (e.state = e'.state ∨ e.state = .inProgress ∧ e'.state = .done)

theorem Finishes.trans {u : EventQueue} (h : s.Finishes t) (h' : t.Finishes u) : s.Finishes u := by
  intro id e he
  obtain ⟨d, hd, hed⟩ := h id e he
  obtain ⟨c, hc, hdc⟩ := h' id d hd
  refine ⟨c, hc, ?_⟩
  rcases hed with heq | ⟨hp, hdone⟩
  · rw [heq]
    exact hdc
  · rcases hdc with heq | ⟨hp', -⟩
    · exact .inr ⟨hp, heq ▸ hdone⟩
    · rw [hdone] at hp'
      cases hp'

theorem Finishes.moves (h : s.Finishes t) : s.Moves t := by
  intro id e e' he he'
  obtain ⟨d, hd, hed⟩ := h id e he
  rw [he'] at hd
  cases hd
  exact hed.imp_right .inr

/-- With no ioctl in flight, the loop of `i2c_usim_release` completes an orphan once. -/
theorem completeOrphan_inv (hi : s.Inv) (hcalls : s.calls = []) (id : ℕ) :
    (s.completeOrphan id).Inv ∧ (s.completeOrphan id).calls = [] ∧
      s.Finishes (s.completeOrphan id) := by
  have hsame : s.Inv ∧ s.calls = [] ∧ s.Finishes s :=
    ⟨hi, hcalls, fun j e he => ⟨e, he, .inl rfl⟩⟩
  unfold completeOrphan
  split
  · exact hsame
  · rename_i e he
    split
    · rename_i hstate
      have hs := hi.sound id e he
      have hst := hs.stage
      simp only [Stage, hstate] at hst
      obtain ⟨hposted, htaken, hcompleted, hreleased, hrefs, -⟩ := hst
      have hnonneg := (s.view id).sender.refs_nonneg
      have hlive : (e.complete (some Errno.EIO)).put.live =
          decide ((e.complete (some Errno.EIO)).put.refcnt ≠ 0) :=
        put_live hs.live (by simp only [Event.complete]; omega)
      set t := (s.completeEvent id e (some Errno.EIO)).dropEvent id
        (e.complete (some Errno.EIO)) with ht
      have hd : DiffersAt s t id (e.complete (some Errno.EIO)).put := by
        refine ⟨?_, fun j hj => ?_⟩
        · simp [ht, completeEvent, dropEvent, setEvent, Function.update_idem]
        · simp [ht, view, completeEvent, dropEvent, setEvent, Ne.symm hj]
      have hview : t.view id = { s.view id with completed := 1, released := 1 } := by
        have h : t.view id = { s.view id with
            completed := (s.view id).completed + 1, released := (s.view id).released + 1 } := by
          simp [ht, view, completeEvent, dropEvent, setEvent]
        rw [h, hcompleted, hreleased]
      have hzero : (s.view id).calls = 0 := by
        simp only [view, hcalls, keys_nil]
      refine ⟨hd.inv hi ?_, hcalls, ?_⟩
      · rw [hview]
        refine ⟨hs.inside, hs.queued, hlive, hposted, htaken, rfl, .inr ⟨rfl, hzero, ?_⟩⟩
        simp only [Event.put, Event.complete]
        omega
      · intro j d hj
        by_cases hjid : j = id
        · subst hjid
          rw [he] at hj
          cases hj
          exact ⟨_, by rw [hd.heap, Function.update_self], .inr ⟨hstate, rfl⟩⟩
        · exact ⟨d, by rw [hd.heap, Function.update_of_ne hjid, hj], .inl rfl⟩
    · exact hsame

theorem keeps_release (hi : s.Inv) (hcalls : s.calls = []) : s.Keeps s.release := by
  have h : ∀ l : List ℕ, (l.foldl completeOrphan s).Inv ∧ (l.foldl completeOrphan s).calls = [] ∧
      s.Finishes (l.foldl completeOrphan s) := by
    intro l
    induction l using List.reverseRecOn with
    | nil => exact ⟨hi, hcalls, fun j e he => ⟨e, he, .inl rfl⟩⟩
    | append_singleton l id ih =>
      obtain ⟨hinv, hnil, hfin⟩ := ih
      rw [List.foldl_append, List.foldl_cons, List.foldl_nil]
      obtain ⟨hinv', hnil', hfin'⟩ := completeOrphan_inv hinv hnil id
      exact ⟨hinv', hnil', hfin.trans hfin'⟩
  obtain ⟨hinv, -, hfin⟩ := h s.queue
  exact ⟨⟨hinv.absent, hinv.sound⟩, hfin.moves⟩

end EventQueue

/-- Every PUT names a ticket whose event, if one is queued, is in progress and has no other GET or
PUT at work on it. -/
def PutKnown (s : EventQueue) : UsimLabel → Prop
  | .putBegin ticket => ∀ id ∈ s.lookupEventWTicket ticket,
      s.HasState .inProgress id ∧ ∀ c ∈ s.calls, c.event ≠ id
  | _ => True

instance (s : EventQueue) : (a : UsimLabel) → Decidable (PutKnown s a)
  | .putBegin ticket => inferInstanceAs (Decidable (∀ id ∈ s.lookupEventWTicket ticket,
      s.HasState .inProgress id ∧ ∀ c ∈ s.calls, c.event ≠ id))
  | .alloc _ _ => .isTrue trivial
  | .post _ => .isTrue trivial
  | .remove _ _ => .isTrue trivial
  | .leave _ => .isTrue trivial
  | .usimOpen => .isTrue trivial
  | .usimRelease => .isTrue trivial
  | .getBegin => .isTrue trivial
  | .getEnd _ _ => .isTrue trivial
  | .putCopy _ _ => .isTrue trivial
  | .complete _ _ => .isTrue trivial
  | .drop _ => .isTrue trivial

namespace EventQueue
variable {s t : EventQueue}

theorem keeps_step (hi : s.Inv) {a : UsimLabel} (hok : PutKnown s a) (h : s.step a = some t) :
    s.Keeps t := by
  cases Step.of_step h with
  | alloc he => exact keeps_alloc hi he _
  | post he hp => exact keeps_post hi he hp
  | remove he hp hdone => exact keeps_remove hi he hp _
  | leave he hp => exact keeps_leave hi he hp
  | usimOpen => exact keeps_of_same hi rfl fun _ => rfl
  | usimRelease hu hc => exact keeps_release hi hc
  | getNone hu hid => exact keeps_of_same hi rfl fun _ => rfl
  | getBegin hu hid he => exact keeps_getReady hi hid he
  | @getEnd id copied hc =>
    apply keeps_getEnd hi hc
    cases copied
    · exact .inr rfl
    · exact .inl rfl
  | putNone hu hid => exact keeps_of_same hi rfl fun _ => rfl
  | @putBegin ticket id hu hid =>
    obtain ⟨hstate, hno⟩ := hok id hid
    obtain ⟨e, he, hstate⟩ := hasState_iff.mp hstate
    exact keeps_putBegin hi he hstate hno
  | putCopy hc he => exact keeps_putCopy hi hc he _
  | complete hc he => exact keeps_complete hi hc he
  | drop hc he => exact keeps_drop hi hc he

/-- The simulator holds the event: a GET took it and its completion has not dropped it. -/
def Held (s : EventQueue) (id : ℕ) : Prop := id ∈ s.taken ∧ id ∉ s.released

instance (s : EventQueue) (id : ℕ) : Decidable (s.Held id) :=
  inferInstanceAs (Decidable (_ ∧ _))

theorem reachable_inv (h : simulator.ReachableUnder PutKnown s) : s.Inv := by
  refine Machine.ReachableUnder.invariant (I := Inv) ?_
    (fun _ _ _ hi hok hs => (keeps_step hi hok hs).1) h
  rintro _ rfl
  exact ⟨fun _ _ => rfl, nofun⟩

theorem Inv.completed_nodup (hi : s.Inv) : s.completed.Nodup := by
  rw [List.nodup_iff_count_le_one]
  intro id
  change (s.view id).completed ≤ 1
  cases he : s.heap id with
  | none => simp [hi.absent id he]
  | some e =>
    have hst := (hi.sound id e he).stage
    unfold Stage at hst
    split at hst
    · simp [hst.2.2.1]
    · simp [hst.2.2.1]
    · simp [hst.2.2.1]

theorem Inv.refcnt_eq (hi : s.Inv) (he : s.heap id = some e) :
    e.refcnt = (s.senders id).refs + if s.Held id then 1 else 0 := by
  have htaken : id ∈ s.taken ↔ 0 < (s.view id).taken := List.count_pos_iff.symm
  have hreleased : id ∈ s.released ↔ 0 < (s.view id).released := List.count_pos_iff.symm
  have hsender : (s.view id).sender = s.senders id := rfl
  have hst := (hi.sound id e he).stage
  unfold Stage at hst
  rw [hsender] at hst
  simp only [Held, htaken, hreleased]
  split at hst
  · simp [hst.2.1, hst.2.2.2.2]
  · simp [hst.2.1, hst.2.2.2.1, hst.2.2.2.2.1]
  · rcases hst.2.2.2 with ⟨hr, -, hrefs⟩ | ⟨hr, -, hrefs⟩ <;> simp [hst.2.1, hr, hrefs]

/-- A freed event is not on the queue, and its sender has left. -/
theorem Inv.freed (hi : s.Inv) (he : s.heap id = some e) (hfree : e.live = false) :
    id ∉ s.queue ∧ (s.senders id).refs = 0 := by
  have hzero : e.refcnt = 0 := by
    have h := (hi.sound id e he).live
    rw [hfree, eq_comm, decide_eq_false_iff_not] at h
    exact not_not.mp h
  have hrefs : (s.senders id).refs = 0 := by
    have h := hi.refcnt_eq he
    have hnonneg := (s.senders id).refs_nonneg
    split_ifs at h <;> omega
  refine ⟨fun hq => ?_, hrefs⟩
  rw [(hi.queued_posted hq).1] at hrefs
  exact absurd hrefs (by decide)

end EventQueue

/-- In every run whose PUTs name known events: no event is completed twice, each reference count is
that of the sender inside its transfer plus that of the simulator, no freed event is queued or in
use by its sender, and the state of an event only moves forward. -/
theorem events_live {s : EventQueue} (h : simulator.ReachableUnder PutKnown s) :
    s.completed.Nodup ∧
      (∀ id e, s.heap id = some e →
        e.refcnt = (s.senders id).refs + if s.Held id then 1 else 0) ∧
      (∀ id e, s.heap id = some e → e.live = false →
        id ∉ s.queue ∧ (s.senders id).refs = 0) ∧
      ∀ a t, PutKnown s a → s.step a = some t → s.Moves t := by
  have hi := EventQueue.reachable_inv h
  exact ⟨hi.completed_nodup, fun id e he => hi.refcnt_eq he, fun id e he => hi.freed he,
    fun a t hok hs => (EventQueue.keeps_step hi hok hs).2⟩

/-- A transfer that the simulator gets, answers and completes, after which its sender leaves. -/
theorem events_live_one : ∃ s : EventQueue, s.completed = [0] ∧ s.completed.Nodup := by
  have hrun : (simulator.execUnder PutKnown .initial
      [.usimOpen, .alloc 0 ⟨.i2cWrite, 0, 0x20, 1, fun _ => 0⟩, .post 0, .getBegin,
        .getEnd 0 true, .putBegin 1, .putCopy 0 ⟨true, 0, 0, fun _ => 0⟩, .complete 0 none,
        .drop 0, .remove 0 false, .leave 0, .usimRelease]).map
      (fun s => decide (s.completed = [0])) = some true := by decide
  obtain ⟨s, hs, hp⟩ := Machine.exists_reachableUnder_of_exec (M := simulator) rfl hrun
  exact ⟨s, of_decide_eq_true hp, (events_live hs).1⟩

/-- A PUT with the ticket of an event that no GET has taken drops the reference of the sender: the
event is freed while it is on the queue and its sender waits for it. -/
theorem queued_event_freed : ¬ ∀ s, simulator.Reachable s →
    ∀ id e, s.heap id = some e → e.live = false → id ∉ s.queue := by
  have hrun : (simulator.exec .initial
      [.usimOpen, .alloc 0 ⟨.i2cWrite, 0, 0x20, 1, fun _ => 0⟩, .post 0, .putBegin 1,
        .putCopy 0 ⟨true, 0, 0, fun _ => 0⟩, .complete 0 none, .drop 0]).map
      (fun s => decide ((s.heap 0).any (fun e => !e.live) ∧ 0 ∈ s.queue)) = some true := by
    decide
  obtain ⟨s, hs, hp⟩ := Machine.exists_reachable_of_exec (M := simulator) rfl hrun
  obtain ⟨hfree, hq⟩ := of_decide_eq_true hp
  intro h
  cases he : s.heap 0 with
  | none => simp [he] at hfree
  | some e => exact h s hs 0 e he (by simpa [he] using hfree) hq

end BifrostModule.Usim
