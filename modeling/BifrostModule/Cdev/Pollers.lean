import BifrostModule.Foundation.Polling
import BifrostModule.Cdev.Delivery

/-! # Pollers of a handle

`bifrost_poll` registers on the wait queue of its handle before it looks at the event
list. `bifrost_create_event` wakes the queue of each handle on which it tried to enqueue
a copy, before it goes on to the next handle.
-/
namespace BifrostModule.Cdev
open Foundation

variable {γ : Type*}

def UserHandle.bifrostPoll (h : UserHandle γ) : BitVec 32 :=
  if h.eventList.isEmpty then 0 else pollReadable

def Label.delivers : Label γ → Bool
  | .visit _ => true
  | .enqueue => true
  | .finish => true
  | _ => false

def Label.releases (a : Addr) : Label γ → Bool
  | .bifrostRelease b => b = a
  | _ => false

namespace State

/-- The copy for which `enqueue_event` is called on the handle, whether it takes it or not. -/
def appended (s : State γ) (a : Addr) : Label γ → Option ℕ
  | .enqueue =>
    s.running.bind fun d => if d.left.head? = some a then d.copy.map EventCont.id else none
  | _ => none

theorem mem_pendingAt {s : State γ} {a : Addr} {id : ℕ} :
    id ∈ s.pendingAt a ↔ ∃ h, s.handles a = some h ∧ ∃ p ∈ h.eventList, p.id = id := by
  rw [pendingAt]
  cases s.handles a with
  | none => simp
  | some h => simp

end State

def pollable (γ : Type*) (a : Addr) : Waitable (State γ) (Label γ) ℕ where
  device := cdev γ
  opened s := (s.handles a).isSome
  closes l := l.releases a
  appended s l := s.appended a l
  follows waking l := waking.isEmpty || !l.delivers
  events s id := id ∈ s.pendingAt a
  mask s := (s.handles a).elim 0 UserHandle.bifrostPoll
  mask_iff s := by
    simp only [State.mem_pendingAt]
    cases s.handles a with
    | none => simp
    | some h =>
      cases hl : h.eventList with
      | nil => simp [UserHandle.bifrostPoll, hl]
      | cons p l => simp [UserHandle.bifrostPoll, hl, pollReadable]

namespace State
variable {s t : State γ} {a b : Addr} {id : ℕ}

/-- A change of one handle that leaves it no new copies. -/
theorem pendingAt_update {o : Option (UserHandle γ)}
    (ht : t.handles = Function.update s.handles b o)
    (ho : ∀ h, o = some h → ∀ p ∈ h.eventList, p.id ∈ s.pendingAt b) (hid : id ∈ t.pendingAt a) :
    id ∈ s.pendingAt a := by
  obtain ⟨h, hh, p, hp, rfl⟩ := mem_pendingAt.mp hid
  rw [ht] at hh
  by_cases hab : a = b
  · subst hab
    rw [Function.update_self] at hh
    exact ho h hh p hp
  · rw [Function.update_of_ne hab] at hh
    exact mem_pendingAt.mpr ⟨h, hh, p, hp, rfl⟩

theorem pendingAt_dequeue {h : UserHandle γ} (hb : s.handles b = some h) (now : ℕ) (copied : Bool)
    (hid : id ∈ (s.dequeue b h now copied).pendingAt a) : id ∈ s.pendingAt a := by
  cases hl : h.eventList with
  | nil =>
    rw [dequeue_nil hl] at hid
    exact hid
  | cons p l =>
    rw [dequeue_cons hl] at hid
    refine pendingAt_update rfl ?_ hid
    rintro _ ⟨⟩ q hq
    exact mem_pendingAt.mpr ⟨h, hb, q, List.mem_of_mem_tail hq, rfl⟩

theorem mem_enqueueEvent {h : UserHandle γ} {p q : EventCont γ}
    (hq : q ∈ (h.enqueueEvent p).2.eventList) : q ∈ h.eventList ∨ q = p := by
  unfold UserHandle.enqueueEvent at hq
  split at hq
  · exact .inl hq
  · rcases List.mem_append.mp hq with hq | hq
    · exact .inl hq
    · exact .inr (List.mem_singleton.mp hq)

/-- A copy gets onto a handle when the running work item enqueues it there, and in no other way. -/
theorem pendingAt_step {l : Label γ} (hst : s.step l = some t) (hid : id ∈ t.pendingAt a) :
    id ∈ s.pendingAt a ∨ s.appended a l = some id := by
  cases l with
  | bifrostOpen b allocated =>
    obtain ⟨-, -, rfl⟩ := step_open hst
    cases allocated with
    | false => exact .inl hid
    | true =>
      refine .inl (pendingAt_update (b := b) rfl ?_ hid)
      rintro _ ⟨⟩ p hp
      cases hp
  | bifrostRelease b =>
    obtain ⟨-, h, -, rfl⟩ := step_release hst
    refine .inl (pendingAt_update (b := b) rfl ?_ hid)
    rintro _ ⟨⟩
  | enableEvent b mask =>
    obtain ⟨h, hb, rfl⟩ := map_handle hst
    refine .inl (pendingAt_update (b := b) rfl ?_ hid)
    rintro _ ⟨⟩ p hp
    exact mem_pendingAt.mpr ⟨h, hb, p, hp, rfl⟩
  | irqForwarding b mask =>
    obtain ⟨h, hb, rfl⟩ := map_handle hst
    refine .inl (pendingAt_update (b := b) rfl ?_ hid)
    rintro _ ⟨⟩ p hp
    exact mem_pendingAt.mpr ⟨h, hb, p, hp, rfl⟩
  | dequeueEvent b now copied =>
    obtain ⟨h, hb, rfl⟩ := map_handle hst
    exact .inl (pendingAt_dequeue hb now copied hid)
  | createEvent work allocated =>
    obtain rfl := Option.some.inj hst
    cases allocated <;> exact .inl hid
  | run now =>
    obtain ⟨-, w, queue, -, rfl⟩ := step_run hst
    exact .inl hid
  | visit allocated =>
    obtain ⟨d, b, left, h, -, -, -, -, rfl⟩ := step_visit hst
    unfold visit at hid
    split at hid <;> exact .inl hid
  | enqueue =>
    obtain ⟨d, b, left, p, h, hrun, hleft, hcopy, hb, rfl⟩ := step_enqueue hst
    by_cases hnew : a = b ∧ id = p.id
    · obtain ⟨rfl, rfl⟩ := hnew
      exact .inr (by simp [appended, hrun, hleft, hcopy])
    · left
      obtain ⟨g, hg, q, hq, rfl⟩ := mem_pendingAt.mp hid
      change Function.update s.handles b (some (h.enqueueEvent p).2) a = some g at hg
      by_cases hab : a = b
      · subst hab
        rw [Function.update_self] at hg
        obtain rfl := Option.some.inj hg
        rcases mem_enqueueEvent hq with hq | rfl
        · exact mem_pendingAt.mpr ⟨h, hb, q, hq, rfl⟩
        · exact absurd ⟨rfl, rfl⟩ hnew
      · rw [Function.update_of_ne hab] at hg
        exact mem_pendingAt.mpr ⟨g, hg, q, hq, rfl⟩
  | finish =>
    obtain ⟨d, -, -, -, rfl⟩ := step_finish hst
    exact .inl hid

end State

theorem pollable_announces (a : Addr) : (pollable γ a).Announces :=
  fun _ _ _ _ hst _ hid => State.pendingAt_step hst hid

end BifrostModule.Cdev
