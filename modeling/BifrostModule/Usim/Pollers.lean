import BifrostModule.Cdev.Pollers
import BifrostModule.Usim.Lifetime

/-! # Pollers of the simulator queue

`i2c_usim_poll` registers on the wait queue of the event queue before it looks for a
ready event. `post_event` wakes that queue after the locked section that appends its
event, and its sender begins to wait after that.
-/
namespace BifrostModule.Usim
open Foundation

namespace EventQueue

def i2cUsimPoll (s : EventQueue) : BitVec 32 :=
  if s.queue.any (s.HasState .ready) then pollReadable else 0

def ReadyEvent (s : EventQueue) (id : ℕ) : Prop := id ∈ s.queue ∧ s.HasState .ready id = true

end EventQueue

def UsimLabel.posted : UsimLabel → Option ℕ
  | post id => some id
  | _ => none

def UsimLabel.isRelease : UsimLabel → Bool
  | usimRelease => true
  | _ => false

/-- A sender does not get through its wait before it has woken the queue. -/
def UsimLabel.follows (waking : List ℕ) : UsimLabel → Bool
  | remove id _ => id ∉ waking
  | _ => true

def pollable : Waitable EventQueue UsimLabel ℕ where
  device := simulator
  opened s := s.users
  closes a := a.isRelease
  appended _ a := a.posted
  follows := UsimLabel.follows
  events := EventQueue.ReadyEvent
  mask := EventQueue.i2cUsimPoll
  mask_iff s := by
    rw [EventQueue.i2cUsimPoll]
    split
    · rename_i h
      exact iff_of_true (by decide) (List.any_eq_true.mp h)
    · rename_i h
      exact iff_of_false (not_not.mpr rfl) (mt List.any_eq_true.mpr h)

namespace EventQueue
variable {s t u : EventQueue} {id : ℕ} {e e' : Event}

/-- A step that takes no event out of the heap and makes none ready. -/
structure Settles (s t : EventQueue) : Prop where
  queue : t.queue ⊆ s.queue
  heap : ∀ id, (t.heap id).isSome = (s.heap id).isSome
  ready : ∀ id, t.HasState .ready id = true → s.HasState .ready id = true

theorem Settles.refl (s : EventQueue) : s.Settles s :=
  ⟨List.Subset.refl _, fun _ => rfl, fun _ => id⟩

theorem Settles.trans (h : s.Settles t) (h' : t.Settles u) : s.Settles u where
  queue := List.Subset.trans h'.queue h.queue
  heap id := (h'.heap id).trans (h.heap id)
  ready id hid := h.ready id (h'.ready id hid)

theorem Settles.readyEvent (h : s.Settles t) (hid : t.ReadyEvent id) : s.ReadyEvent id :=
  ⟨h.queue hid.1, h.ready id hid.2⟩

theorem settles_at (he : s.heap id = some e) (hq : t.queue = s.queue)
    (ht : t.heap = Function.update s.heap id (some e'))
    (hready : e'.state = .ready → e.state = .ready) : s.Settles t where
  queue := hq ▸ List.Subset.refl _
  heap j := by
    rw [ht]
    by_cases hj : j = id
    · rw [hj, Function.update_self, he]
      rfl
    · rw [Function.update_of_ne hj]
  ready j h := by
    obtain ⟨d, hd, hstate⟩ := hasState_iff.mp h
    rw [ht] at hd
    by_cases hj : j = id
    · rw [hj, Function.update_self] at hd
      obtain rfl := Option.some.inj hd
      exact hj ▸ hasState_iff.mpr ⟨e, he, hready hstate⟩
    · rw [Function.update_of_ne hj] at hd
      exact hasState_iff.mpr ⟨d, hd, hstate⟩

theorem settles_completeOrphan (s : EventQueue) (id : ℕ) : s.Settles (s.completeOrphan id) := by
  unfold completeOrphan
  cases he : s.heap id with
  | none => exact .refl s
  | some e =>
    dsimp only
    split
    · have hdone : (s.completeEvent id e (some Errno.EIO)).heap id =
          some (e.complete (some Errno.EIO)) := Function.update_self id _ _
      have hcompleted : s.Settles (s.completeEvent id e (some Errno.EIO)) :=
        settles_at he rfl rfl nofun
      exact hcompleted.trans (settles_at hdone rfl rfl nofun)
    · exact .refl s

theorem settles_release (s : EventQueue) : s.Settles s.release := by
  have hloop : ∀ (l : List ℕ) (s : EventQueue), s.Settles (l.foldl completeOrphan s) := by
    intro l
    induction l with
    | nil => exact Settles.refl
    | cons id l ih => exact fun s => (settles_completeOrphan s id).trans (ih _)
  exact ⟨(hloop s.queue s).queue, (hloop s.queue s).heap, (hloop s.queue s).ready⟩

/-- Only `post_event` makes an event one that a poll reports, provided no free identity is on the
queue. -/
theorem Step.readyEvent {a : UsimLabel} (hs : ∀ id ∈ s.queue, (s.heap id).isSome)
    (h : s.Step a t) : (∀ id ∈ t.queue, (t.heap id).isSome) ∧
      ∀ id, t.ReadyEvent id → s.ReadyEvent id ∨ a.posted = some id := by
  have hsettles : s.Settles t → (∀ id ∈ t.queue, (t.heap id).isSome) ∧
      ∀ id, t.ReadyEvent id → s.ReadyEvent id ∨ a.posted = some id := by
    intro h
    refine ⟨fun id hid => ?_, fun id hid => .inl (h.readyEvent hid)⟩
    rw [h.heap id]
    exact hs id (h.queue hid)
  cases h with
  | @alloc id content he =>
    have hne : ∀ j ∈ s.queue, (s.alloc id content).heap j = s.heap j := by
      intro j hj
      apply Function.update_of_ne
      rintro rfl
      have hsome := hs j hj
      rw [he] at hsome
      cases hsome
    refine ⟨fun j hj => ?_, fun j hj => .inl ⟨hj.1, ?_⟩⟩
    · rw [hne j hj]
      exact hs j hj
    · obtain ⟨d, hd, hstate⟩ := hasState_iff.mp hj.2
      exact hasState_iff.mpr ⟨d, (hne j hj.1) ▸ hd, hstate⟩
  | @post id e he hp =>
    have hne : ∀ j ≠ id, (s.postEvent id e).heap j = s.heap j :=
      fun j hj => Function.update_of_ne hj _ _
    refine ⟨fun j hj => ?_, fun j hj => ?_⟩
    · by_cases hji : j = id
      · rw [hji]
        exact congrArg Option.isSome (Function.update_self id _ s.heap)
      · rw [hne j hji]
        exact hs j ((List.mem_append.mp hj).resolve_right (mt List.mem_singleton.mp hji))
    · by_cases hji : j = id
      · exact .inr (congrArg some hji.symm)
      · obtain ⟨d, hd, hstate⟩ := hasState_iff.mp hj.2
        refine .inl ⟨(List.mem_append.mp hj.1).resolve_right (mt List.mem_singleton.mp hji), ?_⟩
        exact hasState_iff.mpr ⟨d, (hne j hji) ▸ hd, hstate⟩
  | remove he hp hdone => exact hsettles ⟨List.erase_subset, fun _ => rfl, fun _ => id⟩
  | leave he hp => exact hsettles (settles_at he rfl rfl id)
  | usimOpen => exact hsettles ⟨List.Subset.refl _, fun _ => rfl, fun _ => id⟩
  | usimRelease hu hc => exact hsettles (settles_release s)
  | getNone hu hid => exact hsettles (.refl s)
  | getBegin hu hid he => exact hsettles (settles_at he rfl rfl nofun)
  | getEnd hc => exact hsettles ⟨List.Subset.refl _, fun _ => rfl, fun _ => id⟩
  | putNone hu hid => exact hsettles (.refl s)
  | putBegin hu hid => exact hsettles ⟨List.Subset.refl _, fun _ => rfl, fun _ => id⟩
  | @putCopy id e reply hc he =>
    refine hsettles (settles_at he rfl rfl fun h => ?_)
    rw [← (takeReply_frame e reply).1]
    exact h
  | complete hc he => exact hsettles (settles_at he rfl rfl nofun)
  | drop hc he => exact hsettles (settles_at he rfl rfl id)

theorem reachable_queued (h : simulator.Reachable s) : ∀ id ∈ s.queue, (s.heap id).isSome := by
  refine Machine.Reachable.invariant (I := fun s => ∀ id ∈ s.queue, (s.heap id).isSome) ?_
    (fun _ _ _ hs h => (Step.readyEvent hs (.of_step h)).1) h
  rintro _ rfl id hid
  cases hid

end EventQueue

theorem pollable_announces : pollable.Announces := fun _ _ _ hr h id hid =>
  (EventQueue.Step.readyEvent (EventQueue.reachable_queued hr) (.of_step h)).2 id hid

/-- While a poller of a handle, or of the simulator queue, sleeps, every event that it would report
has its producer still on the way to the wake-up. -/
theorem no_wakeup_lost {γ ι : Type*} [DecidableEq ι] [Fintype ι] :
    (∀ (a : Cdev.Addr) (s : Polled (Cdev.State γ) ℕ ι),
      ((Cdev.pollable γ a).polling ι).Reachable s →
        ∀ i, s.pollers i = .asleep → ∀ h, s.device.handles a = some h → ∀ p ∈ h.eventList,
          p.id ∈ s.waking) ∧
    ∀ s : Polled EventQueue ℕ ι, (pollable.polling ι).Reachable s →
      ∀ i, s.pollers i = .asleep → ∀ id ∈ s.device.queue, ∀ e, s.device.heap id = some e →
        e.state = .ready → id ∈ s.waking := by
  refine ⟨fun a s hs i hi h hh p hp => ?_, fun s hs i hi id hid e he hready => ?_⟩
  · apply Waitable.waking_of_asleep (Cdev.pollable_announces a) hs hi
    exact Cdev.State.mem_pendingAt.mpr ⟨h, hh, p, hp, rfl⟩
  · apply Waitable.waking_of_asleep pollable_announces hs hi
    exact ⟨hid, EventQueue.hasState_iff.mpr ⟨e, he, hready⟩⟩

theorem no_wakeup_lost_asleep :
    (∃ s : Polled (Cdev.State Unit) ℕ Unit, s.pollers () = .asleep ∧ 0 ∈ s.waking) ∧
      ∃ s : Polled EventQueue ℕ Unit, s.pollers () = .asleep ∧ 0 ∈ s.waking := by
  have hcdev : (((Cdev.pollable Unit 8).polling Unit).exec (.idle .initial)
      [.device (.bifrostOpen 8 true), .device (.enableEvent 8 1), .device (.irqForwarding 8 2),
        .poller () .pollWait, .poller () .check, .poller () .schedule,
        .device (.createEvent ⟨⟨Cdev.eventTypeIrq, fun _ => 2, 0, 0⟩, ()⟩ true), .device (.run 5),
        .device (.visit true), .device .enqueue]).map
      (fun s => decide (s.pollers () = .asleep ∧
        ((s.device.handles 8).map fun h => h.eventList.map Cdev.EventCont.id) = some [0])) =
      some true := by decide
  have husim : ((pollable.polling Unit).exec (.idle .initial)
      [.device .usimOpen, .poller () .pollWait, .poller () .check, .poller () .schedule,
        .device (.alloc 0 ⟨.i2cWrite, 0, 0x20, 1, fun _ => 0⟩), .device (.post 0)]).map
      (fun s => decide (s.pollers () = .asleep ∧ 0 ∈ s.device.queue ∧
        s.device.HasState .ready 0 = true)) = some true := by decide
  obtain ⟨s, hs, hp⟩ := Machine.exists_reachable_of_exec
    (M := (Cdev.pollable Unit 8).polling Unit) ⟨_, rfl, rfl⟩ hcdev
  obtain ⟨s', hs', hp'⟩ := Machine.exists_reachable_of_exec
    (M := pollable.polling Unit) ⟨_, rfl, rfl⟩ husim
  obtain ⟨hasleep, hlist⟩ := of_decide_eq_true hp
  obtain ⟨hasleep', hqueued, hready⟩ := of_decide_eq_true hp'
  refine ⟨⟨s, hasleep, ?_⟩, s', hasleep', ?_⟩
  · obtain ⟨h, hh, hids⟩ := Option.map_eq_some_iff.mp hlist
    obtain ⟨p, hp, hid⟩ := List.mem_map.mp (hids ▸ List.mem_singleton_self 0)
    exact hid ▸ no_wakeup_lost.1 8 s hs () hasleep h hh p hp
  · obtain ⟨e, he, hstate⟩ := EventQueue.hasState_iff.mp hready
    exact (no_wakeup_lost (γ := Unit)).2 s' hs' () hasleep' 0 hqueued e he hstate

end BifrostModule.Usim
