import BifrostModule.Usim.Contract

/-! # Events that nobody finds again

The simulator keeps only the ticket of an event it got. Its reference is dropped by
a PUT or a close that finds the event on the queue, or by an ioctl that is still at
work on it; a sender that is interrupted takes its event off the queue.
-/
namespace BifrostModule.Usim
open Foundation Foundation.InFlight

def Sender.Inside : Sender → Prop
  | outside => False
  | gone _ => False
  | allocated => True
  | posted => True
  | removed _ => True

theorem Sender.refs_of_not_inside {p : Sender} (h : ¬ p.Inside) : p.refs = 0 := by
  cases p with
  | outside => rfl
  | gone rc => rfl
  | allocated => exact absurd trivial h
  | posted => exact absurd trivial h
  | removed signalled => exact absurd trivial h

namespace EventQueue
variable {s t : EventQueue} {a : UsimLabel} {id : ℕ} {e : Event}

/-- The device is closed and no sender is inside a transfer. -/
def Idle (s : EventQueue) : Prop := s.users = false ∧ ∀ id, ¬ (s.senders id).Inside

/-- No event remains allocated. -/
def NoneLeft (s : EventQueue) : Prop := ∀ id e, s.heap id = some e → e.live = false

/-- Whoever holds the reference of the simulator finds its event: it is on the queue, or an ioctl is
at work on it. -/
def Found (s : EventQueue) (id : ℕ) : Prop := id ∈ s.queue ∨ ∃ c ∈ s.calls, c.event = id

/-- No sender takes an event off the queue that is in progress and has no ioctl at work on it, and
no GET returns an event that its sender has taken off the queue. -/
def StaysFound (s : EventQueue) : UsimLabel → Prop
  | .remove id _ => s.HasState .inProgress id → ∃ c ∈ s.calls, c.event = id
  | .getEnd id true => id ∈ s.queue
  | _ => True

instance (s : EventQueue) : (a : UsimLabel) → Decidable (s.StaysFound a)
  | .remove id _ => inferInstanceAs (Decidable (_ → ∃ c ∈ s.calls, c.event = id))
  | .getEnd id true => inferInstanceAs (Decidable (id ∈ s.queue))
  | .getEnd _ false => .isTrue trivial
  | .alloc _ _ => .isTrue trivial
  | .post _ => .isTrue trivial
  | .leave _ => .isTrue trivial
  | .usimOpen => .isTrue trivial
  | .usimRelease => .isTrue trivial
  | .getBegin => .isTrue trivial
  | .putBegin _ => .isTrue trivial
  | .putCopy _ _ => .isTrue trivial
  | .complete _ _ => .isTrue trivial
  | .drop _ => .isTrue trivial

/-- Every event in progress is found, and the ioctls belong to an open device. -/
structure Owned (s : EventQueue) : Prop where
  found : ∀ id e, s.heap id = some e → e.state = .inProgress → s.Found id
  closed : s.users = false → s.calls = []

theorem Owned.opened (ho : s.Owned) {c : UsimCall} (hc : c ∈ s.calls) : s.users = true := by
  by_contra hu
  rw [ho.closed (by simpa using hu)] at hc
  cases hc

theorem found_at {e' : Event} (ho : s.Owned) (hheap : t.heap = Function.update s.heap id (some e'))
    (hself : e'.state = .inProgress → t.Found id)
    (hqueue : ∀ j, j ≠ id → j ∈ s.queue → j ∈ t.queue)
    (hcalls : ∀ c ∈ s.calls, c.event ≠ id → c ∈ t.calls) :
    ∀ j d, t.heap j = some d → d.state = .inProgress → t.Found j := by
  intro j d hd hstate
  by_cases hj : j = id
  · subst hj
    rw [hheap, Function.update_self] at hd
    obtain rfl := Option.some.inj hd
    exact hself hstate
  · rw [hheap, Function.update_of_ne hj] at hd
    refine (ho.found j d hd hstate).imp (hqueue j hj) ?_
    rintro ⟨c, hc, rfl⟩
    exact ⟨c, hcalls c hc hj, rfl⟩

theorem Owned.step (ho : s.Owned) (hi : s.Inv) (hok : s.StaysFound a) (h : s.Step a t) :
    t.Owned := by
  have hreplace : ∀ {b : UsimCall} {new : List UsimCall} {c : UsimCall}, c ∈ s.calls →
      c.event ≠ b.event → c ∈ replace s.calls b new := fun hc hne =>
    mem_replace_of_ne hc fun heq => hne (congrArg UsimCall.event heq)
  cases h with
  | alloc he =>
    exact ⟨found_at ho rfl (by rintro ⟨⟩) (fun _ _ hq => hq) fun _ hc _ => hc, ho.closed⟩
  | post he hp =>
    exact ⟨found_at ho rfl (by rintro ⟨⟩) (fun _ _ => List.mem_append_left _) fun _ hc _ => hc,
      ho.closed⟩
  | @remove id e signalled he hp hdone =>
    refine ⟨found_at ho (by rw [← he, Function.update_eq_self]; rfl) (fun hstate => .inr ?_)
      (fun j hj hq => (List.mem_erase_of_ne hj).mpr hq) fun _ hc _ => hc, ho.closed⟩
    exact hok (hasState_iff.mpr ⟨e, he, hstate⟩)
  | @leave id e signalled he hp =>
    exact ⟨found_at ho rfl (ho.found id e he) (fun _ _ hq => hq) fun _ hc _ => hc, ho.closed⟩
  | usimOpen => exact ⟨ho.found, by rintro ⟨⟩⟩
  | usimRelease hu hc =>
    obtain ⟨-, -, -, hcalls, -⟩ := foldl_completeOrphan_frame s.queue s
    refine ⟨fun j d hd hstate => ?_, fun _ => hcalls.trans hc⟩
    rw [release_heap] at hd
    split at hd
    · obtain ⟨e, -, rfl⟩ := Option.map_eq_some_iff.mp hd
      exact absurd hstate (orphaned_state e)
    · rename_i hq
      rcases ho.found j d hd hstate with hq' | ⟨c, hmem, -⟩
      · exact absurd hq' hq
      · rw [hc] at hmem
        cases hmem
  | getNone hu hid => exact ho
  | @getBegin id e hu hid he =>
    refine ⟨found_at ho rfl (fun _ => .inr ⟨_, List.mem_cons_self, rfl⟩) (fun _ _ hq => hq)
      fun _ hc _ => List.mem_cons_of_mem _ hc,
      fun hno => absurd hno (by simp [getReady, setEvent, hu])⟩
  | @getEnd id copied hc =>
    obtain ⟨-, e, he⟩ := hi.calls_eq id hc rfl
    have hheap : s.heap = Function.update s.heap id (some e) := by
      rw [← he, Function.update_eq_self]
    refine ⟨found_at ho hheap (fun _ => ?_)
      (fun _ _ hq => hq) fun _ hmem hne => hreplace hmem hne,
      fun hno => absurd hno (by simp [ho.opened hc])⟩
    cases copied with
    | true => exact .inl hok
    | false => exact .inr ⟨_, mem_replace_new (List.mem_singleton_self _), rfl⟩
  | putNone hu hid => exact ho
  | putBegin hu hid =>
    refine ⟨fun j d hd hstate => (ho.found j d hd hstate).imp_right ?_,
      fun hno => absurd hno (by simp [hu])⟩
    rintro ⟨c, hc, hcj⟩
    exact ⟨c, List.mem_cons_of_mem _ hc, hcj⟩
  | @putCopy id e reply hc he =>
    exact ⟨found_at ho rfl
      (fun _ => .inr ⟨_, mem_replace_new (List.mem_singleton_self _), rfl⟩)
      (fun _ _ hq => hq) fun _ hmem hne => hreplace hmem hne,
      fun hno => absurd hno (by simp [setEvent, ho.opened hc])⟩
  | @complete id e status hc he =>
    exact ⟨found_at ho rfl (by rintro ⟨⟩) (fun _ _ hq => hq) fun _ hmem hne => hreplace hmem hne,
      fun hno => absurd hno (by simp [completeEvent, setEvent, ho.opened hc])⟩
  | @drop id e hc he =>
    have hdone := (hi.sound id e he).stage.dropping (hi.calls_eq id hc rfl).1
    refine ⟨found_at ho rfl (fun hstate => ?_) (fun _ _ hq => hq) fun _ hmem hne =>
      hreplace hmem hne, fun hno => absurd hno (by simp [dropEvent, setEvent, ho.opened hc])⟩
    cases hdone.symm.trans hstate

/-- With nobody inside, whoever still held an event would have to find it on the empty queue. -/
theorem Owned.noneLeft (ho : s.Owned) (hi : s.Inv) (hidle : s.Idle) : s.NoneLeft := by
  intro id e he
  have hs := hi.sound id e he
  have hrefs : (s.senders id).refs = 0 := Sender.refs_of_not_inside (hidle.2 id)
  have hnil := ho.closed hidle.1
  by_contra hlive
  rw [Bool.not_eq_false, hs.live, decide_eq_true_eq, hi.refcnt_eq he, hrefs] at hlive
  have hheld : s.Held id := by
    by_contra hno
    rw [if_neg hno] at hlive
    exact hlive rfl
  have hstate : e.state = .inProgress := by
    have hst := hs.stage
    have hcalls : (s.view id).calls = 0 := by simp only [view, hnil, keys_nil]
    unfold Stage at hst
    split at hst
    · exact absurd hheld.1 (List.count_eq_zero.mp hst.2.1)
    · assumption
    · rcases hst.2.2.2 with ⟨-, hdrop, -⟩ | ⟨hreleased, -⟩
      · rw [hcalls] at hdrop
        exact absurd hdrop.symm (Multiset.singleton_ne_zero _)
      · have hpos : 0 < (s.view id).released := by omega
        exact absurd (List.count_pos_iff.mp hpos) hheld.2
  rcases ho.found id e he hstate with hq | ⟨c, hc, -⟩
  · have hin := hidle.2 id
    rw [(hi.queued_posted hq).1] at hin
    exact hin trivial
  · rw [hnil] at hc
    cases hc

def Lost (s : EventQueue) (id : ℕ) : Prop :=
  (∃ e, s.heap id = some e ∧ e.state = .inProgress) ∧ ¬ s.Found id

theorem lost_of_not_staysFound (hi : s.Inv) (h : s.Step a t) (hno : ¬ s.StaysFound a) :
    ∃ id, t.Lost id := by
  cases h with
  | @remove id e signalled he hp hdone =>
    obtain ⟨hstate, hcalls⟩ := Classical.not_imp.mp hno
    obtain ⟨d, hd, hstate⟩ := hasState_iff.mp hstate
    refine ⟨id, ⟨d, hd, hstate⟩, fun hfound => hcalls (hfound.resolve_left ?_)⟩
    exact fun hq => (hi.queue_nodup.mem_erase_iff.mp hq).1 rfl
  | @getEnd id copied hc =>
    cases copied with
    | false => exact absurd trivial hno
    | true =>
      obtain ⟨hcalls, e, he⟩ := hi.calls_eq id hc rfl
      have hstate := (hi.sound id e he).stage.inProgress hcalls (by simp)
      refine ⟨id, ⟨e, he, hstate⟩, ?_⟩
      rintro (hq | ⟨c, hmem, hcid⟩)
      · exact hno hq
      · exact hi.getEnd_calls hc c hmem hcid
  | _ => exact absurd trivial hno

theorem Step.mem_queue (h : s.Step a t) (hq : id ∈ t.queue) :
    id ∈ s.queue ∨ s.senders id = .allocated := by
  cases h with
  | post he hp =>
    rcases List.mem_append.mp hq with hold | hnew
    · exact .inl hold
    · exact .inr (List.mem_singleton.mp hnew ▸ hp)
  | remove he hp hdone => exact .inl (List.mem_of_mem_erase hq)
  | usimRelease hu hc => exact .inl ((foldl_completeOrphan_frame s.queue s).2.2.1 ▸ hq)
  | _ => exact .inl hq

/-- What is lost stays lost: PUT and close look on the queue only. -/
theorem Lost.step (hl : s.Lost id) (hi : s.Inv) (h : s.Step a t) : t.Lost id := by
  obtain ⟨⟨e, he, hstate⟩, hno⟩ := hl
  obtain ⟨hq, hcalls⟩ := not_or.mp hno
  have hcalls : ∀ c ∈ s.calls, c.event ≠ id := fun c hc hid => hcalls ⟨c, hc, hid⟩
  constructor
  · by_cases ha : a = .usimRelease
    · subst ha
      cases h with
      | usimRelease hu hc => exact ⟨e, by rw [release_heap, if_neg hq, he], hstate⟩
    · obtain ⟨e', he', -, hstate'⟩ := h.inProgress hi ha he hstate hcalls
      exact ⟨e', he', hstate'⟩
  · rintro (hq' | ⟨c, hc, hid⟩)
    · rcases h.mem_queue hq' with hold | hpost
      · exact hq hold
      · have hst := (hi.sound id e he).stage
        simp only [Stage, hstate] at hst
        exact hst.1.2 hpost
    · rcases h.mem_calls hc with hold | ⟨d, hd, hdc, -⟩ | ⟨-, j, hj, rfl⟩ | ⟨tk, j, -, hj, rfl⟩
      · exact hcalls c hold hid
      · exact hcalls d hd (hdc ▸ hid)
      · exact hq (hid ▸ List.mem_of_find?_eq_some hj)
      · exact hq (hid ▸ (lookup_ticket hj).1)

theorem Lost.live (hl : s.Lost id) (hi : s.Inv) : ∃ e, s.heap id = some e ∧ e.live = true := by
  obtain ⟨⟨e, he, hstate⟩, -⟩ := hl
  have hs := hi.sound id e he
  have hnonneg := (s.view id).sender.refs_nonneg
  have hst := hs.stage
  simp only [Stage, hstate] at hst
  refine ⟨e, he, ?_⟩
  rw [hs.live, decide_eq_true_eq]
  omega

/-- A run goes on from a lost event to states that all have it. -/
theorem Lost.exec {as : List UsimLabel} {u : EventQueue} (hl : s.Lost id) (hi : s.Inv)
    (h : simulator.execUnder PutKnown s as = some u) : u.Lost id ∧ u.Inv := by
  induction as generalizing s with
  | nil =>
    simp only [Machine.execUnder, Option.some.injEq] at h
    exact h ▸ ⟨hl, hi⟩
  | cons a as ih =>
    rw [Machine.execUnder] at h
    split at h
    · rename_i hok
      obtain ⟨t, ht, hu⟩ := Option.bind_eq_some_iff.mp h
      exact ih (hl.step hi (Step.of_step ht)) (keeps_step hi hok ht).1 hu
    · cases h

theorem reachable_owned
    (h : simulator.ReachableUnder (fun s a => PutKnown s a ∧ s.StaysFound a) s) :
    s.Inv ∧ s.Owned := by
  refine Machine.ReachableUnder.invariant (I := fun s => s.Inv ∧ s.Owned) ?_ ?_ h
  · rintro _ rfl
    exact ⟨⟨fun _ _ => rfl, nofun⟩, nofun, fun _ => rfl⟩
  · rintro s a t ⟨hi, ho⟩ ⟨hput, hok⟩ hs
    exact ⟨(keeps_step hi hput hs).1, ho.step hi hok (Step.of_step hs)⟩

end EventQueue

/-- In every run whose PUTs name known events and whose events in progress stay found, no event
remains once the device is closed and no sender is inside. A step after which an event is not found
leaves it allocated for ever. -/
theorem no_event_left (s : EventQueue) :
    (simulator.ReachableUnder (fun s a => PutKnown s a ∧ s.StaysFound a) s → s.Idle →
      s.NoneLeft) ∧
      ∀ a t as u, simulator.ReachableUnder PutKnown s → PutKnown s a → ¬ s.StaysFound a →
        simulator.step s a = some t →
        simulator.execUnder PutKnown t as = some u → ¬ u.NoneLeft := by
  constructor
  · intro hs hidle
    obtain ⟨hi, ho⟩ := EventQueue.reachable_owned hs
    exact ho.noneLeft hi hidle
  · intro a t as u hs hput hno hstep hexec hnone
    have hi := EventQueue.reachable_inv hs
    obtain ⟨id, hlost⟩ := EventQueue.lost_of_not_staysFound hi (EventQueue.Step.of_step hstep) hno
    obtain ⟨hu, hui⟩ := hlost.exec (EventQueue.keeps_step hi hput hstep).1 hexec
    obtain ⟨e, he, hlive⟩ := hu.live hui
    exact Bool.false_ne_true ((hnone id e he).symm.trans hlive)

/-- One sender is interrupted while its event is READY, another while its PUT is at work. -/
theorem no_event_left_two :
    ∃ s : EventQueue, s.Idle ∧ (s.heap 0).isSome ∧ (s.heap 1).isSome ∧ s.NoneLeft := by
  have hrun : ∃ s, simulator.execUnder (fun s a => PutKnown s a ∧ s.StaysFound a) .initial
      [.usimOpen, .alloc 0 ⟨.i2cWrite, 0, 0x20, 1, fun _ => 0⟩, .post 0, .remove 0 true, .leave 0,
        .alloc 1 ⟨.i2cWrite, 0, 0x20, 1, fun _ => 0⟩, .post 1, .getBegin, .getEnd 1 true,
        .putBegin 2, .putCopy 1 ⟨true, 0, 0, fun _ => 0⟩, .remove 1 true, .leave 1,
        .complete 1 none, .drop 1, .usimRelease] = some s ∧
      s.Idle ∧ (s.heap 0).isSome ∧ (s.heap 1).isSome := by
    refine ⟨_, rfl, ⟨rfl, fun id => ?_⟩, rfl, rfl⟩
    match id with
    | 0 => exact fun h => h
    | 1 => exact fun h => h
    | _ + 2 => exact fun h => h
  obtain ⟨s, hs, hidle, h0, h1⟩ := hrun
  exact ⟨s, hidle, h0, h1, (no_event_left s).1 (.of_execUnder (.start rfl) hs) hidle⟩

/-- A sender is interrupted after the simulator got its event; then the device closes. -/
theorem event_left : ¬ ∀ s, observedSimulator.ReachableUnder Observed.AsDocumented s → s.q.Idle →
    s.q.NoneLeft := by
  have hrun : ∃ s, observedSimulator.execUnder Observed.AsDocumented .initial
      [.usimOpen, .alloc 0 ⟨.i2cWrite, 0, 0x20, 1, fun _ => 0⟩, .post 0, .getBegin, .getEnd 0 true,
        .remove 0 true, .leave 0, .usimRelease] = some s ∧
      s.q.Idle ∧ ∃ e, s.q.heap 0 = some e ∧ e.live = true := by
    refine ⟨_, rfl, ⟨rfl, fun id => ?_⟩, _, rfl, rfl⟩
    match id with
    | 0 => exact fun h => h
    | _ + 1 => exact fun h => h
  obtain ⟨s, hs, hidle, e, he, hlive⟩ := hrun
  intro h
  have hnone := h s (.of_execUnder (.start rfl) hs) hidle
  exact Bool.false_ne_true ((hnone 0 e he).symm.trans hlive)

end BifrostModule.Usim
