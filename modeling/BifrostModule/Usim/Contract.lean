import BifrostModule.Usim.Line

/-! # The delivery contract of the simulator device

A simulator that only puts the tickets it was given gets the events in the order
of their posting, each at most once, also across a close and a reopen. Recorded
beside the queue: the order of the postings, what the GETs returned, the tickets
that are still to be put, and the ticket of the PUT that completed an event.
-/
namespace BifrostModule.Usim
open Foundation Foundation.InFlight

structure Observed where
  q : EventQueue
  allocated : ℕ
  posted : List ℕ
  returned : List ℕ
  unput : List (BitVec 32)
  putting : ℕ → Option (BitVec 32)
  completedBy : ℕ → Option (BitVec 32)

namespace Observed
variable (s : Observed)

def ticket (id : ℕ) : Option (BitVec 32) := (s.q.heap id).map Event.ticket

/-- What is recorded of a step to the queue `q`. The tickets to put are those of one opening. -/
def record (q : EventQueue) : UsimLabel → Observed
  | .alloc _ _ => { s with q := q, allocated := s.allocated + 1 }
  | .post id => { s with q := q, posted := s.posted ++ [id] }
  | .usimRelease => { s with q := q, unput := [] }
  | .getEnd id true =>
    { s with q := q, returned := s.returned ++ [id], unput := (s.ticket id).toList ++ s.unput }
  | .putBegin ticket =>
    { s with
      q := q
      unput := s.unput.erase ticket
      putting := (s.q.lookupEventWTicket ticket).elim s.putting fun id =>
        Function.update s.putting id (some ticket) }
  | .complete id none =>
    { s with q := q, completedBy := Function.update s.completedBy id (s.putting id) }
  | _ => { s with q := q }

def step (s : Observed) (a : UsimLabel) : Option Observed :=
  (s.q.step a).map fun q => s.record q a

def initial : Observed := ⟨.initial, 0, [], [], [], fun _ => none, fun _ => none⟩

/-- Fewer than 2^32 events are allocated, and each PUT names a ticket that a GET of this opening
returned and that was not put yet. -/
def AsDocumented (s : Observed) : UsimLabel → Prop
  | .alloc _ _ => s.allocated + 1 < 2 ^ 32
  | .putBegin ticket => ticket ∈ s.unput
  | _ => True

instance (s : Observed) : (a : UsimLabel) → Decidable (s.AsDocumented a)
  | .alloc _ _ => inferInstanceAs (Decidable (_ < _))
  | .putBegin ticket => inferInstanceAs (Decidable (ticket ∈ s.unput))
  | .post _ => .isTrue trivial
  | .remove _ _ => .isTrue trivial
  | .leave _ => .isTrue trivial
  | .usimOpen => .isTrue trivial
  | .usimRelease => .isTrue trivial
  | .getBegin => .isTrue trivial
  | .getEnd _ _ => .isTrue trivial
  | .putCopy _ _ => .isTrue trivial
  | .complete _ _ => .isTrue trivial
  | .drop _ => .isTrue trivial

end Observed

def observedSimulator : Machine Observed UsimLabel where
  start s := s = .initial
  step := Observed.step

namespace Observed
variable {s : Observed} {t : EventQueue} {a : UsimLabel}

@[simp] theorem record_q (s : Observed) (q : EventQueue) (a : UsimLabel) :
    (s.record q a).q = q := by
  cases a with
  | getEnd id copied => cases copied <;> rfl
  | complete id status => cases status <;> rfl
  | _ => rfl

/-- As long as fewer than 2^32 events are allocated, no two have the same ticket. -/
structure Tickets (s : Observed) : Prop where
  counter : s.q.counter.toNat = s.allocated
  bound : ∀ id e, s.q.heap id = some e → e.ticket.toNat ≤ s.allocated
  unique : ∀ id j e d, s.q.heap id = some e → s.q.heap j = some d → e.ticket = d.ticket → id = j

theorem Tickets.step (ht : s.Tickets) (hi : s.q.Inv) (hok : s.AsDocumented a) (h : s.q.Step a t) :
    (s.record t a).Tickets := by
  by_cases ha : ∃ id content, a = .alloc id content
  · obtain ⟨id, content, rfl⟩ := ha
    cases h with
    | alloc he =>
      have hlt : s.q.counter.toNat + 1 < 2 ^ 32 := ht.counter ▸ hok
      have hnext : (s.q.counter + 1).toNat = s.allocated + 1 := by
        rw [BitVec.toNat_add, ← ht.counter]
        exact Nat.mod_eq_of_lt hlt
      have hold : ∀ j d, j ≠ id → (s.q.alloc id content).heap j = some d → s.q.heap j = some d := by
        intro j d hj hd
        simpa [EventQueue.alloc, EventQueue.setEvent, hj] using hd
      have hnew : ∀ d, (s.q.alloc id content).heap id = some d →
        d.ticket.toNat = s.allocated + 1 := by
        intro d hd
        simp only [EventQueue.alloc, EventQueue.setEvent, Function.update_self,
          Option.some.injEq] at hd
        rw [← hd]
        exact hnext
      refine ⟨hnext, fun j d hd => ?_, fun i j d d' hd hd' heq => ?_⟩
      · by_cases hj : j = id
        · exact (hnew d (hj ▸ hd)).le
        · exact Nat.le_succ_of_le (ht.bound j d (hold j d hj hd))
      · by_cases hid : i = id
        · by_cases hj : j = id
          · exact hid.trans hj.symm
          · have h1 := hnew d (hid ▸ hd)
            have h2 := ht.bound j d' (hold j d' hj hd')
            rw [heq] at h1
            omega
        · by_cases hj : j = id
          · have h1 := hnew d' (hj ▸ hd')
            have h2 := ht.bound i d (hold i d hid hd)
            rw [heq] at h2
            omega
          · exact ht.unique i j d d' (hold i d hid hd) (hold j d' hj hd') heq
  · have hne : ∀ id content, a ≠ .alloc id content := fun id content he => ha ⟨id, content, he⟩
    have hcounter : t.counter = s.q.counter ∧ (s.record t a).allocated = s.allocated := by
      cases h with
      | @alloc id content he => exact absurd rfl (hne id content)
      | usimRelease hu hc => exact ⟨(EventQueue.foldl_completeOrphan_frame _ _).1, rfl⟩
      | @getEnd id copied hc => cases copied <;> exact ⟨rfl, rfl⟩
      | @complete id e status hc he => cases status <;> exact ⟨rfl, rfl⟩
      | _ => exact ⟨rfl, rfl⟩
    refine ⟨?_, fun j d hd => ?_, fun i j d d' hd hd' heq => ?_⟩
    · rw [record_q, hcounter.1, hcounter.2, ht.counter]
    · rw [record_q] at hd
      obtain ⟨e, he, hf⟩ := h.back hi (hne _) hd
      rw [hcounter.2, hf.ticket]
      exact ht.bound j e he
    · rw [record_q] at hd hd'
      obtain ⟨e, he, hf⟩ := h.back hi (hne _) hd
      obtain ⟨e', he', hf'⟩ := h.back hi (hne _) hd'
      exact ht.unique i j e e' he he' (hf.ticket.symm.trans (heq.trans hf'.ticket))

structure Ordered (s : Observed) : Prop where
  posted : ∀ id, id ∈ s.posted ↔ (s.q.senders id).HasPosted
  nodup : s.posted.Nodup
  sublist : s.q.queue.Sublist s.posted

/-- A sender that stays on its side of the posting. -/
theorem Ordered.sender (ho : s.Ordered) {u : Observed} (id : ℕ) {p : Sender}
    (hposted : u.posted = s.posted) (hsenders : u.q.senders = Function.update s.q.senders id p)
    (hp : (s.q.senders id).HasPosted ↔ p.HasPosted) (hqueue : u.q.queue.Sublist s.q.queue) :
    u.Ordered where
  posted := fun j => by
    rw [hposted, ho.posted, hsenders]
    by_cases hj : j = id
    · rw [hj, Function.update_self, hp]
    · rw [Function.update_of_ne hj]
  nodup := hposted ▸ ho.nodup
  sublist := hposted ▸ hqueue.trans ho.sublist

theorem Ordered.step (ho : s.Ordered) (hi : s.q.Inv) (h : s.q.Step a t) :
    (s.record t a).Ordered := by
  cases h with
  | @alloc id content he =>
    have hout : s.q.senders id = .outside := congrArg View.sender (hi.absent id he)
    exact ho.sender id rfl rfl (by simp [hout, Sender.HasPosted]) (List.Sublist.refl _)
  | @post id e he hp =>
    have hnot : id ∉ s.posted := fun hm => ((ho.posted id).mp hm).2 hp
    refine ⟨fun j => ?_, ?_, ?_⟩
    · change j ∈ s.posted ++ [id] ↔ (Function.update s.q.senders id Sender.posted j).HasPosted
      rw [List.mem_append, List.mem_singleton, ho.posted]
      by_cases hj : j = id
      · simp [hj, Sender.HasPosted]
      · simp [hj]
    · exact List.nodup_append.mpr ⟨ho.nodup, List.nodup_singleton id, by
        simpa using fun j hj (h : j = id) => hnot (h ▸ hj)⟩
    · exact ho.sublist.append (List.Sublist.refl [id])
  | @remove id e signalled he hp hdone =>
    exact ho.sender id rfl rfl (by simp [hp, Sender.HasPosted]) List.erase_sublist
  | @leave id e signalled he hp =>
    exact ho.sender id rfl rfl (by simp [hp, Sender.HasPosted]) (List.Sublist.refl _)
  | usimRelease hu hc =>
    obtain ⟨-, hsenders, hqueue, -⟩ := EventQueue.foldl_completeOrphan_frame s.q.queue s.q
    refine ⟨fun j => (ho.posted j).trans ?_, ho.nodup, ?_⟩
    · exact iff_of_eq (congrArg (fun f => Sender.HasPosted (f j)) hsenders.symm)
    · exact (hqueue ▸ ho.sublist :
      ((s.q.queue.foldl EventQueue.completeOrphan s.q).queue).Sublist _)
  | @getEnd id copied hc => cases copied <;> exact ⟨ho.posted, ho.nodup, ho.sublist⟩
  | @complete id e status hc he => cases status <;> exact ⟨ho.posted, ho.nodup, ho.sublist⟩
  | _ => exact ⟨ho.posted, ho.nodup, ho.sublist⟩

/-- The tickets to put belong to different events in progress with no ioctl at work on them. -/
structure Known (s : Observed) : Prop where
  nodup : s.unput.Nodup
  inProgress : ∀ ticket ∈ s.unput, ∃ id e, s.q.heap id = some e ∧ e.ticket = ticket ∧
    e.state = .inProgress ∧ ∀ c ∈ s.q.calls, c.event ≠ id

/-- The documented use of PUT is one that the lifetime of the events relies on. -/
theorem Known.putKnown (hk : s.Known) (ht : s.Tickets) (hok : s.AsDocumented a) :
    PutKnown s.q a := by
  cases a with
  | putBegin ticket =>
    intro id hid
    obtain ⟨-, d, hd, hticket⟩ := EventQueue.lookup_ticket hid
    obtain ⟨j, e, he, hje, hstate, hno⟩ := hk.inProgress ticket hok
    obtain rfl := ht.unique j id e d he hd (hje.trans hticket.symm)
    exact ⟨EventQueue.hasState_iff.mpr ⟨e, he, hstate⟩, hno⟩
  | _ => trivial

/-- What stays to be put is known as before. -/
theorem Known.stays (hk : s.Known) (hi : s.q.Inv) (h : s.q.Step a t) (ha : a ≠ .usimRelease)
    (ticket : BitVec 32) (hticket : ticket ∈ s.unput) (hne : a ≠ .putBegin ticket) :
    ∃ id e, t.heap id = some e ∧ e.ticket = ticket ∧ e.state = .inProgress ∧
      ∀ c ∈ t.calls, c.event ≠ id := by
  obtain ⟨id, e, he, rfl, hstate, hno⟩ := hk.inProgress ticket hticket
  obtain ⟨e', he', hsame, hstate'⟩ := h.inProgress hi ha he hstate hno
  refine ⟨id, e', he', hsame, hstate', fun c hc => ?_⟩
  rcases h.mem_calls hc with hold | ⟨d, hd, heq, -⟩ | ⟨-, j, hj, rfl⟩ | ⟨tk, j, rfl, hj, rfl⟩
  · exact hno c hold
  · exact heq ▸ hno d hd
  · rintro rfl
    obtain ⟨d, hd, hready⟩ := EventQueue.hasState_iff.mp (List.find?_some hj)
    obtain rfl := Option.some.inj (he.symm.trans hd)
    cases hstate.symm.trans hready
  · rintro rfl
    obtain ⟨-, d, hd, htk⟩ := EventQueue.lookup_ticket hj
    obtain rfl := Option.some.inj (he.symm.trans hd)
    exact hne (htk ▸ rfl)

theorem Known.step (hk : s.Known) (ht : s.Tickets) (hi : s.q.Inv) (h : s.q.Step a t) :
    (s.record t a).Known := by
  have hstays := hk.stays hi h
  cases h with
  | usimRelease hu hc => exact ⟨List.nodup_nil, nofun⟩
  | @getEnd id copied hc =>
    cases copied with
    | false => exact ⟨hk.nodup, fun tk htk => hstays (by simp) tk htk (by simp)⟩
    | true =>
      obtain ⟨hcalls, e, he⟩ := hi.calls_eq id hc rfl
      have hstate := (hi.sound id e he).stage.inProgress hcalls (by simp)
      have hunput : (s.record { s.q with calls := replace s.q.calls (.getting id) [] }
          (.getEnd id true)).unput = e.ticket :: s.unput := by
        simp [record, ticket, he]
      refine ⟨?_, fun tk htk => ?_⟩
      · rw [if_pos rfl, hunput]
        refine List.nodup_cons.mpr ⟨fun hmem => ?_, hk.nodup⟩
        obtain ⟨j, d, hd, hticket, -, hno⟩ := hk.inProgress _ hmem
        exact hno _ hc (ht.unique id j e d he hd hticket.symm)
      · rw [if_pos rfl, hunput] at htk
        rcases List.mem_cons.mp htk with rfl | htk
        · exact ⟨id, e, he, rfl, hstate, hi.getEnd_calls hc⟩
        · exact hstays (by simp) tk htk (by simp)
  | @putNone ticket hu hid =>
    refine ⟨hk.nodup.erase ticket, fun tk htk => ?_⟩
    obtain ⟨hne, hmem⟩ := hk.nodup.mem_erase_iff.mp htk
    exact hstays (by simp) tk hmem (by simpa using Ne.symm hne)
  | @putBegin ticket id hu hid =>
    refine ⟨hk.nodup.erase ticket, fun tk htk => ?_⟩
    obtain ⟨hne, hmem⟩ := hk.nodup.mem_erase_iff.mp htk
    exact hstays (by simp) tk hmem (by simpa using Ne.symm hne)
  | @complete id e status hc he =>
    cases status <;> exact ⟨hk.nodup, fun tk htk => hstays (by simp) tk htk (by simp)⟩
  | _ => exact ⟨hk.nodup, fun tk htk => hstays (by simp) tk htk (by simp)⟩

/-- What a GET has returned was taken, and no GET is at work on it any more. -/
structure Returned (s : Observed) : Prop where
  nodup : s.returned.Nodup
  taken : ∀ id ∈ s.returned, id ∈ s.q.taken ∧ .getting id ∉ s.q.calls

theorem record_returned (s : Observed) (q : EventQueue) (a : UsimLabel) :
    (s.record q a).returned = s.returned ∨
      ∃ id, a = .getEnd id true ∧ (s.record q a).returned = s.returned ++ [id] := by
  cases a with
  | getEnd id copied =>
    cases copied with
    | true => exact .inr ⟨id, rfl, rfl⟩
    | false => exact .inl rfl
  | complete id status => cases status <;> exact .inl rfl
  | _ => exact .inl rfl

theorem getEnd_calls {id : ℕ} {copied : Bool} (h : s.q.Step (.getEnd id copied) t) :
    .getting id ∈ s.q.calls := by
  cases h
  assumption

theorem Returned.step (hr : s.Returned) (hi : s.q.Inv) (h : s.q.Step a t) :
    (s.record t a).Returned := by
  have hkept : ∀ id ∈ s.returned, id ∈ t.taken ∧ .getting id ∉ t.calls := by
    intro id hid
    obtain ⟨htaken, hno⟩ := hr.taken id hid
    refine ⟨h.mem_taken htaken, fun hc => ?_⟩
    rcases h.mem_calls hc with hold | ⟨d, -, -, hne⟩ | ⟨-, j, hj, heq⟩ | ⟨tk, j, -, -, heq⟩
    · exact hno hold
    · exact hne id rfl
    · obtain rfl := UsimCall.getting.inj heq
      exact (hi.ready_idle (List.find?_some hj)).1 htaken
    · cases heq
  rcases record_returned s t a with hsame | ⟨id, rfl, hnew⟩
  · exact ⟨hsame ▸ hr.nodup, by rw [hsame, record_q]; exact hkept⟩
  · have hc := getEnd_calls h
    have hnot : id ∉ s.returned := fun hm => (hr.taken id hm).2 hc
    refine ⟨?_, fun j hj => ?_⟩
    · rw [hnew]
      exact List.nodup_append.mpr ⟨hr.nodup, List.nodup_singleton id, by
        simpa using fun j hj (h : j = id) => hnot (h ▸ hj)⟩
    · rw [hnew] at hj
      rw [record_q]
      rcases List.mem_append.mp hj with hj | hj
      · exact hkept j hj
      · obtain rfl := List.mem_singleton.mp hj
        refine ⟨h.mem_taken (hi.call_taken hc), fun hm => ?_⟩
        cases h with
        | getEnd _ => exact hi.getEnd_calls hc _ hm rfl

/-- With the device closed no ioctl is in flight, and nothing on the queue is in progress. -/
def Closed (s : Observed) : Prop :=
  s.q.users = false →
    s.q.calls = [] ∧ ∀ id ∈ s.q.queue, s.q.HasState .inProgress id = false

theorem Closed.step (hc : s.Closed) (hi : s.q.Inv) (h : s.q.Step a t) :
    (s.record t a).Closed := by
  have hopen : ∀ {c : UsimCall}, c ∈ s.q.calls → s.q.users = true := by
    intro c hmem
    by_contra hu
    rw [(hc (by simpa using hu)).1] at hmem
    cases hmem
  intro hu
  rw [record_q] at hu ⊢
  cases h with
  | @alloc id content he =>
    obtain ⟨hnil, hstates⟩ := hc hu
    refine ⟨hnil, fun j hj => ?_⟩
    obtain ⟨-, d, hd⟩ := hi.queued_posted hj
    rw [EventQueue.hasState_update (t := s.q.alloc id content) rfl, if_neg]
    · exact hstates j hj
    · rintro rfl
      cases he.symm.trans hd
  | @post id e he hp =>
    obtain ⟨hnil, hstates⟩ := hc hu
    refine ⟨hnil, fun j hj => ?_⟩
    rw [EventQueue.hasState_update (t := s.q.postEvent id e) rfl]
    split
    · rfl
    · rename_i hne
      exact hstates j ((List.mem_append.mp hj).resolve_right (by simpa using hne))
  | remove he hp hdone =>
    obtain ⟨hnil, hstates⟩ := hc hu
    exact ⟨hnil, fun j hj => hstates j (List.mem_of_mem_erase hj)⟩
  | @leave id e signalled he hp =>
    obtain ⟨hnil, hstates⟩ := hc hu
    refine ⟨hnil, fun j hj => ?_⟩
    have hne : j ≠ id := by
      rintro rfl
      cases hp.symm.trans (hi.queued_posted hj).1
    rw [EventQueue.hasState_update (t := s.q.leave id e signalled) rfl, if_neg hne]
    exact hstates j hj
  | usimOpen => cases hu
  | usimRelease _ hnil =>
    obtain ⟨-, -, hqueue, hcalls, -⟩ := EventQueue.foldl_completeOrphan_frame s.q.queue s.q
    refine ⟨hcalls.trans hnil, fun j hj => ?_⟩
    rw [EventQueue.HasState, EventQueue.release_heap, if_pos (hqueue ▸ hj)]
    cases s.q.heap j with
    | none => rfl
    | some e => simp [EventQueue.orphaned_state]
  | getNone hu' hid => exact absurd hu (by simp [hu'])
  | getBegin hu' hid he => exact absurd hu (by simp [EventQueue.getReady, EventQueue.setEvent, hu'])
  | getEnd hmem => exact absurd hu (by simp [hopen hmem])
  | putNone hu' hid => exact absurd hu (by simp [hu'])
  | putBegin hu' hid => exact absurd hu (by simp [hu'])
  | putCopy hmem he => exact absurd hu (by simp [EventQueue.setEvent, hopen hmem])
  | complete hmem he =>
    exact absurd hu (by simp [EventQueue.completeEvent, EventQueue.setEvent, hopen hmem])
  | drop hmem he =>
    exact absurd hu (by simp [EventQueue.dropEvent, EventQueue.setEvent, hopen hmem])

/-- A completion with status 0 is that of the PUT which named the ticket of the event, and a sender
that returns success has seen it. -/
structure Completion (s : Observed) : Prop where
  putting : ∀ id, s.q.PutAtWork id → ∃ e, s.q.heap id = some e ∧ s.putting id = some e.ticket
  done : ∀ id e, s.q.heap id = some e → e.state = .done → e.status = none →
    s.completedBy id = some e.ticket
  removed : ∀ id, s.q.senders id = .removed false → ∃ e, s.q.heap id = some e ∧ e.state = .done
  gone : ∀ id, s.q.senders id = .gone (.ok ()) →
    ∃ e, s.q.heap id = some e ∧ e.state = .done ∧ e.status = none

theorem record_putting (s : Observed) (t : EventQueue) (a : UsimLabel) (id : ℕ) :
    (∃ ticket, a = .putBegin ticket ∧ s.q.lookupEventWTicket ticket = some id ∧
        (s.record t a).putting id = some ticket) ∨
      (∀ ticket, a = .putBegin ticket → s.q.lookupEventWTicket ticket ≠ some id) ∧
        (s.record t a).putting id = s.putting id := by
  cases a with
  | putBegin ticket =>
    by_cases hid : s.q.lookupEventWTicket ticket = some id
    · exact .inl ⟨ticket, rfl, hid, by simp [record, hid]⟩
    · refine .inr ⟨fun tk htk => UsimLabel.putBegin.inj htk ▸ hid, ?_⟩
      cases hj : s.q.lookupEventWTicket ticket with
      | none => simp [record, hj]
      | some j =>
        have hne : id ≠ j := fun h => hid (h ▸ hj)
        simp [record, hj, hne]
  | getEnd j copied => cases copied <;> exact .inr ⟨nofun, rfl⟩
  | complete j status => cases status <;> exact .inr ⟨nofun, rfl⟩
  | _ => exact .inr ⟨nofun, rfl⟩

theorem record_completedBy (s : Observed) (t : EventQueue) (a : UsimLabel) (id : ℕ) :
    a = .complete id none ∧ (s.record t a).completedBy id = s.putting id ∨
      a ≠ .complete id none ∧ (s.record t a).completedBy id = s.completedBy id := by
  cases a with
  | getEnd j copied => cases copied <;> exact .inr ⟨nofun, rfl⟩
  | complete j status =>
    cases status with
    | none =>
      by_cases hj : id = j
      · exact .inl ⟨hj ▸ rfl, by simp [record, hj]⟩
      · exact .inr ⟨by simpa using Ne.symm hj, by simp [record, hj]⟩
    | some err => exact .inr ⟨by simp, rfl⟩
  | _ => exact .inr ⟨nofun, rfl⟩

theorem waitResult_ok {e : Event} {signalled : Bool}
    (h : EventQueue.waitResult e signalled = .ok ()) : e.status = none ∧ signalled = false := by
  unfold EventQueue.waitResult at h
  split at h
  · cases h
  · rename_i hstatus
    cases signalled with
    | true => cases h
    | false => exact ⟨hstatus, rfl⟩

theorem complete_calls {id : ℕ} {status : Option Errno} (h : s.q.Step (.complete id status) t) :
    .completing id status ∈ s.q.calls := by
  cases h
  assumption

theorem Completion.putting_step (hk : s.Completion) (hi : s.q.Inv) (h : s.q.Step a t) {id : ℕ}
    (hc : t.PutAtWork id) :
    ∃ e, t.heap id = some e ∧ (s.record t a).putting id = some e.ticket := by
  rcases record_putting s t a id with ⟨ticket, rfl, hid, hput⟩ | ⟨hno, hput⟩
  · obtain ⟨-, e, he, hticket⟩ := EventQueue.lookup_ticket hid
    obtain ⟨e', he', hf⟩ := h.follow hi id e he
    exact ⟨e', he', by rw [hput, hf.ticket, hticket]⟩
  · have hold : s.q.PutAtWork id := (h.putAtWork hc).resolve_right fun ⟨ticket, ha, hid⟩ =>
      hno ticket ha hid
    obtain ⟨e, he, hticket⟩ := hk.putting id hold
    obtain ⟨e', he', hf⟩ := h.follow hi id e he
    exact ⟨e', he', by rw [hput, hf.ticket, hticket]⟩

theorem Completion.done_step (hk : s.Completion) (hi : s.q.Inv) (h : s.q.Step a t) {id : ℕ}
    {e' : Event} (he' : t.heap id = some e') (hdone : e'.state = .done)
    (hstatus : e'.status = none) :
    (s.record t a).completedBy id = some e'.ticket := by
  have hfollow : ∀ e, s.q.heap id = some e → EventQueue.Follows e e' := fun e he => by
    obtain ⟨d, hd, hf⟩ := h.follow hi id e he
    exact Option.some.inj (hd.symm.trans he') ▸ hf
  rcases record_completedBy s t a id with ⟨rfl, hby⟩ | ⟨hne, hby⟩
  · obtain ⟨e, he, hput⟩ := hk.putting id (.inr (complete_calls h))
    rw [hby, (hfollow e he).ticket, hput]
  · rcases h.done he' hdone with ⟨e, he, hold⟩ | ⟨ha, -⟩ | ⟨-, heio⟩
    · rw [hby, (hfollow e he).ticket]
      exact hk.done id e he hold (((hfollow e he).done hold).2 ▸ hstatus)
    · exact absurd (hstatus ▸ ha) hne
    · cases hstatus.symm.trans heio

theorem Completion.step (hk : s.Completion) (hi : s.q.Inv) (h : s.q.Step a t) :
    (s.record t a).Completion where
  putting := fun id hc => by
    rw [record_q] at hc ⊢
    exact hk.putting_step hi h hc
  done := fun id e' he' hdone hstatus => by
    rw [record_q] at he'
    exact hk.done_step hi h he' hdone hstatus
  removed := fun id hp => by
    rw [record_q] at hp ⊢
    exact h.removed_done hi id (hk.removed id) hp
  gone := fun id hp => by
    rw [record_q] at hp ⊢
    have hdone : ∃ e, s.q.heap id = some e ∧ e.state = .done ∧ e.status = none := by
      rcases h.sender id with hsame | hnew | hnew | ⟨e, signalled, he, hdone, hnew⟩ |
        ⟨e, signalled, he, hold, hnew⟩
      · exact hk.gone id (hsame ▸ hp)
      · cases hnew.symm.trans hp
      · cases hnew.symm.trans hp
      · cases hnew.symm.trans hp
      · obtain ⟨hstatus, rfl⟩ := waitResult_ok (Sender.gone.inj (hnew.symm.trans hp))
        obtain ⟨d, hd, hdone⟩ := hk.removed id hold
        obtain rfl := Option.some.inj (he.symm.trans hd)
        exact ⟨e, he, hdone, hstatus⟩
    obtain ⟨e, he, hdone, hstatus⟩ := hdone
    obtain ⟨e', he', hf⟩ := h.follow hi id e he
    exact ⟨e', he', (hf.done hdone).1, (hf.done hdone).2.trans hstatus⟩

structure Inv (s : Observed) : Prop where
  queue : s.q.Inv
  tickets : s.Tickets
  ordered : s.Ordered
  known : s.Known
  returned : s.Returned
  closed : s.Closed
  completion : s.Completion

theorem inv_initial : initial.Inv := by
  have hheap : ∀ id e, initial.q.heap id ≠ some e := fun id e h => Option.some_ne_none e h.symm
  have hout : ∀ id, initial.q.senders id = .outside := fun id => rfl
  have hcalls : ∀ c, c ∉ initial.q.calls := fun c => List.not_mem_nil
  exact {
    queue := ⟨fun _ _ => rfl, fun id e h => absurd h (hheap id e)⟩
    tickets := ⟨rfl, fun id e h => absurd h (hheap id e), fun id _ e _ h => absurd h (hheap id e)⟩
    ordered := ⟨fun id => ⟨fun h => absurd h List.not_mem_nil, fun h => absurd (hout id) h.1⟩,
      List.nodup_nil, List.Sublist.refl _⟩
    known := ⟨List.nodup_nil, fun _ h => absurd h List.not_mem_nil⟩
    returned := ⟨List.nodup_nil, fun _ h => absurd h List.not_mem_nil⟩
    closed := fun _ => ⟨rfl, fun _ h => absurd h List.not_mem_nil⟩
    completion := ⟨fun id h => (h.elim (hcalls _) (hcalls _)).elim,
      fun id e h => absurd h (hheap id e), fun id h => (nomatch (hout id).symm.trans h),
      fun id h => (nomatch (hout id).symm.trans h)⟩ }

theorem Inv.step {u : Observed} (hi : s.Inv) (hok : s.AsDocumented a) (h : s.step a = some u) :
    u.Inv := by
  obtain ⟨t, ht, rfl⟩ := Option.map_eq_some_iff.mp h
  have hs := EventQueue.Step.of_step ht
  have hput := hi.known.putKnown hi.tickets hok
  exact {
    queue := by
      rw [record_q]
      exact (EventQueue.keeps_step hi.queue hput ht).1
    tickets := hi.tickets.step hi.queue hok hs
    ordered := hi.ordered.step hi.queue hs
    known := hi.known.step hi.tickets hi.queue hs
    returned := hi.returned.step hi.queue hs
    closed := hi.closed.step hi.queue hs
    completion := hi.completion.step hi.queue hs }

theorem reachable_inv (h : observedSimulator.ReachableUnder AsDocumented s) : s.Inv := by
  refine Machine.ReachableUnder.invariant (I := Inv) ?_ (fun _ _ _ hi hok hs => hi.step hok hs) h
  rintro _ rfl
  exact inv_initial

/-- Along a run, the READY events and the events taken are what the waiting line makes of them. -/
theorem exec_line {as : List UsimLabel} {u : Observed} (hi : s.Inv)
    (h : observedSimulator.execUnder AsDocumented s as = some u) :
    u.q.readys = (as.filterMap EventQueue.move).foldl WaitingLine.act s.q.readys ∧
      u.q.taken = s.q.taken ++ WaitingLine.served s.q.readys (as.filterMap EventQueue.move) := by
  induction as generalizing s with
  | nil =>
    simp only [Machine.execUnder, Option.some.injEq] at h
    subst h
    exact ⟨rfl, (List.append_nil _).symm⟩
  | cons a as ih =>
    rw [Machine.execUnder] at h
    obtain ⟨hok, h⟩ := Option.ite_none_right_eq_some.mp h
    obtain ⟨v, hv, hu⟩ := Option.bind_eq_some_iff.mp h
    obtain ⟨hreadys, htaken⟩ := ih (hi.step hok hv) hu
    obtain ⟨t, ht, rfl⟩ := Option.map_eq_some_iff.mp hv
    have hs := EventQueue.Step.of_step ht
    rw [record_q, hs.readys hi.queue] at hreadys htaken
    rw [hs.taken] at htaken
    cases hm : EventQueue.move a with
    | none =>
      rw [hm] at hreadys htaken
      rw [List.filterMap_cons_none hm]
      exact ⟨hreadys, htaken.trans (by simp [WaitingLine.served])⟩
    | some m =>
      rw [hm] at hreadys htaken
      rw [List.filterMap_cons_some hm, WaitingLine.served_cons]
      exact ⟨hreadys, htaken.trans (List.append_assoc _ _ _)⟩

theorem getting_stays {id : ℕ} (h : s.q.Step a t) (ha : ∀ copied, a ≠ .getEnd id copied)
    (hc : .getting id ∈ s.q.calls) : .getting id ∈ t.calls := by
  have hpool : ∀ {c : UsimCall} {new : List UsimCall}, c ≠ .getting id →
      .getting id ∈ replace s.q.calls c new := fun hne =>
    List.mem_append_right _ ((List.mem_erase_of_ne (Ne.symm hne)).mpr hc)
  cases h with
  | usimRelease hu hnil =>
    rw [hnil] at hc
    cases hc
  | getBegin hu hid he => exact List.mem_cons_of_mem _ hc
  | @getEnd j copied hc' => exact hpool fun heq => ha copied (UsimCall.getting.inj heq ▸ rfl)
  | putBegin hu hid => exact List.mem_cons_of_mem _ hc
  | putCopy hc' he => exact hpool nofun
  | complete hc' he => exact hpool nofun
  | drop hc' he => exact hpool nofun
  | _ => exact hc

/-- What a GET has taken it returns, unless the copy to the simulator fails. -/
theorem returned_step {id : ℕ} (h : s.q.Step a t) (ha : a ≠ .getEnd id false)
    (hret : id ∈ s.q.taken → id ∈ s.returned ∨ .getting id ∈ s.q.calls) (hid : id ∈ t.taken) :
    id ∈ (s.record t a).returned ∨ .getting id ∈ t.calls := by
  have hmono : id ∈ s.returned → id ∈ (s.record t a).returned := by
    intro hm
    rcases record_returned s t a with hsame | ⟨j, rfl, hnew⟩
    · exact hsame ▸ hm
    · exact hnew ▸ List.mem_append_left _ hm
  have hold : id ∈ s.q.taken → id ∈ (s.record t a).returned ∨ .getting id ∈ t.calls := by
    intro hm
    rcases hret hm with hm | hc
    · exact .inl (hmono hm)
    · by_cases hend : a = .getEnd id true
      · subst hend
        exact .inl (List.mem_append_right _ (List.mem_singleton_self id))
      · exact .inr (getting_stays h (fun copied => by cases copied <;> assumption) hc)
  by_cases hget : a = .getBegin
  · subst hget
    cases h with
    | getNone hu hfirst => exact hold hid
    | getBegin hu hfirst he =>
      rcases List.mem_append.mp hid with hm | hm
      · exact hold hm
      · exact .inr (List.mem_singleton.mp hm ▸ List.mem_cons_self)
  · exact hold (h.taken_eq hget ▸ hid)

theorem exec_returned {as : List UsimLabel} {u : Observed} {id : ℕ} (hi : s.Inv)
    (h : observedSimulator.execUnder AsDocumented s as = some u) (hno : .getEnd id false ∉ as)
    (hret : id ∈ s.q.taken → id ∈ s.returned ∨ .getting id ∈ s.q.calls) (hid : id ∈ u.q.taken) :
    id ∈ u.returned ∨ .getting id ∈ u.q.calls := by
  induction as generalizing s with
  | nil =>
    simp only [Machine.execUnder, Option.some.injEq] at h
    subst h
    exact hret hid
  | cons a as ih =>
    rw [Machine.execUnder] at h
    obtain ⟨hok, h⟩ := Option.ite_none_right_eq_some.mp h
    obtain ⟨v, hv, hu⟩ := Option.bind_eq_some_iff.mp h
    obtain ⟨ha, has⟩ := not_or.mp (mt List.mem_cons.mpr hno)
    refine ih (hi.step hok hv) hu has fun hmem => ?_
    obtain ⟨t, ht, rfl⟩ := Option.map_eq_some_iff.mp hv
    rw [record_q] at hmem ⊢
    exact returned_step (EventQueue.Step.of_step ht) (Ne.symm ha) hret hmem

end Observed

def UsimLabel.isGet : UsimLabel → Bool
  | .getBegin => true
  | _ => false

theorem count_serve (as : List UsimLabel) :
    (as.filterMap EventQueue.move).count .serve = as.countP UsimLabel.isGet := by
  rw [List.count, List.countP_filterMap]
  refine List.countP_congr fun a _ => ?_
  cases a with
  | remove id signalled => cases signalled <;> simp [EventQueue.move, UsimLabel.isGet]
  | _ => simp [EventQueue.move, UsimLabel.isGet]

theorem withdraw_mem {as : List UsimLabel} {id : ℕ} (h : .remove id true ∉ as) :
    .withdraw id ∉ as.filterMap EventQueue.move := by
  intro hm
  obtain ⟨a, ha, hmove⟩ := List.mem_filterMap.mp hm
  cases a with
  | remove j signalled =>
    cases signalled with
    | true =>
      obtain rfl := WaitingLine.Move.withdraw.inj (Option.some.inj hmove)
      exact h ha
    | false => cases hmove
  | _ => cases hmove

open Observed in
structure Contract (s : Observed) : Prop where
  /-- A GET takes the READY event on the queue that was posted first. -/
  get : ∀ u, s.step .getBegin = some u →
    (∀ id ∈ s.q.queue, s.q.HasState .ready id = false) ∧ u = s ∨
    ∃ id ∈ s.q.queue, s.q.HasState .ready id = true ∧
      (∀ j ∈ s.q.queue, s.q.HasState .ready j = true → s.posted.idxOf id ≤ s.posted.idxOf j) ∧
      u.q.calls = .getting id :: s.q.calls
  once : s.returned.Nodup
  /-- A close leaves the READY events on the queue and completes those in progress. -/
  close : ∀ u, s.step .usimRelease = some u → u.q.queue = s.q.queue ∧ ∀ id ∈ s.q.queue,
    (s.q.HasState .ready id = true → u.q.HasState .ready id = true) ∧
    (s.q.HasState .inProgress id = true →
      ∃ e, u.q.heap id = some e ∧ e.state = .done ∧ e.status = some Errno.EIO)
  /-- Whatever is closed and reopened, a READY event whose sender waits on stays READY and queued
  until enough GETs have been made, one of which then returns it. -/
  reopen : ∀ as u id, observedSimulator.execUnder AsDocumented s as = some u →
    id ∈ s.q.queue → s.q.HasState .ready id = true →
    .remove id true ∉ as → .getEnd id false ∉ as →
    (id ∈ u.q.queue ∧ u.q.HasState .ready id = true ∨ id ∈ u.returned ∨ .getting id ∈ u.q.calls) ∧
    (s.q.readys.idxOf id < as.countP UsimLabel.isGet → id ∈ u.returned ∨ .getting id ∈ u.q.calls)
  closed : s.q.users = false → ∀ id ∈ s.q.queue, s.q.HasState .inProgress id = false
  /-- A sender that returns success was completed by the PUT of the ticket of its event alone. -/
  success : ∀ id, s.q.senders id = .gone (.ok ()) → ∃ e, s.q.heap id = some e ∧
    s.completedBy id = some e.ticket ∧
    ∀ j d, s.q.heap j = some d → d.ticket = e.ticket → j = id

namespace Observed
variable {s u : Observed}

theorem Ordered.first (ho : s.Ordered) {id j : ℕ} {rest : List ℕ} (h : s.q.readys = id :: rest)
    (hj : j ∈ s.q.readys) : s.posted.idxOf id ≤ s.posted.idxOf j := by
  have hpairwise : s.posted.Pairwise fun a b => s.posted.idxOf a < s.posted.idxOf b := by
    rw [List.pairwise_iff_getElem]
    intro i k hi hk hik
    rwa [ho.nodup.idxOf_getElem, ho.nodup.idxOf_getElem]
  have hline : s.q.readys.Sublist s.posted := List.filter_sublist.trans ho.sublist
  have hsorted := hpairwise.sublist hline
  rw [h] at hsorted hj
  rcases List.mem_cons.mp hj with rfl | hj
  · exact le_rfl
  · exact ((List.pairwise_cons.mp hsorted).1 j hj).le

theorem Inv.get (hi : s.Inv) (h : s.step .getBegin = some u) :
    (∀ id ∈ s.q.queue, s.q.HasState .ready id = false) ∧ u = s ∨
    ∃ id ∈ s.q.queue, s.q.HasState .ready id = true ∧
      (∀ j ∈ s.q.queue, s.q.HasState .ready j = true → s.posted.idxOf id ≤ s.posted.idxOf j) ∧
      u.q.calls = .getting id :: s.q.calls := by
  obtain ⟨t, ht, rfl⟩ := Option.map_eq_some_iff.mp h
  cases EventQueue.Step.of_step ht with
  | getNone hu hid =>
    refine .inl ⟨fun id hq => ?_, rfl⟩
    simpa using List.find?_eq_none.mp hid id hq
  | @getBegin id e hu hid he =>
    obtain ⟨rest, hrest⟩ := EventQueue.readys_of_firstReady hid
    refine .inr ⟨id, List.mem_of_find?_eq_some hid, List.find?_some hid, fun j hj hready => ?_, rfl⟩
    exact hi.ordered.first hrest (List.mem_filter.mpr ⟨hj, hready⟩)

theorem close (h : s.step .usimRelease = some u) : u.q.queue = s.q.queue ∧ ∀ id ∈ s.q.queue,
    (s.q.HasState .ready id = true → u.q.HasState .ready id = true) ∧
    (s.q.HasState .inProgress id = true →
      ∃ e, u.q.heap id = some e ∧ e.state = .done ∧ e.status = some Errno.EIO) := by
  obtain ⟨t, ht, rfl⟩ := Option.map_eq_some_iff.mp h
  cases EventQueue.Step.of_step ht with
  | usimRelease hu hc =>
    rw [record_q]
    refine ⟨(EventQueue.foldl_completeOrphan_frame s.q.queue s.q).2.2.1, fun id hq => ?_⟩
    have hheap := EventQueue.release_heap s.q id
    rw [if_pos hq] at hheap
    refine ⟨fun hready => ?_, fun hprogress => ?_⟩
    · obtain ⟨e, he, hstate⟩ := EventQueue.hasState_iff.mp hready
      rw [he] at hheap
      exact EventQueue.hasState_iff.mpr ⟨_, hheap, (EventQueue.orphaned_ready e).mpr hstate⟩
    · obtain ⟨e, he, hstate⟩ := EventQueue.hasState_iff.mp hprogress
      rw [he, Option.map_some, EventQueue.orphaned, if_pos hstate] at hheap
      exact ⟨_, hheap, rfl, rfl⟩

theorem Inv.reopen (hi : s.Inv) {as : List UsimLabel} {id : ℕ}
    (h : observedSimulator.execUnder AsDocumented s as = some u) (hq : id ∈ s.q.queue)
    (hready : s.q.HasState .ready id = true) (hwaits : .remove id true ∉ as)
    (hcopied : .getEnd id false ∉ as) :
    (id ∈ u.q.queue ∧ u.q.HasState .ready id = true ∨ id ∈ u.returned ∨ .getting id ∈ u.q.calls) ∧
    (s.q.readys.idxOf id < as.countP UsimLabel.isGet →
      id ∈ u.returned ∨ .getting id ∈ u.q.calls) := by
  have hline : id ∈ s.q.readys := List.mem_filter.mpr ⟨hq, hready⟩
  obtain ⟨hreadys, htaken⟩ := exec_line hi h
  have hserved : id ∈ WaitingLine.served s.q.readys (as.filterMap EventQueue.move) →
      id ∈ u.returned ∨ .getting id ∈ u.q.calls := by
    intro hmem
    refine exec_returned hi h hcopied (fun hold => ?_) (htaken ▸ List.mem_append_right _ hmem)
    exact absurd hold (hi.queue.ready_idle hready).1
  refine ⟨?_, fun hlt => hserved (WaitingLine.served_of_lt (withdraw_mem hwaits) hline ?_)⟩
  · rcases WaitingLine.served_or_waits (withdraw_mem hwaits) hline with hmem | ⟨hmem, -⟩
    · exact .inr (hserved hmem)
    · rw [← hreadys] at hmem
      exact .inl (List.mem_filter.mp hmem)
  · rwa [count_serve]

end Observed

/-- The contract holds in every run that allocates fewer than 2^32 events and whose PUTs name
tickets that a GET of the same opening returned and that were not put yet. -/
theorem delivery_contract {s : Observed}
    (h : observedSimulator.ReachableUnder Observed.AsDocumented s) : Contract s := by
  have hi := Observed.reachable_inv h
  refine ⟨fun u hu => hi.get hu, hi.returned.nodup, fun u hu => Observed.close hu,
    fun as u id hu => hi.reopen hu, fun hu => (hi.closed hu).2, fun id hgone => ?_⟩
  obtain ⟨e, he, hdone, hstatus⟩ := hi.completion.gone id hgone
  exact ⟨e, he, hi.completion.done id e he hdone hstatus, fun j d hd hticket =>
    hi.tickets.unique j id d e hd he hticket⟩

theorem delivery_contract_reopen : ∃ s : Observed,
    (s.returned = [0, 1] ∧ s.q.senders 1 = .gone (.ok ())) ∧ Contract s := by
  have hrun : (observedSimulator.execUnder Observed.AsDocumented .initial
      [.usimOpen, .alloc 0 ⟨.i2cWrite, 0, 0x20, 1, fun _ => 0⟩, .post 0,
        .alloc 1 ⟨.i2cRead, 0, 0x20, 1, fun _ => 0⟩, .post 1, .getBegin, .getEnd 0 true,
        .usimRelease, .remove 0 false, .leave 0, .usimOpen, .getBegin, .getEnd 1 true, .putBegin 2,
        .putCopy 1 ⟨true, 1, 1, fun _ => 7⟩, .complete 1 none, .drop 1, .remove 1 false,
        .leave 1]).map
      (fun s => decide (s.returned = [0, 1] ∧ s.q.senders 1 = .gone (.ok ()))) = some true := by
    decide +kernel
  obtain ⟨s, hs, hp⟩ := Machine.exists_reachableUnder_of_exec (M := observedSimulator) rfl hrun
  exact ⟨s, of_decide_eq_true hp, delivery_contract hs⟩

end BifrostModule.Usim
