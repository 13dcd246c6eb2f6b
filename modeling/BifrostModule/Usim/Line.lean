import BifrostModule.Foundation.WaitingLine
import BifrostModule.Usim.Lifetime

/-! # The READY line and the course of one event

The READY events of the queue form a waiting line. An event keeps its ticket, and
once it is done its status; the steps of the ioctls at work on it move it on.
-/
namespace BifrostModule.Usim
open Foundation Foundation.InFlight

namespace EventQueue
variable {s t : EventQueue} {a : UsimLabel} {id : ℕ} {e : Event}

def readys (s : EventQueue) : List ℕ := s.queue.filter (s.HasState .ready)

/-- An event keeps its ticket and its type, what it is to write, and its status once it is done. -/
structure Follows (e e' : Event) : Prop where
  ticket : e'.ticket = e.ticket
  type : e'.content.type = e.content.type
  written : e.content.type.isRead = false → e'.content = e.content
  done : e.state = .done → e'.state = .done ∧ e'.status = e.status

/-- Only the state and the references may change, and those of no event that is done. -/
theorem Follows.of_content {e e' : Event} (hticket : e'.ticket = e.ticket)
    (hcontent : e'.content = e.content)
    (hdone : e.state = .done → e'.state = .done ∧ e'.status = e.status) : Follows e e' :=
  ⟨hticket, congrArg Content.type hcontent, fun _ => hcontent, hdone⟩

theorem Follows.refl (e : Event) : Follows e e := .of_content rfl rfl fun h => ⟨h, rfl⟩

def AllFollow (s t : EventQueue) : Prop :=
  ∀ id e, s.heap id = some e → ∃ e', t.heap id = some e' ∧ Follows e e'

theorem AllFollow.of_eq (h : t.heap = s.heap) : s.AllFollow t :=
  fun _ e he => ⟨e, h ▸ he, .refl e⟩

theorem AllFollow.of_update {e' : Event} (h : t.heap = Function.update s.heap id (some e'))
    (hfollows : ∀ e, s.heap id = some e → Follows e e') : s.AllFollow t := by
  intro j d hd
  by_cases hj : j = id
  · subst hj
    exact ⟨e', by rw [h, Function.update_self], hfollows d hd⟩
  · exact ⟨d, by rw [h, Function.update_of_ne hj, hd], .refl d⟩

/-- What a close makes of an event on the queue. -/
def orphaned (e : Event) : Event :=
  if e.state = .inProgress then (e.complete (some Errno.EIO)).put else e

theorem orphaned_state (e : Event) : (orphaned e).state ≠ .inProgress := by
  unfold orphaned
  split
  · exact fun h => nomatch h
  · assumption

theorem orphaned_ready (e : Event) : (orphaned e).state = .ready ↔ e.state = .ready := by
  unfold orphaned
  split
  · rename_i h
    simp [Event.complete, Event.put, h]
  · rfl

theorem follows_orphaned (e : Event) : Follows e (orphaned e) := by
  unfold orphaned
  split
  · rename_i hstate
    exact .of_content rfl rfl fun hdone => nomatch hstate.symm.trans hdone
  · exact .refl e

theorem completeOrphan_heap (s : EventQueue) (id : ℕ) :
    (s.completeOrphan id).heap = Function.update s.heap id ((s.heap id).map orphaned) := by
  unfold completeOrphan
  split
  · rename_i he
    rw [he, Option.map_none, ← he, Function.update_eq_self]
  · rename_i e he
    rw [he, Option.map_some, orphaned]
    split
    · simp [completeEvent, dropEvent, setEvent, Function.update_idem]
    · rw [← he, Function.update_eq_self]

/-- A close reaches the queued events and no others. -/
theorem foldl_completeOrphan_heap (l : List ℕ) (s : EventQueue) (j : ℕ) :
    (l.foldl completeOrphan s).heap j =
      if j ∈ l then (s.heap j).map orphaned else s.heap j := by
  induction l generalizing s with
  | nil => rfl
  | cons id l ih =>
    have hidem : orphaned ∘ orphaned = orphaned :=
      funext fun e => if_neg (orphaned_state e)
    rw [List.foldl_cons, ih, completeOrphan_heap]
    by_cases hj : j = id
    · subst hj
      rw [Function.update_self, Option.map_map, hidem]
      simp
    · rw [Function.update_of_ne hj]
      simp [hj]

theorem foldl_completeOrphan_frame (l : List ℕ) (s : EventQueue) :
    (l.foldl completeOrphan s).counter = s.counter ∧
      (l.foldl completeOrphan s).senders = s.senders ∧
      (l.foldl completeOrphan s).queue = s.queue ∧
      (l.foldl completeOrphan s).calls = s.calls ∧
      (l.foldl completeOrphan s).taken = s.taken := by
  induction l generalizing s with
  | nil => exact ⟨rfl, rfl, rfl, rfl, rfl⟩
  | cons id l ih =>
    have hone : (s.completeOrphan id).counter = s.counter ∧
        (s.completeOrphan id).senders = s.senders ∧ (s.completeOrphan id).queue = s.queue ∧
        (s.completeOrphan id).calls = s.calls ∧ (s.completeOrphan id).taken = s.taken := by
      unfold completeOrphan
      split
      · exact ⟨rfl, rfl, rfl, rfl, rfl⟩
      · split <;> exact ⟨rfl, rfl, rfl, rfl, rfl⟩
    obtain ⟨h1, h2, h3, h4, h5⟩ := ih (s.completeOrphan id)
    exact ⟨h1.trans hone.1, h2.trans hone.2.1, h3.trans hone.2.2.1, h4.trans hone.2.2.2.1,
      h5.trans hone.2.2.2.2⟩

theorem release_heap (s : EventQueue) (j : ℕ) :
    s.release.heap j = if j ∈ s.queue then (s.heap j).map orphaned else s.heap j :=
  foldl_completeOrphan_heap s.queue s j

theorem release_follow (s : EventQueue) : s.AllFollow s.release := by
  intro id e he
  rw [release_heap, he]
  split
  · exact ⟨orphaned e, rfl, follows_orphaned e⟩
  · exact ⟨e, rfl, .refl e⟩

/-- Every step keeps the tickets, and the status of what is done. -/
theorem Step.follow (hi : s.Inv) (h : s.Step a t) : s.AllFollow t := by
  have hat : ∀ {id : ℕ} {e e' : Event}, s.heap id = some e →
      t.heap = Function.update s.heap id (some e') → Follows e e' → s.AllFollow t := fun he ht hf =>
    .of_update ht fun d hd => Option.some.inj (he.symm.trans hd) ▸ hf
  cases h with
  | @alloc id content he =>
    have hheap : (s.alloc id content).heap =
        Function.update s.heap id (some (.alloc (s.counter + 1) content)) := rfl
    exact .of_update hheap fun d hd => absurd (he.symm.trans hd) (Option.some_ne_none d).symm
  | @post id e he hp =>
    refine hat he rfl (.of_content rfl rfl fun hd => ?_)
    have hst := (hi.sound id e he).stage
    simp only [Stage, hd] at hst
    exact absurd hp hst.1.2
  | remove he hp hdone => exact .of_eq rfl
  | leave he hp => exact hat he rfl (.of_content rfl rfl fun hd => ⟨hd, rfl⟩)
  | usimOpen => exact .of_eq rfl
  | usimRelease hu hc => exact release_follow s
  | getNone hu hid => exact .of_eq rfl
  | getBegin hu hid he =>
    refine hat he rfl (.of_content rfl rfl fun hd => ?_)
    obtain ⟨d, hd', hready⟩ := hasState_iff.mp (List.find?_some hid)
    obtain rfl := Option.some.inj (he.symm.trans hd')
    cases hready.symm.trans hd
  | getEnd hc => exact .of_eq rfl
  | putNone hu hid => exact .of_eq rfl
  | putBegin hu hid => exact .of_eq rfl
  | @putCopy id e reply hc he =>
    have hstate := (hi.sound id e he).stage.inProgress (hi.calls_eq id hc rfl).1 (by simp)
    refine hat he rfl
      ⟨?_, ?_, fun hwrite => ?_, fun hd => absurd (hstate.symm.trans hd) (by decide)⟩
    · unfold Event.takeReply
      dsimp only
      split_ifs <;> rfl
    · unfold Event.takeReply
      dsimp only
      split_ifs <;> rfl
    · rw [Event.takeReply, if_pos (by simp [hwrite])]
  | @complete id e status hc he =>
    have hstate := (hi.sound id e he).stage.inProgress (hi.calls_eq id hc rfl).1 (by simp)
    exact hat he rfl (.of_content rfl rfl fun hd => absurd (hstate.symm.trans hd) (by decide))
  | drop hc he => exact hat he rfl (.of_content rfl rfl fun hd => ⟨hd, rfl⟩)

/-- What a step means for the line of the READY events. A sender leaves the line when a signal
ends its wait. -/
def move : UsimLabel → Option (WaitingLine.Move ℕ)
  | .post id => some (.join id)
  | .getBegin => some .serve
  | .remove id true => some (.withdraw id)
  | _ => none

theorem hasState_update {e' : Event} (ht : t.heap = Function.update s.heap id (some e'))
    (st : EventState) (j : ℕ) :
    t.HasState st j = if j = id then decide (e'.state = st) else s.HasState st j := by
  by_cases hj : j = id <;> simp [HasState, ht, hj]

theorem Inv.queue_nodup (hi : s.Inv) : s.queue.Nodup := by
  rw [List.nodup_iff_count_le_one]
  intro id
  change (s.view id).queued ≤ 1
  cases he : s.heap id with
  | none => simp [hi.absent id he]
  | some e =>
    rw [(hi.sound id e he).queued]
    cases (s.view id).sender <;> simp [Sender.queued]

theorem Inv.notMem_queue (hi : s.Inv) (h : s.senders id ≠ .posted) : id ∉ s.queue :=
  fun hq => h (hi.queued_posted hq).1

theorem readys_congr (hq : t.queue = s.queue)
    (h : ∀ j ∈ s.queue, t.HasState .ready j = s.HasState .ready j) : t.readys = s.readys := by
  rw [readys, hq]
  exact List.filter_congr h

theorem readys_update {e e' : Event} (he : s.heap id = some e) (hq : t.queue = s.queue)
    (ht : t.heap = Function.update s.heap id (some e'))
    (hready : e'.state = .ready ↔ e.state = .ready) : t.readys = s.readys := by
  refine readys_congr hq fun j _ => ?_
  rw [hasState_update ht]
  split
  · rename_i hj
    simp [HasState, hj, he, hready]
  · rfl

theorem release_readys (s : EventQueue) : s.release.readys = s.readys := by
  refine readys_congr (foldl_completeOrphan_frame s.queue s).2.2.1 fun j hj => ?_
  rw [HasState, release_heap, if_pos hj]
  cases he : s.heap j with
  | none => simp [HasState, he]
  | some e => simp [HasState, he, orphaned_ready]

/-- The event that a GET takes is the first of the READY ones. -/
theorem readys_of_firstReady (hid : s.firstReady = some id) :
    ∃ rest, s.readys = id :: rest := by
  obtain ⟨hready, as, bs, hq, has⟩ := List.find?_eq_some_iff_append.mp hid
  refine ⟨bs.filter (s.HasState .ready), ?_⟩
  rw [readys, hq, List.filter_append, List.filter_cons_of_pos hready,
    List.filter_eq_nil_iff.mpr (by simpa using has), List.nil_append]

theorem readys_of_firstReady_none (hid : s.firstReady = none) : s.readys = [] := by
  rw [readys, List.filter_eq_nil_iff]
  simpa using List.find?_eq_none.mp hid

/-- The READY events form a waiting line: a posting joins it, a GET serves its first member, and a
sender that stops waiting withdraws. -/
theorem Step.readys (hi : s.Inv) (h : s.Step a t) :
    t.readys = (move a).elim s.readys (WaitingLine.act s.readys) := by
  cases h with
  | @alloc id content he =>
    refine readys_congr rfl fun j hj => ?_
    obtain ⟨-, d, hd⟩ := hi.queued_posted hj
    rw [hasState_update (t := s.alloc id content) rfl, if_neg]
    rintro rfl
    cases he.symm.trans hd
  | @post id e he hp =>
    have hnot : id ∉ s.queue := hi.notMem_queue (by simp [hp])
    change ((s.queue ++ [id]).filter _) = (s.queue.filter _) ++ [id]
    rw [List.filter_append]
    congr 1
    · refine List.filter_congr fun j hj => ?_
      rw [hasState_update (t := s.postEvent id e) rfl, if_neg]
      rintro rfl
      exact hnot hj
    · have hready : (s.postEvent id e).HasState .ready id = true := by
        rw [hasState_update (t := s.postEvent id e) rfl, if_pos rfl, decide_eq_true rfl]
      simp [hready]
  | @remove id e signalled he hp hdone =>
    have herase : (s.removeEvent id signalled).readys = s.readys.erase id := by
      change (s.queue.erase id).filter (s.HasState .ready) =
        (s.queue.filter (s.HasState .ready)).erase id
      rw [(hi.queue_nodup.filter _).erase_eq_filter, hi.queue_nodup.erase_eq_filter,
        List.filter_filter, List.filter_filter]
      exact List.filter_congr fun j _ => Bool.and_comm _ _
    rw [herase]
    cases signalled with
    | true => rfl
    | false =>
      -- Without a signal the event is done, so it is not in the line any more.
      refine List.erase_of_not_mem fun hm => ?_
      obtain ⟨d, hd, hready⟩ := hasState_iff.mp (List.mem_filter.mp hm).2
      obtain rfl := Option.some.inj (he.symm.trans hd)
      cases (hdone.resolve_left Bool.false_ne_true).symm.trans hready
  | @leave id e signalled he hp => exact readys_update he rfl rfl Iff.rfl
  | usimOpen => rfl
  | usimRelease hu hc => exact release_readys s
  | getNone hu hid =>
    simp [move, WaitingLine.act, readys_of_firstReady_none hid]
  | @getBegin id e hu hid he =>
    have hid' : (s.getReady id e).HasState .ready id = false := by
      rw [hasState_update (t := s.getReady id e) rfl, if_pos rfl]
      rfl
    have hother : ∀ j, j ≠ id → (s.getReady id e).HasState .ready j = s.HasState .ready j := by
      intro j hj
      rw [hasState_update (t := s.getReady id e) rfl, if_neg hj]
    obtain ⟨rest, hrest⟩ := readys_of_firstReady hid
    have herase : (s.getReady id e).readys = s.readys.erase id := by
      have hqueue : (s.getReady id e).queue = s.queue := rfl
      rw [EventQueue.readys, EventQueue.readys, hqueue,
        (hi.queue_nodup.filter (s.HasState .ready)).erase_eq_filter, List.filter_filter]
      refine List.filter_congr fun j _ => ?_
      by_cases hj : j = id
      · simp [hj, hid']
      · simp [hj, hother j hj]
    rw [herase, hrest, List.erase_cons_head]
    simp [move, WaitingLine.act]
  | getEnd hc => rfl
  | putNone hu hid => rfl
  | putBegin hu hid => rfl
  | @putCopy id e reply hc he =>
    exact readys_update he rfl rfl (by rw [(takeReply_frame e reply).1])
  | @complete id e status hc he =>
    have hstate := (hi.sound id e he).stage.inProgress (hi.calls_eq id hc rfl).1 (by simp)
    exact readys_update he rfl rfl (by simp [Event.complete, hstate])
  | @drop id e hc he => exact readys_update he rfl rfl Iff.rfl

theorem Step.heap_none {j : ℕ} (h : s.Step a t) (ha : ∀ content, a ≠ .alloc j content)
    (hj : s.heap j = none) : t.heap j = none := by
  have hat : ∀ {id : ℕ} {e e' : Event}, s.heap id = some e →
      t.heap = Function.update s.heap id (some e') → t.heap j = none := by
    intro id e e' he ht
    have hne : j ≠ id := by
      rintro rfl
      cases hj.symm.trans he
    rw [ht, Function.update_of_ne hne, hj]
  cases h with
  | @alloc id content he =>
    have hne : j ≠ id := fun hid => ha content (hid ▸ rfl)
    simp [EventQueue.alloc, setEvent, hne, hj]
  | post he hp => exact hat he rfl
  | leave he hp => exact hat he rfl
  | usimRelease hu hc => rw [release_heap, hj, Option.map_none, ite_self]
  | getBegin hu hid he => exact hat he rfl
  | putCopy hc he => exact hat he rfl
  | complete hc he => exact hat he rfl
  | drop hc he => exact hat he rfl
  | _ => exact hj

theorem Step.back (hi : s.Inv) (h : s.Step a t) (ha : ∀ content, a ≠ .alloc id content)
    {e' : Event} (he' : t.heap id = some e') : ∃ e, s.heap id = some e ∧ Follows e e' := by
  cases he : s.heap id with
  | none => cases (h.heap_none ha he).symm.trans he'
  | some e =>
    obtain ⟨d, hd, hed⟩ := h.follow hi id e he
    exact ⟨e, rfl, Option.some.inj (hd.symm.trans he') ▸ hed⟩

/-- A call is an old one, the next step of an old one on the same event, or a GET or PUT that has
just found its event. -/
theorem Step.mem_calls (h : s.Step a t) {c : UsimCall} (hc : c ∈ t.calls) :
    c ∈ s.calls ∨ (∃ d ∈ s.calls, c.event = d.event ∧ ∀ id, c ≠ .getting id) ∨
      (a = .getBegin ∧ ∃ id, s.firstReady = some id ∧ c = .getting id) ∨
      ∃ ticket id, a = .putBegin ticket ∧ s.lookupEventWTicket ticket = some id ∧
        c = .putting id := by
  cases h with
  | usimRelease hu hc' =>
    exact .inl ((EventQueue.foldl_completeOrphan_frame s.queue s).2.2.2.1 ▸ hc)
  | @getBegin id e hu hid he =>
    rcases List.mem_cons.mp hc with rfl | hc
    · exact .inr (.inr (.inl ⟨rfl, id, hid, rfl⟩))
    · exact .inl hc
  | @getEnd id copied hc' =>
    rcases mem_replace hc with hnew | hold
    · cases copied with
      | true => cases hnew
      | false =>
        obtain rfl := List.mem_singleton.mp hnew
        exact .inr (.inl ⟨_, hc', rfl, by simp⟩)
    · exact .inl hold
  | @putBegin ticket id hu hid =>
    rcases List.mem_cons.mp hc with rfl | hc
    · exact .inr (.inr (.inr ⟨ticket, id, rfl, hid, rfl⟩))
    · exact .inl hc
  | @putCopy id e reply hc' he =>
    rcases mem_replace hc with hnew | hold
    · obtain rfl := List.mem_singleton.mp hnew
      exact .inr (.inl ⟨_, hc', rfl, by simp⟩)
    · exact .inl hold
  | @complete id e status hc' he =>
    rcases mem_replace hc with hnew | hold
    · obtain rfl := List.mem_singleton.mp hnew
      exact .inr (.inl ⟨_, hc', rfl, by simp⟩)
    · exact .inl hold
  | @drop id e hc' he => exact .inl ((mem_replace hc).resolve_left List.not_mem_nil)
  | _ => exact .inl hc

/-- A PUT is at work on the event, and has not failed. -/
def PutAtWork (s : EventQueue) (id : ℕ) : Prop :=
  .putting id ∈ s.calls ∨ .completing id none ∈ s.calls

theorem Step.putAtWork (h : s.Step a t) (hc : t.PutAtWork id) :
    s.PutAtWork id ∨ ∃ ticket, a = .putBegin ticket ∧ s.lookupEventWTicket ticket = some id := by
  have hpool : ∀ {c : UsimCall} {new : List UsimCall},
      t.calls = replace s.calls c new → .putting id ∉ new →
      (.completing id none ∈ new → s.PutAtWork id) → s.PutAtWork id := by
    intro c new ht hput hcomp
    rw [PutAtWork, ht] at hc
    rcases hc with hc | hc
    · exact .inl ((mem_replace hc).resolve_left hput)
    · exact (mem_replace hc).elim hcomp .inr
  cases h with
  | usimRelease hu hnil =>
    have hsame : s.release.calls = s.calls := (foldl_completeOrphan_frame s.queue s).2.2.2.1
    rw [PutAtWork, hsame] at hc
    exact .inl hc
  | getBegin hu hid he => exact .inl (hc.imp (by simp [getReady]) (by simp [getReady]))
  | @getEnd j copied hc' => exact .inl (hpool rfl
      (by cases copied <;> simp) (by cases copied <;> simp))
  | @putBegin ticket j hu hid =>
    rcases hc with hc | hc
    · rcases List.mem_cons.mp hc with heq | hold
      · exact .inr ⟨ticket, rfl, UsimCall.putting.inj heq ▸ hid⟩
      · exact .inl (.inl hold)
    · exact .inl (.inr ((List.mem_cons.mp hc).resolve_left (by rintro ⟨⟩)))
  | @putCopy j e reply hc' he =>
    refine .inl (hpool rfl (by simp) fun hnew => .inl ?_)
    obtain ⟨rfl, -⟩ := UsimCall.completing.inj (List.mem_singleton.mp hnew)
    exact hc'
  | complete hc' he => exact .inl (hpool rfl (by simp) (by simp))
  | drop hc' he => exact .inl (hpool rfl (by simp) (by simp))
  | _ => exact .inl hc

theorem Step.sender (h : s.Step a t) (id : ℕ) :
    t.senders id = s.senders id ∨ t.senders id = .allocated ∨ t.senders id = .posted ∨
      (∃ e signalled, s.heap id = some e ∧ (signalled = true ∨ e.state = .done) ∧
        t.senders id = .removed signalled) ∨
      ∃ e signalled, s.heap id = some e ∧ s.senders id = .removed signalled ∧
        t.senders id = .gone (waitResult e signalled) := by
  have hat : ∀ {j : ℕ} {p : Sender}, t.senders = Function.update s.senders j p →
      t.senders id = s.senders id ∨ j = id ∧ t.senders id = p := by
    intro j p ht
    by_cases hj : j = id
    · exact .inr ⟨hj, by rw [ht, hj, Function.update_self]⟩
    · exact .inl (by rw [ht, Function.update_of_ne (Ne.symm hj)])
  cases h with
  | @alloc j content he => exact (hat rfl).imp_right fun hj => .inl hj.2
  | post he hp => exact (hat rfl).imp_right fun hj => .inr (.inl hj.2)
  | @remove j e signalled he hp hdone =>
    refine (hat rfl).imp_right fun hj => .inr (.inr (.inl ⟨e, signalled, ?_, hdone, hj.2⟩))
    exact hj.1 ▸ he
  | @leave j e signalled he hp =>
    refine (hat rfl).imp_right fun hj => .inr (.inr (.inr ⟨e, signalled, ?_, ?_, hj.2⟩))
    · exact hj.1 ▸ he
    · exact hj.1 ▸ hp
  | usimRelease hu hnil =>
    exact .inl (congrFun (EventQueue.foldl_completeOrphan_frame s.queue s).2.1 id)
  | _ => exact .inl rfl

theorem Step.removed_done (hi : s.Inv) (h : s.Step a t) (id : ℕ)
    (hold : s.senders id = .removed false → ∃ e, s.heap id = some e ∧ e.state = .done)
    (hp : t.senders id = .removed false) : ∃ e, t.heap id = some e ∧ e.state = .done := by
  have hdone : ∃ e, s.heap id = some e ∧ e.state = .done := by
    rcases h.sender id with hsame | hnew | hnew | ⟨e, signalled, he, hdone, hnew⟩ |
      ⟨e, signalled, he, -, hnew⟩
    · exact hold (hsame ▸ hp)
    · cases hnew.symm.trans hp
    · cases hnew.symm.trans hp
    · obtain rfl := Sender.removed.inj (hnew.symm.trans hp)
      exact ⟨e, he, hdone.resolve_left Bool.false_ne_true⟩
    · cases hnew.symm.trans hp
  obtain ⟨e, he, hdone⟩ := hdone
  obtain ⟨e', he', hf⟩ := h.follow hi id e he
  exact ⟨e', he', (hf.done hdone).1⟩

/-- While the device stays open, an event in progress with no ioctl at work on it stays so. -/
theorem Step.inProgress (hi : s.Inv) (h : s.Step a t) (ha : a ≠ .usimRelease)
    (he : s.heap id = some e) (hstate : e.state = .inProgress)
    (hno : ∀ c ∈ s.calls, c.event ≠ id) :
    ∃ e', t.heap id = some e' ∧ e'.ticket = e.ticket ∧ e'.state = .inProgress := by
  have hat : ∀ {j : ℕ} {d d' : Event}, s.heap j = some d →
      t.heap = Function.update s.heap j (some d') →
        (j = id → d'.ticket = d.ticket ∧ d'.state = d.state) →
      ∃ e', t.heap id = some e' ∧ e'.ticket = e.ticket ∧ e'.state = .inProgress := by
    intro j d d' hd ht hsame
    by_cases hj : j = id
    · subst hj
      obtain rfl := Option.some.inj (he.symm.trans hd)
      obtain ⟨hticket, hs⟩ := hsame rfl
      exact ⟨d', by rw [ht, Function.update_self], hticket, hs.trans hstate⟩
    · exact ⟨e, by rw [ht, Function.update_of_ne (Ne.symm hj), he], rfl, hstate⟩
  cases h with
  | @alloc j content hj =>
    have hne : id ≠ j := by
      rintro rfl
      cases hj.symm.trans he
    exact ⟨e, by simp [EventQueue.alloc, setEvent, hne, he], rfl, hstate⟩
  | @post j d hd hp =>
    refine hat hd rfl fun hj => ?_
    subst hj
    have hst := (hi.sound j e he).stage
    simp only [Stage, hstate] at hst
    exact absurd hp hst.1.2
  | leave hd hp => exact hat hd rfl fun _ => ⟨rfl, rfl⟩
  | usimRelease hu hc => exact absurd rfl ha
  | @getBegin j d hu hid hd =>
    refine hat hd rfl fun hj => ?_
    subst hj
    obtain ⟨d', hd', hready⟩ := hasState_iff.mp (List.find?_some hid)
    obtain rfl := Option.some.inj (he.symm.trans hd')
    cases hstate.symm.trans hready
  | putCopy hc hd => exact hat hd rfl fun hj => absurd hj (hno _ hc)
  | complete hc hd => exact hat hd rfl fun hj => absurd hj (hno _ hc)
  | drop hc hd => exact hat hd rfl fun hj => absurd hj (hno _ hc)
  | _ => exact ⟨e, he, rfl, hstate⟩

/-- A READY event was not taken, and no ioctl is at work on it. -/
theorem Inv.ready_idle (hi : s.Inv) (hready : s.HasState .ready id = true) :
    id ∉ s.taken ∧ ∀ c ∈ s.calls, c.event ≠ id := by
  obtain ⟨e, he, hstate⟩ := hasState_iff.mp hready
  have hst := (hi.sound id e he).stage
  simp only [Stage, hstate] at hst
  refine ⟨List.count_eq_zero.mp hst.2.1, fun c hc hid => ?_⟩
  rw [(hi.calls_eq id hc hid).1] at hst
  exact Multiset.singleton_ne_zero _ hst.1

/-- An event that an ioctl works on was taken. -/
theorem Inv.call_taken (hi : s.Inv) {c : UsimCall} (hc : c ∈ s.calls) : c.event ∈ s.taken := by
  obtain ⟨hcalls, e, he⟩ := hi.calls_eq c.event hc rfl
  have hst := (hi.sound c.event e he).stage
  refine List.count_pos_iff.mp (Nat.lt_of_lt_of_eq Nat.one_pos (Eq.symm ?_))
  change (s.view c.event).taken = 1
  unfold Stage at hst
  split at hst
  · exact absurd (hcalls.symm.trans hst.1) (Multiset.singleton_ne_zero _)
  · exact hst.2.1
  · exact hst.2.1

/-- No other ioctl is at work on the event of a GET that ends. -/
theorem Inv.getEnd_calls (hi : s.Inv) (hc : .getting id ∈ s.calls) :
    ∀ c ∈ replace s.calls (.getting id) [], c.event ≠ id := by
  intro c hmem hid
  have hzero : keys (callOn id) (replace s.calls (.getting id) []) = 0 :=
    calls_replace_self hc (hi.calls_eq id hc rfl).1 (if_pos rfl)
  have hkey : c ∈ keys (callOn id) (replace s.calls (.getting id) []) :=
    mem_keys_of hmem (if_pos hid)
  rw [hzero] at hkey
  exact Multiset.notMem_zero c hkey

/-- The events taken are those that the line has served. -/
theorem Step.taken (h : s.Step a t) :
    t.taken = s.taken ++ WaitingLine.served s.readys (move a).toList := by
  have hsame : ∀ b, move b = none → s.taken = s.taken ++ WaitingLine.served s.readys
      (move b).toList := by
    intro b hb
    rw [hb]
    exact (List.append_nil _).symm
  cases h with
  | post he hp => exact (List.append_nil _).symm
  | @remove id e signalled he hp hdone => cases signalled <;> exact (List.append_nil _).symm
  | usimRelease hu hc =>
    exact ((foldl_completeOrphan_frame s.queue s).2.2.2.2).trans (hsame .usimRelease rfl)
  | getNone hu hid =>
    rw [readys_of_firstReady_none hid]
    exact (List.append_nil _).symm
  | getBegin hu hid he =>
    obtain ⟨rest, hrest⟩ := readys_of_firstReady hid
    simp [getReady, hrest, move, WaitingLine.served]
  | _ => exact hsame _ rfl

theorem Step.taken_eq (h : s.Step a t) (ha : a ≠ .getBegin) : t.taken = s.taken := by
  have hnone : WaitingLine.served s.readys (move a).toList = [] := by
    cases a with
    | getBegin => exact absurd rfl ha
    | remove id signalled => cases signalled <;> rfl
    | _ => rfl
  rw [h.taken, hnone, List.append_nil]

theorem Step.mem_taken (h : s.Step a t) (hid : id ∈ s.taken) : id ∈ t.taken :=
  h.taken ▸ List.mem_append_left _ hid

theorem Step.done (h : s.Step a t) {e' : Event} (he' : t.heap id = some e')
    (hdone : e'.state = .done) :
    (∃ e, s.heap id = some e ∧ e.state = .done) ∨
      a = .complete id e'.status ∧ .completing id e'.status ∈ s.calls ∨
      a = .usimRelease ∧ e'.status = some Errno.EIO := by
  have hat : ∀ {j : ℕ} {d d' : Event}, s.heap j = some d →
      t.heap = Function.update s.heap j (some d') → (d'.state = .done → d.state = .done) →
      ∃ e, s.heap id = some e ∧ e.state = .done := by
    intro j d d' hd ht hsame
    rw [ht] at he'
    by_cases hj : id = j
    · subst hj
      rw [Function.update_self] at he'
      obtain rfl := Option.some.inj he'
      exact ⟨d, hd, hsame hdone⟩
    · rw [Function.update_of_ne hj] at he'
      exact ⟨e', he', hdone⟩
  cases h with
  | @alloc j content hj =>
    have he : Function.update s.heap j (some (Event.alloc (s.counter + 1) content)) id = some e' :=
      he'
    by_cases hne : id = j
    · subst hne
      rw [Function.update_self] at he
      obtain rfl := Option.some.inj he
      cases hdone
    · rw [Function.update_of_ne hne] at he
      exact .inl ⟨e', he, hdone⟩
  | post hd hp => exact .inl (hat hd rfl nofun)
  | leave hd hp => exact .inl (hat hd rfl fun h => h)
  | usimRelease hu hc =>
    rw [release_heap] at he'
    split at he'
    · obtain ⟨e, he, rfl⟩ := Option.map_eq_some_iff.mp he'
      unfold orphaned at hdone ⊢
      split_ifs at hdone ⊢ with hstate
      · exact .inr (.inr ⟨rfl, rfl⟩)
      · exact .inl ⟨e, he, hdone⟩
    · exact .inl ⟨e', he', hdone⟩
  | getBegin hu hid hd => exact .inl (hat hd rfl nofun)
  | @putCopy j d reply hc hd =>
    exact .inl (hat hd rfl fun h => (takeReply_frame d reply).1 ▸ h)
  | @complete j d status hc hd =>
    have he : Function.update s.heap j (some (d.complete status)) id = some e' := he'
    by_cases hj : id = j
    · subst hj
      rw [Function.update_self] at he
      obtain rfl := Option.some.inj he
      exact .inr (.inl ⟨rfl, hc⟩)
    · rw [Function.update_of_ne hj] at he
      exact .inl ⟨e', he, hdone⟩
  | drop hc hd => exact .inl (hat hd rfl fun h => h)
  | _ => exact .inl ⟨e', he', hdone⟩

theorem lookup_ticket {ticket : BitVec 32} (h : s.lookupEventWTicket ticket = some id) :
    id ∈ s.queue ∧ ∃ e, s.heap id = some e ∧ e.ticket = ticket := by
  refine ⟨List.mem_of_find?_eq_some h, ?_⟩
  have hticket := List.find?_some h
  cases he : s.heap id with
  | none => simp [he] at hticket
  | some e => exact ⟨e, rfl, by simpa [he] using hticket⟩

end EventQueue

end BifrostModule.Usim
