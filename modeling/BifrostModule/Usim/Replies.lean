import BifrostModule.Usim.Contract
import BifrostModule.Usim.Copies

/-! # What a read takes from the reply

The event of a read carries the request to the simulator and the reply back. A PUT
sets `len` and as many bytes; the sender copies as many bytes as it has asked for,
and looks at `len` only for a block.
-/
namespace BifrostModule.Usim
open Foundation Animal

def firstBytes (data : ℕ → BitVec 8) (n : ℕ) : List (BitVec 8) := (List.range n).map data

/-- The reply is copied into the event: its `len` can be read and is not too large, and its bytes
can be read. -/
def Reply.Taken (reply : Reply) : Prop :=
  reply.lenRead = true ∧ reply.len.toNat ≤ dataSize ∧ reply.len.toNat ≤ reply.copied

namespace Request

/-- `usim_i2c_read`, `usim_smb_read` and the writes after a wait with result 0: the result, and the
buffer of the caller, which is `msg->buf` or the bytes of the union. -/
def copyReply (c : Content) (buf : List (BitVec 8)) :
    Request → Except Errno Unit × List (BitVec 8)
  | i2c msg =>
    (.ok (), if msg.read then Buffer.write buf 0 (firstBytes c.data msg.len.toNat) else buf)
  | smbRead _ _ size =>
    match smbReadPart size with
    | .error err => (.error err, buf)
    | .ok p =>
      if size = .blockData then
        if 0 < c.len.toNat ∧ c.len.toNat ≤ smbusBlockMax then
          (.ok (), Buffer.write (Buffer.write buf 0 [c.len.setWidth 8]) p.offset
            (firstBytes c.data c.len.toNat))
        else (.error .EPROTO, buf)
      else (.ok (), Buffer.write buf p.offset (firstBytes c.data p.len))
  | smbWrite _ _ _ _ => (.ok (), buf)

def finish (r : Request) (e : Event) (signalled : Bool) (buf : List (BitVec 8)) :
    Except Errno Unit × List (BitVec 8) :=
  match EventQueue.waitResult e signalled with
  | .error err => (.error err, buf)
  | .ok _ => r.copyReply e.content buf

def wanted : Request → ℕ
  | i2c msg => if msg.read then msg.len.toNat else 0
  | smbRead _ _ .byte => 1
  | smbRead _ _ .byteData => 1
  | smbRead _ _ .wordData => 2
  | smbRead _ _ .blockData => 0
  | smbRead _ _ .other => 0
  | smbWrite _ _ _ _ => 0

/-- The data that a reply supplies: a block with its count, or the bytes that were asked for. -/
def supplied (r : Request) (reply : Reply) : List (BitVec 8) :=
  match r with
  | smbRead _ _ .blockData => reply.len.setWidth 8 :: firstBytes reply.data reply.len.toNat
  | r => firstBytes reply.data r.wanted

def Roomy (r : Request) (buf : List (BitVec 8)) : Prop :=
  match r with
  | i2c msg => msg.len.toNat ≤ buf.length
  | _ => buf.length = smbusBlockMax + 2

/-- The event `id` is the one of the request, PUTs name known events, and a PUT to this event
gives the reply. -/
def Answers (r : Request) (id : ℕ) (reply : Reply) (s : EventQueue) (a : UsimLabel) : Prop :=
  Carries r id s a ∧ ∀ rp, a = .putCopy id rp → rp = reply

/-- Whatever else happens, a transfer that returns 0 gives the caller what the reply supplies, and
the reply has all that was asked for. -/
def OnlySupplied (r : Request) (reply : Reply) : Prop :=
  ∀ id s e signalled buf, simulator.ReachableUnder (r.Answers id reply) s → r.Roomy buf →
    s.heap id = some e → s.senders id = .removed signalled →
    (r.finish e signalled buf).1 = .ok () →
    r.wanted ≤ reply.len.toNat ∧ r.supplied reply <+: (r.finish e signalled buf).2

/-- The event holds the request as it was answered by the reply. -/
def FromReply (r : Request) (reply : Reply) (c : Content) : Prop :=
  ∃ e : Event, (∃ bus, r.content bus = .ok e.content) ∧ (e.takeReply reply).2 = none ∧
    (e.takeReply reply).1.content = c

structure Answered (r : Request) (id : ℕ) (reply : Reply) (s : EventQueue) : Prop where
  untouched : ∀ e, s.heap id = some e → e.state ≠ .done →
    (∀ status, .completing id status ∉ s.calls) → ∃ bus, r.content bus = .ok e.content
  completing : ∀ e, s.heap id = some e → .completing id none ∈ s.calls →
    r.FromReply reply e.content
  done : ∀ e, s.heap id = some e → e.state = .done → e.status = none →
    r.FromReply reply e.content
  removed : s.senders id = .removed false → ∃ e, s.heap id = some e ∧ e.state = .done

variable {r : Request} {reply : Reply} {id : ℕ} {s t : EventQueue} {a : UsimLabel}

theorem Answered.of_same (hr : r.Answered id reply s)
    (hheap : ∀ e', t.heap id = some e' → ∃ e, s.heap id = some e ∧ e'.content = e.content ∧
      e'.status = e.status ∧ (e'.state = .done ↔ e.state = .done))
    (hcalls : ∀ status, .completing id status ∈ t.calls ↔ .completing id status ∈ s.calls)
    (hremoved : t.senders id = .removed false → ∃ e, t.heap id = some e ∧ e.state = .done) :
    r.Answered id reply t := by
  refine ⟨fun e' he' hstate hno => ?_, fun e' he' hc => ?_, fun e' he' hstate hstatus => ?_,
    hremoved⟩
  · obtain ⟨e, he, hcontent, -, hdone⟩ := hheap e' he'
    rw [hcontent]
    exact hr.untouched e he (mt hdone.mpr hstate) fun st hst => hno st ((hcalls st).mpr hst)
  · obtain ⟨e, he, hcontent, -⟩ := hheap e' he'
    rw [hcontent]
    exact hr.completing e he ((hcalls none).mp hc)
  · obtain ⟨e, he, hcontent, hst, hdone⟩ := hheap e' he'
    rw [hcontent]
    exact hr.done e he (hdone.mp hstate) (hst ▸ hstatus)

theorem same_of_update {j : ℕ} {d d' : Event} (hd : s.heap j = some d)
    (ht : t.heap = Function.update s.heap j (some d'))
    (hsame : d'.content = d.content ∧ d'.status = d.status ∧ (d'.state = .done ↔ d.state = .done)) :
    ∀ e', t.heap id = some e' → ∃ e, s.heap id = some e ∧ e'.content = e.content ∧
      e'.status = e.status ∧ (e'.state = .done ↔ e.state = .done) := by
  intro e' he'
  rw [ht] at he'
  by_cases hj : id = j
  · subst hj
    rw [Function.update_self] at he'
    obtain rfl := Option.some.inj he'
    exact ⟨d, hd, hsame⟩
  · rw [Function.update_of_ne hj] at he'
    exact ⟨e', he', rfl, rfl, Iff.rfl⟩

theorem same_of_ne {j : ℕ} {o : Option Event} (hj : j ≠ id)
    (ht : t.heap = Function.update s.heap j o) :
    ∀ e', t.heap id = some e' → ∃ e, s.heap id = some e ∧ e'.content = e.content ∧
      e'.status = e.status ∧ (e'.state = .done ↔ e.state = .done) := by
  intro e' he'
  rw [ht, Function.update_of_ne (Ne.symm hj)] at he'
  exact ⟨e', he', rfl, rfl, Iff.rfl⟩

theorem completing_mem_replace {l new : List UsimCall} {b : UsimCall}
    (hb : ∀ status, b ≠ .completing id status) (hnew : ∀ status, .completing id status ∉ new)
    (status : Option Errno) :
    .completing id status ∈ InFlight.replace l b new ↔ .completing id status ∈ l :=
  ⟨fun h => (InFlight.mem_replace h).resolve_left (hnew status),
    fun h => InFlight.mem_replace_of_ne h (Ne.symm (hb status))⟩

theorem Answered.step (hr : r.Answered id reply s) (hi : s.Inv) (hok : r.Answers id reply s a)
    (h : s.Step a t) : r.Answered id reply t := by
  have hremoved := h.removed_done hi id hr.removed
  cases h with
  | @alloc j content he =>
    by_cases hj : j = id
    · subst hj
      have hnew : ∀ e', (s.alloc j content).heap j = some e' →
          e' = Event.alloc (s.counter + 1) content := fun e' he' => by
        simpa [EventQueue.alloc, EventQueue.setEvent, eq_comm] using he'
      refine ⟨fun e' he' _ _ => ?_, fun e' _ hc => ?_, fun e' he' hstate => ?_, hremoved⟩
      · obtain ⟨bus, hbus⟩ := hok.1.2 content rfl
        exact ⟨bus, hnew e' he' ▸ hbus⟩
      · obtain ⟨-, e, hsome⟩ := hi.calls_eq j hc rfl
        cases he.symm.trans hsome
      · rw [hnew e' he'] at hstate
        cases hstate
    · exact hr.of_same (same_of_ne hj rfl) (fun _ => Iff.rfl) hremoved
  | post he hp =>
    have hready := hi.ready_of_allocated he hp
    exact hr.of_same (same_of_update he rfl ⟨rfl, rfl, by simp [hready]⟩)
      (fun _ => Iff.rfl) hremoved
  | remove he hp hdone =>
    exact hr.of_same (fun e' he' => ⟨e', he', rfl, rfl, Iff.rfl⟩) (fun _ => Iff.rfl) hremoved
  | leave he hp =>
    exact hr.of_same (same_of_update he rfl ⟨rfl, rfl, Iff.rfl⟩) (fun _ => Iff.rfl) hremoved
  | usimOpen =>
    exact hr.of_same (fun e' he' => ⟨e', he', rfl, rfl, Iff.rfl⟩) (fun _ => Iff.rfl) hremoved
  | usimRelease hu hnil =>
    have hcalls : s.release.calls = [] :=
      (EventQueue.foldl_completeOrphan_frame s.queue s).2.2.2.1.trans hnil
    have hback : ∀ e', s.release.heap id = some e' → (∃ e, s.heap id = some e ∧ e' = e) ∨
        e'.state = .done ∧ e'.status = some Errno.EIO := by
      intro e' he'
      rw [EventQueue.release_heap] at he'
      split at he'
      · obtain ⟨e, he, rfl⟩ := Option.map_eq_some_iff.mp he'
        unfold EventQueue.orphaned
        split
        · exact .inr ⟨rfl, rfl⟩
        · exact .inl ⟨e, he, rfl⟩
      · exact .inl ⟨e', he', rfl⟩
    refine ⟨fun e' he' hstate _ => ?_, fun e' _ hc => ?_, fun e' he' hstate hstatus => ?_, hremoved⟩
    · rcases hback e' he' with ⟨e, he, rfl⟩ | ⟨hdone, -⟩
      · exact hr.untouched _ he hstate (by simp [hnil])
      · exact absurd hdone hstate
    · rw [hcalls] at hc
      cases hc
    · rcases hback e' he' with ⟨e, he, rfl⟩ | ⟨-, heio⟩
      · exact hr.done _ he hstate hstatus
      · cases heio.symm.trans hstatus
  | getNone hu hid => exact hr
  | @getBegin j e hu hid he =>
    have hready : e.state = .ready := by
      obtain ⟨d, hd, hstate⟩ := EventQueue.hasState_iff.mp (List.find?_some hid)
      obtain rfl := Option.some.inj (he.symm.trans hd)
      exact hstate
    refine hr.of_same (same_of_update he rfl ⟨rfl, rfl, by simp [hready]⟩)
      (fun status => ?_) hremoved
    simp [EventQueue.getReady]
  | @getEnd j copied hc =>
    refine ⟨fun e he hstate hno => hr.untouched e he hstate fun status hst => ?_,
      fun e he hst => hr.completing e he ?_, hr.done, hremoved⟩
    · exact hno status (InFlight.mem_replace_of_ne hst (by simp))
    · refine (InFlight.mem_replace hst).resolve_left ?_
      cases copied <;> simp
  | putNone hu hid => exact hr
  | putBegin hu hid =>
    exact hr.of_same (fun e' he' => ⟨e', he', rfl, rfl, Iff.rfl⟩) (fun status => by simp) hremoved
  | @putCopy j e rp hc he =>
    obtain ⟨hcalls, -⟩ := hi.calls_eq j hc rfl
    have hstate := (hi.sound j e he).stage.inProgress hcalls (by simp)
    have hstate' := (EventQueue.takeReply_frame e rp).1
    by_cases hj : j = id
    · subst hj
      obtain rfl := hok.2 rp rfl
      have hself : ∀ e', Function.update s.heap j (some (e.takeReply rp).1) j = some e' →
          (e.takeReply rp).1 = e' := fun e' he' => by
        rw [Function.update_self] at he'
        exact Option.some.inj he'
      have hnone : ∀ status, .completing j status ∉ s.calls := by
        intro status hst
        have hone := (hi.calls_eq j hst rfl).1
        rw [hcalls] at hone
        cases Multiset.singleton_inj.mp hone
      refine ⟨fun e' _ _ hno => ?_, fun e' he' hst => ?_, fun e' he' hdone => ?_, hremoved⟩
      · exact absurd (InFlight.mem_replace_new (List.mem_singleton_self _)) (hno _)
      · rcases InFlight.mem_replace hst with hnew | hold
        · have htaken : none = (e.takeReply rp).2 :=
            (UsimCall.completing.inj (List.mem_singleton.mp hnew)).2
          exact hself e' he' ▸ ⟨e, hr.untouched e he (by simp [hstate]) hnone, htaken.symm, rfl⟩
        · exact absurd hold (hnone none)
      · cases (hself e' he' ▸ hstate'.trans hstate).symm.trans hdone
    · refine hr.of_same (same_of_ne hj rfl) (fun status => ?_) hremoved
      exact completing_mem_replace (by simp) (by simp [Ne.symm hj]) status
  | @complete j e status hc he =>
    by_cases hj : j = id
    · subst hj
      have hself : ∀ e', Function.update s.heap j (some (e.complete status)) j = some e' →
          e.complete status = e' := fun e' he' => by
        rw [Function.update_self] at he'
        exact Option.some.inj he'
      refine ⟨fun e' he' hno _ => ?_, fun e' he' hst => ?_, fun e' he' _ hstatus => ?_, hremoved⟩
      · exact absurd (hself e' he' ▸ rfl) hno
      · have hold := (InFlight.mem_replace hst).resolve_left (by simp)
        exact hself e' he' ▸ hr.completing e he hold
      · have hnone : status = none := by
          rw [← hself e' he'] at hstatus
          exact hstatus
        exact hself e' he' ▸ hr.completing e he (hnone ▸ hc)
    · refine hr.of_same (same_of_ne hj rfl) (fun st => ?_) hremoved
      exact completing_mem_replace (by simp [hj]) (by simp) st
  | @drop j e hc he =>
    refine hr.of_same (same_of_update he rfl ⟨rfl, rfl, Iff.rfl⟩) (fun status => ?_) hremoved
    exact completing_mem_replace (by simp) (by simp) status

theorem answered_of_reachable (h : simulator.ReachableUnder (r.Answers id reply) s) :
    r.Answered id reply s := by
  refine (Machine.ReachableUnder.invariant (I := fun s => s.Inv ∧ r.Answered id reply s)
    ?_ ?_ h).2
  · rintro _ rfl
    have hheap : ∀ e, EventQueue.initial.heap id ≠ some e := fun e h => nomatch h
    exact ⟨⟨fun _ _ => rfl, fun _ _ h => nomatch h⟩, fun e he => absurd he (hheap e),
      fun e he => absurd he (hheap e), fun e he => absurd he (hheap e), fun h => nomatch h⟩
  · intro s a t hi hok hstep
    exact ⟨(EventQueue.keeps_step hi.1 hok.1.1 hstep).1,
      hi.2.step hi.1 hok (EventQueue.Step.of_step hstep)⟩

theorem takeReply_of_taken {e : Event} (hread : e.content.type.isRead = true) (h : reply.Taken) :
    e.takeReply reply = ({ e with content := { e.content with
      len := reply.len
      data := fun i =>
        if i < reply.len.toNat then reply.data i else e.content.data i } }, none) := by
  obtain ⟨hlen, hsize, hcopied⟩ := h
  rw [Event.takeReply, if_neg (not_not.mpr hread), if_neg (not_not.mpr hlen)]
  dsimp only
  rw [if_neg (show ¬ reply.len.toNat > 512 from not_lt.mpr hsize), min_eq_right hcopied,
    if_neg (lt_irrefl _)]

theorem taken_of_takeReply {e : Event} (hread : e.content.type.isRead = true)
    (h : (e.takeReply reply).2 = none) : reply.Taken := by
  rw [Event.takeReply, if_neg (not_not.mpr hread)] at h
  dsimp only at h
  split_ifs at h with hlen hsize hcopied
  exact ⟨hlen, not_lt.mp hsize, by omega⟩

theorem firstBytes_congr {f g : ℕ → BitVec 8} {n : ℕ} (h : ∀ i < n, f i = g i) :
    firstBytes f n = firstBytes g n :=
  List.map_congr_left fun i hi => h i (List.mem_range.mp hi)

theorem prefix_write {α : Type*} (b new : List α) : new <+: Buffer.write b 0 new := by
  rw [Buffer.write, List.take_zero, List.nil_append]
  exact List.prefix_append _ _

theorem prefix_block {count : BitVec 8} {buf block : List (BitVec 8)} (hbuf : 0 < buf.length) :
    count :: block <+: Buffer.write (Buffer.write buf 0 [count]) 1 block := by
  obtain ⟨b, rest, rfl⟩ := List.exists_cons_of_length_pos hbuf
  simp [Buffer.write]

/-- With all that was asked for in the reply, the caller gets what it supplies. -/
theorem copyReply_supplied {c : Content} {buf : List (BitVec 8)} (hroom : r.Roomy buf)
    (hlen : r.wanted ≤ reply.len.toNat) (hclen : c.len = reply.len)
    (hdata : ∀ i < reply.len.toNat, c.data i = reply.data i)
    (hok : (r.copyReply c buf).1 = .ok ()) : r.supplied reply <+: (r.copyReply c buf).2 := by
  have hfirst : ∀ n ≤ reply.len.toNat, firstBytes reply.data n = firstBytes c.data n :=
    fun n hn => firstBytes_congr fun i hi => (hdata i (hi.trans_le hn)).symm
  cases r with
  | i2c msg =>
    simp only [supplied, wanted, copyReply] at hlen ⊢
    split at hlen
    · rename_i hread
      rw [if_pos hread, if_pos hread, hfirst _ hlen]
      exact prefix_write _ _
    · rename_i hread
      rw [if_neg hread, if_neg hread]
      exact List.nil_prefix
  | smbRead addr command size =>
    cases size with
    | blockData =>
      simp only [copyReply, smbReadPart, if_pos, hclen] at hok ⊢
      split at hok
      · rename_i hcount
        rw [if_pos hcount, supplied, hfirst _ le_rfl]
        exact prefix_block (by rw [hroom]; simp)
      · cases hok
    | other => exact List.nil_prefix
    | _ =>
      simp only [copyReply, smbReadPart, supplied]
      rw [if_neg (by simp), hfirst _ hlen]
      exact prefix_write _ _
  | smbWrite addr command size data => exact List.nil_prefix

/-- The content of a request from which something is wanted is that of a read. -/
theorem isRead_of_content {bus : BitVec 32} {c : Content} (h : r.content bus = .ok c)
    (hread : c.type.isRead = false) :
    r.wanted = 0 ∧ ∀ addr command, r ≠ .smbRead addr command .blockData := by
  cases r with
  | i2c msg =>
    simp only [content] at h
    split at h
    · cases h
      cases hread
    · rename_i hwrite
      exact ⟨if_neg hwrite, by simp⟩
  | smbRead addr command size =>
    obtain ⟨p, hp, rfl⟩ := map_eq_ok h
    cases hread
  | smbWrite addr command size data => exact ⟨rfl, by simp⟩

theorem onlySupplied_of (h : reply.Taken → r.wanted ≤ reply.len.toNat) : r.OnlySupplied reply := by
  intro id s e signalled buf hs hroom he hp hok
  cases hwait : EventQueue.waitResult e signalled with
  | error err =>
    rw [finish, hwait] at hok
    cases hok
  | ok u =>
    obtain ⟨hstatus, rfl⟩ := Observed.waitResult_ok hwait
    rw [finish, hwait] at hok ⊢
    dsimp only at hok ⊢
    have hr := answered_of_reachable hs
    obtain ⟨d, hd, hdone⟩ := hr.removed hp
    obtain rfl := Option.some.inj (he.symm.trans hd)
    obtain ⟨e₀, ⟨bus, hbus⟩, htake, hcontent⟩ := hr.done e he hdone hstatus
    cases hread : e₀.content.type.isRead with
    | true =>
      have htaken := taken_of_takeReply hread htake
      rw [takeReply_of_taken hread htaken] at hcontent
      have hlen := h htaken
      refine ⟨hlen, copyReply_supplied hroom hlen (hcontent ▸ rfl) (fun i hi => ?_) hok⟩
      rw [← hcontent]
      exact if_pos hi
    | false =>
      obtain ⟨hwanted, hblock⟩ := isRead_of_content hbus hread
      rw [hwanted]
      refine ⟨Nat.zero_le _, ?_⟩
      have hempty : r.supplied reply = [] := by
        unfold supplied
        split
        · exact absurd rfl (hblock _ _)
        · rw [hwanted]
          rfl
      rw [hempty]
      exact List.nil_prefix

/-- A run in which the simulator answers the request with the reply. -/
theorem exists_answered {c : Content} (hc : r.content 0 = .ok c) (hread : c.type.isRead = true)
    (h : reply.Taken) : ∃ s e, simulator.ReachableUnder (r.Answers 0 reply) s ∧
      s.heap 0 = some e ∧ s.senders 0 = .removed false ∧ e.status = none := by
  have hnext : ∀ {s t : EventQueue} {a : UsimLabel},
      simulator.ReachableUnder (r.Answers 0 reply) s → PutKnown s a →
      (∀ content, a ≠ .alloc 0 content) → (∀ rp, a = .putCopy 0 rp → rp = reply) →
      s.step a = some t → simulator.ReachableUnder (r.Answers 0 reply) t :=
    fun hs hok ha hrp ht => .step hs ⟨⟨hok, fun d hd => absurd hd (ha d)⟩, hrp⟩ ht
  have h1 : simulator.ReachableUnder (r.Answers 0 reply) (EventQueue.initial.alloc 0 c) :=
    .step (.start rfl) (a := .alloc 0 c)
      ⟨⟨trivial, fun d hd => (UsimLabel.alloc.inj hd).2 ▸ ⟨0, hc⟩⟩, nofun⟩ rfl
  have h2 := hnext (a := .post 0) h1 trivial nofun nofun rfl
  have h3 := hnext (a := .usimOpen) h2 trivial nofun nofun rfl
  have h4 := hnext (a := .getBegin) h3 trivial nofun nofun rfl
  have h5 := hnext (a := .getEnd 0 true) h4 trivial nofun nofun rfl
  have h6 := hnext (a := .putBegin 1) h5
    (fun id hid => by cases hid; exact ⟨rfl, fun d hd => absurd hd List.not_mem_nil⟩)
      nofun nofun rfl
  have h7 := hnext (a := .putCopy 0 reply) h6 trivial nofun
    (fun rp hrp => (UsimLabel.putCopy.inj hrp).2.symm) rfl
  dsimp only at h7
  rw [takeReply_of_taken hread h] at h7
  have h8 := hnext (a := .complete 0 none) h7 trivial nofun nofun rfl
  have h9 := hnext (a := .drop 0) h8 trivial nofun nofun rfl
  have h10 := hnext (a := .remove 0 false) h9 trivial nofun nofun rfl
  exact ⟨_, _, h10, rfl, rfl, rfl⟩

/-- A read of fixed length posts an event, and copies whatever the reply is. -/
theorem copies_of_wanted (h : 0 < r.wanted) :
    (∃ c, r.content 0 = .ok c ∧ c.type.isRead = true) ∧
      ∀ c buf, (r.copyReply c buf).1 = .ok () := by
  cases r with
  | i2c msg =>
    have hread : msg.read = true := by
      by_contra hwrite
      rw [wanted, if_neg hwrite] at h
      exact lt_irrefl 0 h
    exact ⟨⟨⟨.i2cRead, 0, msg.addr.setWidth 32, msg.len.setWidth 32, fun _ => 0⟩,
      by rw [content, if_pos hread], rfl⟩, fun _ _ => rfl⟩
  | smbRead addr command size =>
    cases size with
    | blockData => exact absurd h (lt_irrefl 0)
    | other => exact absurd h (lt_irrefl 0)
    | _ => exact ⟨⟨_, rfl, rfl⟩, fun _ _ => rfl⟩
  | smbWrite addr command size data => exact absurd h (lt_irrefl 0)

theorem exists_roomy (r : Request) : ∃ buf, r.Roomy buf := by
  cases r with
  | i2c msg => exact ⟨.replicate msg.len.toNat 0, by simp [Roomy]⟩
  | smbRead addr command size => exact ⟨.replicate _ 0, List.length_replicate⟩
  | smbWrite addr command size data => exact ⟨.replicate _ 0, List.length_replicate⟩

/-- A reply that is taken and too short is answered with result 0. -/
theorem not_onlySupplied {r : Request} {reply : Reply} (htaken : reply.Taken)
    (hshort : reply.len.toNat < r.wanted) : ¬ r.OnlySupplied reply := by
  intro h
  obtain ⟨⟨c, hc, hread⟩, hcopy⟩ := r.copies_of_wanted (Nat.zero_lt_of_lt hshort)
  obtain ⟨s, e, hs, he, hp, hstatus⟩ := exists_answered hc hread htaken
  obtain ⟨buf, hroom⟩ := r.exists_roomy
  have hok : (r.finish e false buf).1 = .ok () := by
    rw [finish, EventQueue.waitResult, hstatus]
    exact hcopy _ _
  exact absurd (h 0 s e false buf hs hroom he hp hok).1 (not_le.mpr hshort)

end Request

/-- The caller gets only what the reply supplies if and only if a reply that is taken has all the
bytes that a read of fixed length asks for. A block asks for none. -/
theorem onlySupplied_iff {r : Request} {reply : Reply} :
    r.OnlySupplied reply ↔ (reply.Taken → r.wanted ≤ reply.len.toNat) :=
  ⟨fun h htaken => not_lt.mp fun hshort => Request.not_onlySupplied htaken hshort h,
    Request.onlySupplied_of⟩

/-- A read of one byte that is answered with none succeeds, with the command for its byte. -/
theorem command_returned : ¬ ∀ (addr : BitVec 16) (command : BitVec 8) (reply : Reply),
    reply.len.toNat ≤ dataSize → (Request.smbRead addr command .byteData).OnlySupplied reply := by
  intro h
  have hshort : (0 : BitVec 32).toNat < (Request.smbRead 0x20 7 .byteData).wanted := by decide
  exact Request.not_onlySupplied ⟨rfl, by decide, by decide⟩ hshort
    (h _ _ ⟨true, 0, 0, fun _ => 0⟩ (by decide))

end BifrostModule.Usim
