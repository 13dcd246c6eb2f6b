import BifrostModule.Animal.Messages
import BifrostModule.Usim.Line

/-! # The copies into and out of the data area of an event

Each transfer that reaches the simulator adapter makes one event. Its data area has
512 bytes; whoever builds the event, gets it, puts it or takes the reply from it
copies into or out of that area. The copies are read off the steps of the queue.
-/
namespace BifrostModule.Usim
open Foundation Animal

/-- The size of `data` in `struct event` and in `struct i2c_usim_ioc_event`. -/
def dataSize : ℕ := 512

def smbusBlockMax : ℕ := 32

/-- The transaction types of `smb_usim_xfer`; `other` stands for those it refuses. -/
inductive SmbusSize where
  | byte
  | byteData
  | wordData
  | blockData
  | other
  deriving DecidableEq

/-- The bytes of `union i2c_smbus_data`. -/
abbrev SmbusData := Vector (BitVec 8) (smbusBlockMax + 2)

/-- A part of the union: how many bytes are copied, where they begin, and the size of the member. -/
structure Part where
  len : ℕ
  offset : ℕ
  room : ℕ

/-- `len` and `buf` of `usim_smb_read`. -/
def smbReadPart : SmbusSize → Except Errno Part
  | .byte => .ok ⟨1, 0, 1⟩
  | .byteData => .ok ⟨1, 0, 1⟩
  | .wordData => .ok ⟨2, 0, 2⟩
  | .blockData => .ok ⟨2 + smbusBlockMax, 1, smbusBlockMax + 1⟩
  | .other => .error .EINVAL

/-- `len` and `buf` of `usim_smb_write`. A block begins with its length. -/
def smbWritePart (data : SmbusData) : SmbusSize → Except Errno Part
  | .byte => .ok ⟨0, 0, 0⟩
  | .byteData => .ok ⟨1, 0, 1⟩
  | .wordData => .ok ⟨2, 0, 2⟩
  | .blockData =>
    let len := data[0].toNat
    if len = 0 ∨ len > smbusBlockMax then .error .EINVAL else .ok ⟨len, 1, smbusBlockMax + 1⟩
  | .other => .error .EINVAL

/-- What the i2c core asks of the adapter: one message of `i2c_usim_xfer`, or `smb_usim_xfer`. -/
inductive Request where
  | i2c (msg : I2cMsg)
  | smbRead (addr : BitVec 16) (command : BitVec 8) (size : SmbusSize)
  | smbWrite (addr : BitVec 16) (command : BitVec 8) (size : SmbusSize) (data : SmbusData)

namespace Request

/-- The event that `usim_i2c_read`, `usim_i2c_write`, `usim_smb_read` or `usim_smb_write` posts. -/
def content (bus : BitVec 32) : Request → Except Errno Content
  | i2c msg =>
    if msg.read then .ok ⟨.i2cRead, bus, msg.addr.setWidth 32, msg.len.setWidth 32, fun _ => 0⟩
    else
      let data := fun i => if i < msg.len.toNat then msg.buf.getD i 0 else 0
      .ok ⟨.i2cWrite, bus, msg.addr.setWidth 32, msg.len.setWidth 32, data⟩
  | smbRead addr command size =>
    (smbReadPart size).map fun p =>
      let data := fun i => if i = 0 then command else 0
      ⟨.smbRead, bus, addr.setWidth 32, BitVec.ofNat 32 p.len, data⟩
  | smbWrite addr command size data =>
    (smbWritePart data size).map fun p =>
      let bytes := fun i =>
        if i = 0 then command
        else if i < 1 + p.len then data.toList.getD (p.offset + (i - 1)) 0 else 0
      ⟨.smbWrite, bus, addr.setWidth 32, BitVec.ofNat 32 (1 + p.len), bytes⟩

def buildCopies : Request → List Copy
  | i2c msg => if msg.read then [] else [⟨msg.len.toNat, msg.buf.length, dataSize⟩]
  | smbRead _ _ _ => [⟨1, 1, dataSize⟩]
  | smbWrite _ _ size data =>
    match smbWritePart data size with
    | .error _ => []
    | .ok p => [⟨1, 1, dataSize⟩, ⟨p.len, p.room, dataSize - 1⟩]

/-- The copy of the reply after a wait with result 0, out of an area of the given size. Only a
block takes the length that the simulator has put. -/
def replyCopies (len : BitVec 32) (area : ℕ) : Request → List Copy
  | i2c msg => if msg.read then [⟨msg.len.toNat, area, msg.buf.length⟩] else []
  | smbRead _ _ size =>
    match smbReadPart size with
    | .error _ => []
    | .ok p =>
      let n :=
        if size = .blockData then
          if 0 < len.toNat ∧ len.toNat ≤ smbusBlockMax then len.toNat else 0
        else p.len
      [⟨n, area, p.room⟩]
  | smbWrite _ _ _ _ => []

end Request

/-- The data area is there as long as the event is allocated. -/
def Event.area (e : Event) : ℕ := if e.live then dataSize else 0

/-- The copy of GET. Of an event that is read, the first byte may be the command. -/
def Event.getCopies (e : Event) : List Copy :=
  [⟨if e.content.type.isRead then 1 else e.content.len.toNat, e.area, dataSize⟩]

/-- The copy of PUT, made when `len` could be read and is not too large. -/
def Event.putCopies (e : Event) (reply : Reply) : List Copy :=
  if e.content.type.isRead ∧ reply.lenRead ∧ reply.len.toNat ≤ dataSize then
    [⟨reply.len.toNat, dataSize, e.area⟩]
  else []

/-- The copies that a step makes for the event `id` of a request. -/
def Request.copies (r : Request) (id : ℕ) (s : EventQueue) : UsimLabel → List Copy
  | .alloc j _ => if j = id then r.buildCopies else []
  | .getEnd j _ => if j = id then (s.heap id).elim [] Event.getCopies else []
  | .putCopy j reply => if j = id then (s.heap id).elim [] (·.putCopies reply) else []
  | .leave j =>
    if j = id then
      match s.heap id, s.senders id with
      | some e, .removed signalled =>
        match EventQueue.waitResult e signalled with
        | .ok _ => r.replyCopies e.content.len e.area
        | .error _ => []
      | _, _ => []
    else []
  | _ => []

/-- The event `id` is the one of the request, and every PUT names a known event. -/
def Carries (r : Request) (id : ℕ) (s : EventQueue) (a : UsimLabel) : Prop :=
  PutKnown s a ∧ ∀ content, a = .alloc id content → ∃ bus, r.content bus = .ok content

/-- Whatever the simulator and the other senders do, every copy for the event of the request stays
inside the data area and inside the other buffer. -/
def Request.CopiesInside (r : Request) : Prop :=
  ∀ id s a t, simulator.ReachableUnder (Carries r id) s → Carries r id s a →
    simulator.step s a = some t → ∀ c ∈ r.copies id s a, c.Inside

/-- The transfers of the ioctls of a handle. What the i2c core passes on for the value or the block
of an SMBus write is left open. -/
inductive Ioctl where
  | smbRead8 (command : BitVec 8)
  | smbWrite8 (command : BitVec 8)
  | smbRead16 (command : BitVec 8)
  | smbWrite16 (command : BitVec 8)
  | smbReadBlock (command : BitVec 8)
  | smbWriteBlock (command : BitVec 8)
  | i2cWrite (command : BitVec 8) (size : BitVec 32) (user : ℕ → BitVec 8)
  | i2cWriteread (command : BitVec 8) (size : BitVec 32)

namespace Ioctl

def requests (mem : HandlerMemory) (addr : BitVec 16) (data : SmbusData) :
    Ioctl → Except Errno (List Request)
  | smbRead8 command => .ok [.smbRead addr command .byteData]
  | smbWrite8 command => .ok [.smbWrite addr command .byteData data]
  | smbRead16 command => .ok [.smbRead addr command .wordData]
  | smbWrite16 command => .ok [.smbWrite addr command .wordData data]
  | smbReadBlock command => .ok [.smbRead addr command .blockData]
  | smbWriteBlock command => .ok [.smbWrite addr command .blockData data]
  | i2cWrite command size user =>
    (mem.i2cWriteMsgs addr command size user).map (List.map .i2c)
  | i2cWriteread command size => (mem.i2cWritereadMsgs addr command size).map (List.map .i2c)

/-- The message with the data has room in the data area. -/
def Fits : Ioctl → Prop
  | i2cWrite _ size _ => size.toNat + 1 ≤ dataSize
  | i2cWriteread _ size => size.toNat ≤ dataSize
  | _ => True

end Ioctl

namespace EventQueue
variable {s t : EventQueue} {id : ℕ} {e : Event}

theorem Inv.call_live (hi : s.Inv) {c : UsimCall} (hc : c ∈ s.calls)
    (he : s.heap c.event = some e) : e.live = true := by
  have hs := hi.sound c.event e he
  have hnonneg := (s.view c.event).sender.refs_nonneg
  have hcalls := (hi.calls_eq c.event hc rfl).1
  have hst := hs.stage
  rw [hs.live, decide_eq_true_eq]
  unfold Stage at hst
  rw [hcalls] at hst
  split at hst
  · exact absurd hst.1 (Multiset.singleton_ne_zero _)
  · omega
  · rcases hst.2.2.2 with ⟨-, -, hrefs⟩ | ⟨-, hzero, -⟩
    · omega
    · exact absurd hzero (Multiset.singleton_ne_zero _)

theorem Inv.sender_live (hi : s.Inv) (he : s.heap id = some e) {signalled : Bool}
    (hp : s.senders id = .removed signalled) : e.live = true := by
  by_contra hfree
  have hrefs := (hi.freed he (by simpa using hfree)).2
  rw [hp] at hrefs
  exact absurd hrefs one_ne_zero

end EventQueue

namespace Request
variable {r : Request} {id : ℕ} {s t : EventQueue} {a : UsimLabel}

/-- The message of an I2C request has room in the data area. -/
def Fits : Request → Prop
  | i2c msg => msg.len.toNat ≤ dataSize
  | _ => True

def Sized : Request → Prop
  | i2c msg => msg.len.toNat ≤ msg.buf.length
  | _ => True

def Carried (r : Request) (id : ℕ) (s : EventQueue) : Prop :=
  ∀ e, s.heap id = some e → ∃ bus c, r.content bus = .ok c ∧ e.content.type = c.type ∧
    (c.type.isRead = false → e.content = c)

theorem Carried.step (hr : r.Carried id s) (hi : s.Inv) (hok : Carries r id s a)
    (h : s.Step a t) : r.Carried id t := by
  intro e' he'
  by_cases ha : ∃ content, a = .alloc id content
  · obtain ⟨content, rfl⟩ := ha
    obtain ⟨bus, hc⟩ := hok.2 content rfl
    cases h with
    | alloc he =>
      have hnew : Function.update s.heap id (some (Event.alloc (s.counter + 1) content)) id =
          some e' := he'
      rw [Function.update_self] at hnew
      obtain rfl := Option.some.inj hnew
      exact ⟨bus, content, hc, rfl, fun _ => rfl⟩
  · obtain ⟨e, he, hf⟩ := h.back hi (fun content heq => ha ⟨content, heq⟩) he'
    obtain ⟨bus, c, hc, htype, hwritten⟩ := hr e he
    refine ⟨bus, c, hc, hf.type.trans htype, fun hwrite => ?_⟩
    exact (hf.written (htype ▸ hwrite)).trans (hwritten hwrite)

theorem carried_of_reachable (h : simulator.ReachableUnder (Carries r id) s) :
    s.Inv ∧ r.Carried id s := by
  refine Machine.ReachableUnder.invariant (I := fun s => s.Inv ∧ r.Carried id s) ?_ ?_ h
  · rintro _ rfl
    exact ⟨⟨fun _ _ => rfl, fun _ _ h => nomatch h⟩, fun _ h => nomatch h⟩
  · intro s a t hi hok hstep
    exact ⟨(EventQueue.keeps_step hi.1 hok.1 hstep).1,
      hi.2.step hi.1 hok (EventQueue.Step.of_step hstep)⟩

theorem smbWritePart_inside {data : SmbusData} {size : SmbusSize} {p : Part}
    (h : smbWritePart data size = .ok p) : p.len ≤ p.room ∧ p.len ≤ smbusBlockMax := by
  cases size with
  | blockData =>
    simp only [smbWritePart] at h
    split at h
    · cases h
    · cases h
      simp only [smbusBlockMax] at *
      omega
  | other => cases h
  | _ =>
    cases h
    simp [smbusBlockMax]

theorem smbReadPart_inside {size : SmbusSize} {p : Part} (h : smbReadPart size = .ok p) :
    (size = .blockData → p.room = smbusBlockMax + 1) ∧
      (size ≠ .blockData → p.len ≤ p.room ∧ p.len ≤ smbusBlockMax) := by
  cases size with
  | other => cases h
  | _ =>
    cases h
    simp [smbusBlockMax]

theorem content_len {bus : BitVec 32} {c : Content} (h : r.content bus = .ok c) (hf : r.Fits)
    (hwrite : c.type.isRead = false) : c.len.toNat ≤ dataSize := by
  cases r with
  | i2c msg =>
    simp only [content] at h
    split at h
    · cases h
      cases hwrite
    · cases h
      rw [BitVec.toNat_setWidth]
      exact (Nat.mod_le _ _).trans hf
  | smbRead addr command size =>
    obtain ⟨p, hp, rfl⟩ := map_eq_ok h
    cases hwrite
  | smbWrite addr command size data =>
    obtain ⟨p, hp, rfl⟩ := map_eq_ok h
    have hlen := (smbWritePart_inside hp).2
    simp only [smbusBlockMax, BitVec.toNat_ofNat, dataSize] at *
    omega

theorem buildCopies_inside (hs : r.Sized) (hf : r.Fits) : ∀ c ∈ r.buildCopies, c.Inside := by
  intro c hc
  cases r with
  | i2c msg =>
    simp only [buildCopies] at hc
    split at hc
    · cases hc
    · obtain rfl := List.mem_singleton.mp hc
      exact ⟨hs, hf⟩
  | smbRead addr command size =>
    obtain rfl := List.mem_singleton.mp hc
    exact ⟨le_rfl, by simp [dataSize]⟩
  | smbWrite addr command size data =>
    simp only [buildCopies] at hc
    split at hc
    · cases hc
    · rename_i p hp
      obtain ⟨hroom, hlen⟩ := smbWritePart_inside hp
      rcases List.mem_cons.mp hc with rfl | hc
      · exact ⟨le_rfl, by simp [dataSize]⟩
      · obtain rfl := List.mem_singleton.mp hc
        exact ⟨hroom, hlen.trans (by simp [smbusBlockMax, dataSize])⟩

theorem replyCopies_inside (hs : r.Sized) (hf : r.Fits) (len : BitVec 32) :
    ∀ c ∈ r.replyCopies len dataSize, c.Inside := by
  intro c hc
  cases r with
  | i2c msg =>
    simp only [replyCopies] at hc
    split at hc
    · obtain rfl := List.mem_singleton.mp hc
      exact ⟨hf, hs⟩
    · cases hc
  | smbRead addr command size =>
    simp only [replyCopies] at hc
    split at hc
    · cases hc
    · rename_i p hp
      obtain ⟨hblock, hother⟩ := smbReadPart_inside hp
      obtain rfl := List.mem_singleton.mp hc
      have hle : (if 0 < len.toNat ∧ len.toNat ≤ smbusBlockMax then len.toNat else 0) ≤
          smbusBlockMax := by
        split_ifs with hlen
        · exact hlen.2
        · exact Nat.zero_le _
      have hmax : smbusBlockMax ≤ dataSize := by simp [smbusBlockMax, dataSize]
      by_cases hsize : size = .blockData
      · rw [if_pos hsize]
        exact ⟨hle.trans hmax, hle.trans (hblock hsize ▸ Nat.le_succ _)⟩
      · rw [if_neg hsize]
        exact ⟨(hother hsize).2.trans hmax, (hother hsize).1⟩
  | smbWrite addr command size data => cases hc

theorem copiesInside_of_fits (hs : r.Sized) (hf : r.Fits) : r.CopiesInside := by
  intro id s a t h hok hstep c hc
  obtain ⟨hi, hcarried⟩ := carried_of_reachable h
  have hst := EventQueue.Step.of_step hstep
  cases a with
  | alloc j content =>
    simp only [copies] at hc
    split at hc
    · exact buildCopies_inside hs hf c hc
    · cases hc
  | getEnd j copied =>
    simp only [copies] at hc
    split_ifs at hc with hj
    · subst hj
      cases he : s.heap j with
      | none => simp [he] at hc
      | some e =>
        have hcall : .getting j ∈ s.calls := by
          cases hst
          assumption
        have hlive := hi.call_live hcall he
        simp only [he, Option.elim_some, Event.getCopies, Event.area, hlive, if_true,
          List.mem_singleton] at hc
        subst hc
        obtain ⟨bus, c, hcontent, htype, hwritten⟩ := hcarried e he
        have hlen : (if e.content.type.isRead then 1 else e.content.len.toNat) ≤ dataSize := by
          split_ifs with hread
          · simp [dataSize]
          · have hwrite : c.type.isRead = false := by simpa [← htype] using hread
            rw [hwritten hwrite]
            exact content_len hcontent hf hwrite
        exact ⟨hlen, hlen⟩
    · cases hc
  | putCopy j reply =>
    simp only [copies] at hc
    split_ifs at hc with hj
    · subst hj
      cases he : s.heap j with
      | none => simp [he] at hc
      | some e =>
        have hcall : .putting j ∈ s.calls := by
          cases hst
          assumption
        have hlive := hi.call_live hcall he
        simp only [he, Option.elim_some, Event.putCopies, Event.area, hlive, if_true] at hc
        split_ifs at hc with hlen
        · obtain rfl := List.mem_singleton.mp hc
          exact ⟨hlen.2.2, hlen.2.2⟩
        · cases hc
    · cases hc
  | leave j =>
    simp only [copies] at hc
    split_ifs at hc with hj
    · subst hj
      split at hc
      · rename_i e signalled he hp
        have hlive := hi.sender_live he hp
        split at hc
        · rw [Event.area, if_pos hlive] at hc
          exact replyCopies_inside hs hf _ c hc
        · cases hc
      · cases hc
    · cases hc
  | _ => cases hc

/-- The new event of a write is filled beyond its data area. -/
theorem write_not_inside {msg : I2cMsg} (hw : msg.read = false) (hlen : dataSize < msg.len.toNat) :
    ¬ (i2c msg).CopiesInside := by
  intro h
  have hcontent : ∃ c, (i2c msg).content 0 = .ok c := by simp [content, hw]
  obtain ⟨c, hc⟩ := hcontent
  have hcopies : (i2c msg).buildCopies = [⟨msg.len.toNat, msg.buf.length, dataSize⟩] := by
    simp [buildCopies, hw]
  have hinside := h 0 .initial (.alloc 0 c) _ (.start rfl)
    ⟨trivial, fun d hd => (UsimLabel.alloc.inj hd).2 ▸ ⟨0, hc⟩⟩ rfl
    ⟨msg.len.toNat, msg.buf.length, dataSize⟩ (by simp [copies, hcopies])
  exact absurd hinside.2 (not_le.mpr hlen)

/-- The reply of a read that the simulator completes is taken from beyond the data area. -/
theorem read_not_inside {msg : I2cMsg} (hr : msg.read = true) (hlen : dataSize < msg.len.toNat) :
    ¬ (i2c msg).CopiesInside := by
  intro h
  obtain ⟨addr, len, hc⟩ : ∃ addr len,
      (i2c msg).content 0 = .ok ⟨.i2cRead, 0, addr, len, fun _ => 0⟩ := by
    simp [content, hr]
  set c : Content := ⟨.i2cRead, 0, addr, len, fun _ => 0⟩
  have hnext : ∀ {s t : EventQueue} {a : UsimLabel},
      simulator.ReachableUnder (Carries (i2c msg) 0) s → PutKnown s a →
      (∀ content, a ≠ .alloc 0 content) → s.step a = some t →
      simulator.ReachableUnder (Carries (i2c msg) 0) t :=
    fun hs hok ha ht => .step hs ⟨hok, fun d hd => absurd hd (ha d)⟩ ht
  have h1 : simulator.ReachableUnder (Carries (i2c msg) 0) (EventQueue.initial.alloc 0 c) :=
    .step (.start rfl) (a := .alloc 0 c) ⟨trivial, fun d hd => (UsimLabel.alloc.inj hd).2 ▸ ⟨0, hc⟩⟩
      rfl
  have h2 := hnext (a := .post 0) h1 trivial nofun rfl
  have h3 := hnext (a := .usimOpen) h2 trivial nofun rfl
  have h4 := hnext (a := .getBegin) h3 trivial nofun rfl
  have h5 := hnext (a := .getEnd 0 true) h4 trivial nofun rfl
  have h6 := hnext (a := .putBegin 1) h5
    (fun id hid => by cases hid; exact ⟨rfl, fun d hd => absurd hd List.not_mem_nil⟩) nofun rfl
  have h7 := hnext (a := .putCopy 0 ⟨true, 0, 0, fun _ => 0⟩) h6 trivial nofun rfl
  have h8 := hnext (a := .complete 0 none) h7 trivial nofun rfl
  have h9 := hnext (a := .drop 0) h8 trivial nofun rfl
  have h10 := hnext (a := .remove 0 false) h9 trivial nofun rfl
  have hmem : (⟨msg.len.toNat, dataSize, msg.buf.length⟩ : Copy) ∈
      (i2c msg).replyCopies 0 dataSize := by
    simp [replyCopies, hr]
  have hinside := h 0 _ (.leave 0) _ h10 ⟨trivial, nofun⟩ rfl
    ⟨msg.len.toNat, dataSize, msg.buf.length⟩ hmem
  exact absurd hinside.1 (not_le.mpr hlen)

theorem copiesInside_iff (hs : r.Sized) : r.CopiesInside ↔ r.Fits := by
  refine ⟨fun h => ?_, copiesInside_of_fits hs⟩
  cases r with
  | i2c msg =>
    by_contra hf
    cases hread : msg.read with
    | false => exact write_not_inside hread (not_le.mp hf) h
    | true => exact read_not_inside hread (not_le.mp hf) h
  | _ => trivial

end Request

/-- A transfer of the ioctls keeps all copies inside, whatever the simulator puts, exactly if its
data fit in the data area of an event. -/
theorem copies_inside_iff {io : Ioctl} {mem : HandlerMemory} {addr : BitVec 16} {data : SmbusData}
    {rs : List Request} (h : io.requests mem addr data = .ok rs) :
    (∀ r ∈ rs, r.CopiesInside) ↔ io.Fits := by
  have hsmb : ∀ {r : Request}, r.Sized → r.Fits → (Except.ok [r] : Except Errno _) = .ok rs →
      ((∀ r ∈ rs, r.CopiesInside) ↔ True) := by
    intro r hs hf heq
    cases heq
    simpa using Request.copiesInside_of_fits hs hf
  cases io with
  | i2cWrite command size user =>
    obtain ⟨msgs, hmsgs, rfl⟩ := map_eq_ok h
    obtain ⟨msg, rfl, hread, hlen, hsized⟩ := HandlerMemory.i2cWriteMsgs_ok hmsgs
    have hiff := Request.copiesInside_iff (r := .i2c msg) hsized
    simpa [Ioctl.Fits, Request.Fits, hlen] using hiff
  | i2cWriteread command size =>
    obtain ⟨msgs, hmsgs, rfl⟩ := map_eq_ok h
    obtain ⟨first, second, rfl, ⟨-, hone, hbuf⟩, hread, hlen, hsized⟩ :=
      HandlerMemory.i2cWritereadMsgs_ok hmsgs
    have hfirst : (Request.i2c first).CopiesInside := Request.copiesInside_of_fits
      (hone.trans hbuf.symm).le (hone.le.trans (by simp [dataSize]))
    have hiff := Request.copiesInside_iff (r := .i2c second) hsized
    simpa [Ioctl.Fits, Request.Fits, hlen, hfirst] using hiff
  | _ => exact hsmb (by trivial) (by trivial) h

/-- A write of 511 bytes and its command fill the data area. -/
theorem copies_inside_full : ∃ rs,
    (Ioctl.i2cWrite 7 511 fun _ => 1).requests ⟨.replicate _ 0, some fun _ => 0⟩ 0x20
        (.replicate _ 0) = .ok rs ∧ ∀ r ∈ rs, r.CopiesInside := by
  obtain ⟨rs, h⟩ : ∃ rs, (Ioctl.i2cWrite 7 511 fun _ => 1).requests
      ⟨.replicate _ 0, some fun _ => 0⟩ 0x20 (.replicate _ 0) = .ok rs := ⟨_, rfl⟩
  exact ⟨rs, h, (copies_inside_iff h).mpr (by simp [Ioctl.Fits, dataSize])⟩

/-- A write of 512 bytes is allowed, and its event is filled beyond the data area. -/
theorem copy_beyond_data : ¬ ∀ (io : Ioctl) (mem : HandlerMemory) (addr : BitVec 16)
    (data : SmbusData) (rs : List Request), io.requests mem addr data = .ok rs →
    ∀ r ∈ rs, r.CopiesInside := by
  intro h
  have hall := h (.i2cWrite 7 512 fun _ => 1) ⟨.replicate _ 0, some fun _ => 0⟩ 0x20
    (.replicate _ 0) _ rfl
  exact Request.write_not_inside rfl (by decide) (hall _ List.mem_cons_self)

end BifrostModule.Usim
