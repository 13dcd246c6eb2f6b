import BifrostModule.Usim.Replies
import BifrostModule.Animal.WriteRead

/-! # What a transfer reports of its messages

`i2c_usim_xfer` executes every message and returns how many of them completed. The
ioctls of `i2c_main.c` take what it returns for an errno.
-/
namespace BifrostModule.Usim
open Foundation Animal

/-- How the event of a message ends: it is not allocated, or its wait returns. -/
inductive EventEnd where
  | noMemory
  | waited (e : Event) (signalled : Bool)

namespace EventEnd

def result : EventEnd → Except Errno Unit
  | noMemory => .error .ENOMEM
  | waited e signalled => EventQueue.waitResult e signalled

def Completes (e : EventEnd) : Prop := e.result = .ok ()

end EventEnd

/-- `usim_i2c_read` or `usim_i2c_write`, with the message as it is left. -/
def usimI2c (msg : I2cMsg) : EventEnd → Except Errno Unit × I2cMsg
  | .noMemory => (.error .ENOMEM, msg)
  | .waited e signalled =>
    let finished := Request.finish (.i2c msg) e signalled msg.buf
    (finished.1, { msg with buf := finished.2 })

/-- The loop of `i2c_usim_xfer`, with the results and the messages so far. -/
structure XferRun where
  count : ℕ
  executed : List (Except Errno Unit)
  msgs : List I2cMsg

def xferMessage (events : ℕ → EventEnd) (r : XferRun) (msg : I2cMsg) : XferRun :=
  let sent := usimI2c msg (events r.executed.length)
  { count := if sent.1.isOk then r.count + 1 else r.count
    executed := r.executed ++ [sent.1]
    msgs := r.msgs ++ [sent.2] }

/-- `i2c_usim_xfer`, which returns the count. -/
def i2cUsimXfer (events : ℕ → EventEnd) (msgs : List I2cMsg) : XferRun :=
  msgs.foldl (xferMessage events) ⟨0, [], []⟩

/-- `i2c_transfer` over this adapter; a read is delivered into the buffer of the last message. -/
def i2cTransfer (events : ℕ → EventEnd) (msgs : List I2cMsg) : Transferred :=
  let r := i2cUsimXfer events msgs
  ⟨.ok r.count, (r.msgs.getLast?.map I2cMsg.buf).getD []⟩

/-- `ANIMAL_IOCTL_I2C_WRITE`; `copiedIn` is whether the bytes of the user can be read. -/
def i2cWrite (mem : HandlerMemory) (transfer : List I2cMsg → Transferred) (copiedIn : Bool)
    (addr : BitVec 16) (command : BitVec 8) (size : BitVec 32) (user : ℕ → BitVec 8) :
    Except Errno ℕ :=
  match mem.i2cWriteMsgs addr command size user with
  | .error err => .error err
  | .ok msgs => if copiedIn = false then .error .EFAULT else (transfer msgs).rc

/-- A use of the adapter: by the I2C core, or through an ioctl that was given its arguments. -/
inductive AdapterUse where
  | xfer (msgs : List I2cMsg)
  | write (mem : HandlerMemory) (copiedIn : Bool) (addr : BitVec 16) (command : BitVec 8)
      (size : BitVec 32) (user : ℕ → BitVec 8)
  | writeread (mem : HandlerMemory) (userOk : Bool) (room : ℕ) (addr : BitVec 16)
      (command : BitVec 8) (size : BitVec 32)

namespace AdapterUse

def messages : AdapterUse → Option (List I2cMsg)
  | xfer msgs => some msgs
  | write mem copiedIn addr command size user =>
    if copiedIn then (mem.i2cWriteMsgs addr command size user).toOption else none
  | writeread mem _ _ addr command size => (mem.i2cWritereadMsgs addr command size).toOption

def AllCompleted (events : ℕ → EventEnd) (u : AdapterUse) : Prop :=
  ∃ msgs, u.messages = some msgs ∧ ∀ rc ∈ (i2cUsimXfer events msgs).executed, rc = .ok ()

/-- The count is the number of messages before the first that failed, which is the last that was
executed; the ioctls return no error, and copy to the user, only if all messages completed. -/
def Reports (events : ℕ → EventEnd) : AdapterUse → Prop
  | xfer msgs => ∃ failed : List (Except Errno Unit),
      (i2cUsimXfer events msgs).executed =
        List.replicate (i2cUsimXfer events msgs).count (.ok ()) ++ failed ∧
      failed.length ≤ 1 ∧ .ok () ∉ failed ∧
      ((i2cUsimXfer events msgs).count = msgs.length → failed = [])
  | write mem copiedIn addr command size user =>
      (i2cWrite mem (i2cTransfer events) copiedIn addr command size user).isOk →
      (write mem copiedIn addr command size user).AllCompleted events
  | writeread mem userOk room addr command size =>
      (mem.i2cWriteread (i2cTransfer events) userOk room addr command size).rc.isOk ∨
        (mem.i2cWriteread (i2cTransfer events) userOk room addr command size).sent.isSome →
      (writeread mem userOk room addr command size).AllCompleted events

/-- Of the messages that reach the adapter, all complete, or all but the last if the I2C core is
the one to look at the count. -/
def Complete (events : ℕ → EventEnd) : AdapterUse → Prop
  | xfer msgs => ∀ n, n + 1 < msgs.length → (events n).Completes
  | u => ∀ msgs, u.messages = some msgs → ∀ n < msgs.length, (events n).Completes

end AdapterUse

variable {events : ℕ → EventEnd} {msgs : List I2cMsg}

@[simp] theorem usimI2c_result (msg : I2cMsg) (e : EventEnd) : (usimI2c msg e).1 = e.result := by
  cases e with
  | noMemory => rfl
  | waited e signalled =>
    rw [usimI2c, Request.finish, EventEnd.result]
    cases EventQueue.waitResult e signalled <;> rfl

theorem i2cUsimXfer_concat (events : ℕ → EventEnd) (msgs : List I2cMsg) (msg : I2cMsg) :
    i2cUsimXfer events (msgs ++ [msg]) = xferMessage events (i2cUsimXfer events msgs) msg := by
  rw [i2cUsimXfer, List.foldl_append]
  rfl

theorem executed_eq (events : ℕ → EventEnd) (msgs : List I2cMsg) :
    (i2cUsimXfer events msgs).executed =
      (List.range msgs.length).map fun n => (events n).result := by
  induction msgs using List.reverseRecOn with
  | nil => rfl
  | append_singleton msgs msg ih =>
    have hlength := congrArg List.length ih
    rw [List.length_map, List.length_range] at hlength
    rw [i2cUsimXfer_concat, xferMessage, usimI2c_result, hlength, ih, List.length_append,
      List.length_singleton, List.range_succ, List.map_append, List.map_singleton]

theorem count_eq (events : ℕ → EventEnd) (msgs : List I2cMsg) :
    (i2cUsimXfer events msgs).count =
      (i2cUsimXfer events msgs).executed.countP fun rc => rc.isOk := by
  induction msgs using List.reverseRecOn with
  | nil => rfl
  | append_singleton msgs msg ih =>
    rw [i2cUsimXfer_concat, xferMessage]
    dsimp only
    rw [List.countP_append, ← ih, List.countP_singleton]
    split <;> rfl

/-- Where all messages but the last complete, the results are those of a run that ends with the
first failure. -/
theorem executed_of_complete (h : ∀ n, n + 1 < msgs.length → (events n).Completes) :
    ∃ failed : List (Except Errno Unit), (i2cUsimXfer events msgs).executed =
        List.replicate (i2cUsimXfer events msgs).count (.ok ()) ++ failed ∧
      failed.length ≤ 1 ∧ .ok () ∉ failed ∧
      ((i2cUsimXfer events msgs).count = msgs.length → failed = []) := by
  rw [count_eq, executed_eq]
  cases hlength : msgs.length with
  | zero => exact ⟨[], rfl, Nat.zero_le 1, List.not_mem_nil, fun _ => rfl⟩
  | succ m =>
    have hall : (List.range m).map (fun n => (events n).result) =
        List.replicate m (.ok ()) := by
      apply List.eq_replicate_iff.mpr
      refine ⟨by simp, fun rc hrc => ?_⟩
      obtain ⟨n, hn, rfl⟩ := List.mem_map.mp hrc
      exact h n (by rw [hlength]; exact Nat.succ_lt_succ (List.mem_range.mp hn))
    have hcount : (List.replicate m (.ok () : Except Errno Unit)).countP
      (fun rc => rc.isOk) = m := by
      simp [List.countP_replicate, Except.isOk, Except.toBool]
    rw [List.range_succ, List.map_append, hall, List.countP_append, hcount, List.map_singleton,
      List.countP_singleton]
    cases hlast : (events m).result with
    | ok u =>
      exact ⟨[], by simp [Except.isOk, Except.toBool, List.replicate_succ'], by simp, by simp,
        fun _ => rfl⟩
    | error err =>
      exact ⟨[.error err], by simp [Except.isOk, Except.toBool], by simp, by simp,
        by simp [Except.isOk, Except.toBool]⟩

/-- Such results mean that only the last message may have failed. -/
theorem complete_of_executed {k : ℕ} {failed : List (Except Errno Unit)}
    (h : (i2cUsimXfer events msgs).executed = List.replicate k (.ok ()) ++ failed)
    (hfailed : failed.length ≤ 1) {n : ℕ} (hn : n + 1 < msgs.length) : (events n).Completes := by
  rw [executed_eq] at h
  have hlength := congrArg List.length h
  simp only [List.length_map, List.length_range, List.length_append, List.length_replicate]
    at hlength
  have hnk : n < k := by omega
  have hget := congrArg (fun l : List (Except Errno Unit) => l[n]?) h
  rw [List.getElem?_append_left (by simpa using hnk), List.getElem?_map,
    List.getElem?_range (by omega), List.getElem?_replicate, if_pos hnk] at hget
  exact Option.some.inj hget

theorem allCompleted_iff {u : AdapterUse} (h : u.messages = some msgs) :
    u.AllCompleted events ↔ ∀ n < msgs.length, (events n).Completes := by
  constructor
  · rintro ⟨msgs', hmsgs', hall⟩ n hn
    obtain rfl := Option.some.inj (hmsgs'.symm.trans h)
    apply hall
    rw [executed_eq]
    exact List.mem_map_of_mem (List.mem_range.mpr hn)
  · intro hall
    refine ⟨msgs, h, fun rc hrc => ?_⟩
    rw [executed_eq] at hrc
    obtain ⟨n, hn, rfl⟩ := List.mem_map.mp hrc
    exact hall n (List.mem_range.mp hn)

/-- An ioctl whose transfer is reached returns no error, so it reports its messages exactly if all
of them complete. -/
theorem imp_allCompleted_iff {u : AdapterUse} {p : Prop} (hp : p ↔ u.messages.isSome) :
    (p → u.AllCompleted events) ↔
      ∀ msgs, u.messages = some msgs → ∀ n < msgs.length, (events n).Completes := by
  constructor
  · intro h msgs hmsgs
    exact (allCompleted_iff hmsgs).mp (h (hp.mpr (by rw [hmsgs]; rfl)))
  · intro h hreturns
    obtain ⟨msgs, hmsgs⟩ := Option.isSome_iff_exists.mp (hp.mp hreturns)
    exact (allCompleted_iff hmsgs).mpr (h msgs hmsgs)

/-- What is reported of the messages is right exactly if all of them complete; the core is also told
if only the last one does not. -/
theorem reports_iff {u : AdapterUse} : u.Reports events ↔ u.Complete events := by
  cases u with
  | xfer msgs =>
    constructor
    · rintro ⟨failed, hexecuted, hlength, -⟩ n hn
      exact complete_of_executed hexecuted hlength hn
    · exact executed_of_complete
  | write mem copiedIn addr command size user =>
    apply imp_allCompleted_iff
    rw [i2cWrite, AdapterUse.messages]
    cases hmsgs : mem.i2cWriteMsgs addr command size user with
    | error err => cases copiedIn <;> simp [Except.isOk, Except.toBool, Except.toOption]
    | ok msgs => cases copiedIn <;> simp [Except.isOk, Except.toBool, Except.toOption, i2cTransfer]
  | writeread mem userOk room addr command size =>
    apply imp_allCompleted_iff
    rw [HandlerMemory.i2cWriteread, AdapterUse.messages]
    cases hmsgs : mem.i2cWritereadMsgs addr command size with
    | error err => simp [Except.isOk, Except.toBool, Except.toOption]
    | ok msgs => simp [Except.toOption, i2cTransfer]

/-- A write whose event is not allocated returns 0. -/
theorem failed_write_succeeds : ¬ ∀ (events : ℕ → EventEnd) (u : AdapterUse), u.Reports events := by
  intro h
  let mem : HandlerMemory := ⟨.replicate _ 0, none⟩
  obtain ⟨msgs, hmsgs, hall⟩ := h (fun _ => .noMemory) (.write mem true 0x20 7 1 fun _ => 0) rfl
  obtain rfl := Option.some.inj hmsgs
  exact absurd (hall (.error .ENOMEM) (by decide)) (by decide)

end BifrostModule.Usim
