import BifrostModule.Regb.Inside

/-! # Register ioctls of any number of threads

Each access of a register ioctl takes the spinlock of its BAR. The bus operations of
different threads interleave between the locked sections, and those of different BARs
also inside them.
-/
namespace BifrostModule.Regb
open Foundation

/-- A call of `do_read_regb`, `do_write_regb` or `do_modify_regb` that `check_bar_access` has let
through. -/
inductive Access where
  | read (b : Bar) (offset : BitVec 32)
  | write (b : Bar) (offset value : BitVec 32)
  | modify (b : Bar) (offset clear set : BitVec 32)

namespace Access

def bar : Access → Bar
  | read b _ => b
  | write b _ _ => b
  | modify b _ _ _ => b

def returned (v : BitVec 32) : Access → List (BitVec 32)
  | read _ _ => [v]
  | write _ _ _ => []
  | modify _ _ _ _ => [v]

end Access

namespace BifrostDevice
variable (dev : BifrostDevice) (hw : Hardware)

def readAccesses (bar offset incr : BitVec 32) : ℕ → BitVec 32 → List Access
  | 0, _ => []
  | n + 1, i =>
    match dev.checkBarAccess bar rdAccess (offset + i * incr) with
    | .error _ => []
    | .ok b => .read b (offset + i * incr) :: readAccesses bar offset incr n (i + 1)

def writeAccesses (bar offset : BitVec 32) : List (BitVec 32) → List Access
  | [] => []
  | value :: buf =>
    match dev.checkBarAccess bar wrAccess offset with
    | .error _ => []
    | .ok b => .write b offset value :: writeAccesses bar offset buf

def modifyAccess (bar offset clear set : BitVec 32) : List Access :=
  match dev.checkBarAccess bar (rdAccess ||| wrAccess) offset with
  | .error _ => []
  | .ok b => [.modify b offset clear set]

def accesses (sys : Services) : Request → List Access
  | .readRegb bar offset => if sys.argCopied then dev.readAccesses bar offset 0 1 0 else []
  | .writeRegb bar offset value =>
    if sys.argCopied then dev.writeAccesses bar offset [value] else []
  | .modifyRegb bar offset clear set =>
    if sys.argCopied then dev.modifyAccess bar offset clear set else []
  | .readRangeRegb bar offset count =>
    if sys.argCopied ∧ sys.allocated then dev.readAccesses bar offset 4 count.toNat 0 else []
  | .readRepeatRegb bar offset count =>
    if sys.argCopied ∧ sys.allocated then dev.readAccesses bar offset 0 count.toNat 0 else []
  | .writeRepeatRegb bar offset count buf =>
    if sys.argCopied ∧ sys.allocated then
      dev.writeAccesses bar offset ((List.range count.toNat).map buf)
    else []

/-- An access without interruption: the bus operations after it. -/
def runAccess (a : Access) (log : List BusOp) : List BusOp :=
  match a with
  | .read b offset => ((dev.regb b).fns.rd hw b offset log).2
  | .write b offset value => (dev.regb b).fns.wr b offset value log
  | .modify b offset clear set =>
    let r := (dev.regb b).fns.rd hw b offset log
    (dev.regb b).fns.wr b offset ((r.1 &&& ~~~clear) ||| set) r.2

def runAccesses (as : List Access) (log : List BusOp) : List BusOp :=
  as.foldl (fun log a => dev.runAccess hw a log) log

variable {dev hw}

theorem runAccesses_read (bar offset incr : BitVec 32) (n : ℕ) (i : BitVec 32)
    (log : List BusOp) : dev.runAccesses hw (dev.readAccesses bar offset incr n i) log =
      (dev.readLoop hw bar offset incr n i log).2 := by
  induction n generalizing i log with
  | zero => rfl
  | succ n ih =>
    rw [readAccesses, readLoop, doReadRegb]
    cases dev.checkBarAccess bar rdAccess (offset + i * incr) with
    | error e => rfl
    | ok b => exact ih (i + 1) _

theorem runAccesses_write (bar offset : BitVec 32) (buf : List (BitVec 32)) (log : List BusOp) :
    dev.runAccesses hw (dev.writeAccesses bar offset buf) log =
      (dev.writeLoop bar offset buf log).2 := by
  induction buf generalizing log with
  | nil => rfl
  | cons value buf ih =>
    rw [writeAccesses, writeLoop, doWriteRegb]
    cases dev.checkBarAccess bar wrAccess offset with
    | error e => rfl
    | ok b => exact ih _

theorem runAccesses_modify (bar offset clear set : BitVec 32) (log : List BusOp) :
    dev.runAccesses hw (dev.modifyAccess bar offset clear set) log =
      (dev.doModifyRegb hw bar offset clear set log).2 := by
  unfold modifyAccess doModifyRegb
  cases dev.checkBarAccess bar (rdAccess ||| wrAccess) offset with
  | error e => rfl
  | ok b => rfl

theorem readLoop_one (bar offset : BitVec 32) (log : List BusOp) :
    (dev.readLoop hw bar offset 0 1 0 log).2 = (dev.doReadRegb hw bar offset log).2 := by
  rw [readLoop, zero_mul, add_zero]
  generalize dev.doReadRegb hw bar offset log = r
  obtain ⟨rc, log'⟩ := r
  cases rc <;> rfl

theorem writeLoop_one (bar offset value : BitVec 32) (log : List BusOp) :
    (dev.writeLoop bar offset [value] log).2 = (dev.doWriteRegb bar offset value log).2 := by
  rw [writeLoop]
  generalize dev.doWriteRegb bar offset value log = r
  obtain ⟨rc, log'⟩ := r
  cases rc <;> rfl

/-- An ioctl that gives up before its first access makes none. -/
theorem runAccesses_unless {α : Type} {p : Prop} [Decidable p] {as : List Access}
    {log : List BusOp} {e : Except Errno α} {r : Except Errno α × List BusOp}
    (h : dev.runAccesses hw as log = r.2) :
    dev.runAccesses hw (if p then as else []) log = (if ¬ p then (e, log) else r).2 := by
  by_cases hp : p
  · rw [if_pos hp, if_neg (not_not.mpr hp)]
    exact h
  · rw [if_neg hp, if_pos hp]
    rfl

/-- Alone on the bus, the accesses of an ioctl are what it does. -/
theorem runAccesses_accesses (sys : Services) (req : Request) (log : List BusOp) :
    dev.runAccesses hw (dev.accesses sys req) log = (dev.ioctl hw sys log req).2 := by
  cases req with
  | readRegb bar offset =>
    exact runAccesses_unless ((runAccesses_read bar offset 0 1 0 log).trans
      (readLoop_one bar offset log))
  | writeRegb bar offset value =>
    exact runAccesses_unless ((runAccesses_write bar offset [value] log).trans
      (writeLoop_one bar offset value log))
  | modifyRegb bar offset clear set =>
    exact runAccesses_unless (runAccesses_modify bar offset clear set log)
  | readRangeRegb bar offset count =>
    exact runAccesses_unless (runAccesses_read bar offset 4 count.toNat 0 log)
  | readRepeatRegb bar offset count =>
    exact runAccesses_unless (runAccesses_read bar offset 0 count.toNat 0 log)
  | writeRepeatRegb bar offset count buf =>
    apply runAccesses_unless
    rw [runAccesses_write]
    split
    · rename_i hc
      rw [hc.1]
      rfl
    · rfl

end BifrostDevice

/-- Where a thread is in its access: before the `spin_lock`, before the first bus operation, before
the write of `do_modify_regb` with the value that it read after the operations in `before`, or
before the `spin_unlock` with the value that it returns. -/
inductive Phase where
  | waiting
  | locked
  | fetched (v : BitVec 32) (before : List BusOp)
  | accessed (v : BitVec 32)

/-- An ioctl under way: the accesses to be made, of which the first is the present one, and the
values read so far. -/
structure Call where
  todo : List Access
  phase : Phase
  values : List (BitVec 32)

/-- A `MODIFY_REGB` that has written: the bus operations before its read and before its write, and
the value that it returns. -/
structure Modified where
  bar : Bar
  offset : BitVec 32
  clear : BitVec 32
  set : BitVec 32
  before : List BusOp
  atWrite : List BusOp
  value : BitVec 32

/-- The bus, the holders of the spinlocks of the BARs and the ioctl of each thread, with the history
of the `MODIFY_REGB` ioctls. -/
structure Concurrent where
  log : List BusOp
  holder : Bar → Option ℕ
  calls : ℕ → Option Call
  modified : List Modified

inductive IoctlLabel where
  | enter (t : ℕ) (sys : Services) (req : Request)
  | spinLock (t : ℕ)
  | access (t : ℕ)
  | spinUnlock (t : ℕ)
  | leave (t : ℕ)

namespace Concurrent
variable (dev : BifrostDevice) (hw : Hardware)

def setCall (s : Concurrent) (t : ℕ) (c : Option Call) : Concurrent :=
  { s with calls := Function.update s.calls t c }

def first (s : Concurrent) (t : ℕ) (a : Access) (rest : List Access) (vs : List (BitVec 32)) :
    Concurrent :=
  match a with
  | .read b offset =>
    let r := (dev.regb b).fns.rd hw b offset s.log
    { s.setCall t (some ⟨a :: rest, .accessed r.1, vs⟩) with log := r.2 }
  | .write b offset value =>
    { s.setCall t (some ⟨a :: rest, .accessed value, vs⟩) with
      log := (dev.regb b).fns.wr b offset value s.log }
  | .modify b offset _ _ =>
    let r := (dev.regb b).fns.rd hw b offset s.log
    { s.setCall t (some ⟨a :: rest, .fetched r.1 s.log, vs⟩) with log := r.2 }

def modify (s : Concurrent) (t : ℕ) (b : Bar) (offset clear set v : BitVec 32)
    (before : List BusOp) (rest : List Access) (vs : List (BitVec 32)) : Concurrent :=
  let value := (v &&& ~~~clear) ||| set
  { s.setCall t (some ⟨.modify b offset clear set :: rest, .accessed value, vs⟩) with
    log := (dev.regb b).fns.wr b offset value s.log
    modified := s.modified ++ [⟨b, offset, clear, set, before, s.log, value⟩] }

def step (s : Concurrent) : IoctlLabel → Option Concurrent
  | .enter t sys req =>
    match s.calls t with
    | none => some (s.setCall t (some ⟨dev.accesses sys req, .waiting, []⟩))
    | some _ => none
  | .spinLock t =>
    match s.calls t with
    | some ⟨a :: rest, .waiting, vs⟩ =>
      if s.holder a.bar = none then
        some { s.setCall t (some ⟨a :: rest, .locked, vs⟩) with
          holder := Function.update s.holder a.bar (some t) }
      else none
    | _ => none
  | .access t =>
    match s.calls t with
    | some ⟨a :: rest, .locked, vs⟩ => some (s.first dev hw t a rest vs)
    | some ⟨.modify b offset clear set :: rest, .fetched v before, vs⟩ =>
      some (s.modify dev t b offset clear set v before rest vs)
    | _ => none
  | .spinUnlock t =>
    match s.calls t with
    | some ⟨a :: rest, .accessed v, vs⟩ =>
      some { s.setCall t (some ⟨rest, .waiting, vs ++ a.returned v⟩) with
        holder := Function.update s.holder a.bar none }
    | _ => none
  | .leave t =>
    match s.calls t with
    | some ⟨[], .waiting, _⟩ => some (s.setCall t none)
    | _ => none

def initial : Concurrent := ⟨[], fun _ => none, fun _ => none, []⟩

end Concurrent

def ioctls (dev : BifrostDevice) (hw : Hardware) : Machine Concurrent IoctlLabel where
  start s := s = .initial
  step s := s.step dev hw

end BifrostModule.Regb
