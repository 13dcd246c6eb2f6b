import BifrostModule.Regb.DeviceMemory

/-! # Register ioctls of `bifrost_cdev.c`

The six register requests of `bifrost_unlocked_ioctl`. Each function threads the
log of bus accesses through, so that what it touches can be read off the end.
-/
namespace BifrostModule.Regb
open Foundation

namespace BifrostDevice
variable (dev : BifrostDevice) (hw : Hardware)

/-- `do_modify_regb`, whose read and write are under one lock. -/
def doModifyRegb (bar offset clear set : BitVec 32) (log : List BusOp) :
    Except Errno (BitVec 32) × List BusOp :=
  match dev.checkBarAccess bar (rdAccess ||| wrAccess) offset with
  | .error e => (.error e, log)
  | .ok b =>
    let mem := dev.regb b
    let (v, log) := mem.fns.rd hw b offset log
    let v := (v &&& ~~~clear) ||| set
    (.ok v, mem.fns.wr b offset v log)

def doReadRegb (bar offset : BitVec 32) (log : List BusOp) :
    Except Errno (BitVec 32) × List BusOp :=
  match dev.checkBarAccess bar rdAccess offset with
  | .error e => (.error e, log)
  | .ok b =>
    let (v, log) := (dev.regb b).fns.rd hw b offset log
    (.ok v, log)

def doWriteRegb (bar offset value : BitVec 32) (log : List BusOp) :
    Except Errno Unit × List BusOp :=
  match dev.checkBarAccess bar wrAccess offset with
  | .error e => (.error e, log)
  | .ok b => (.ok (), (dev.regb b).fns.wr b offset value log)

/-- The loop of `READ_RANGE_REGB` and `READ_REPEAT_REGB` from index `i` on, with `n` registers
to go. It returns at the first read that fails. -/
def readLoop (bar offset incr : BitVec 32) :
    ℕ → BitVec 32 → List BusOp → Except Errno (List (BitVec 32)) × List BusOp
  | 0, _, log => (.ok [], log)
  | n + 1, i, log =>
    match dev.doReadRegb hw bar (offset + i * incr) log with
    | (.error e, log) => (.error e, log)
    | (.ok v, log) =>
      let (rest, log) := readLoop bar offset incr n (i + 1) log
      (rest.map (v :: ·), log)

/-- The loop of `WRITE_REPEAT_REGB` over what is left of `buf`. -/
def writeLoop (bar offset : BitVec 32) :
    List (BitVec 32) → List BusOp → Except Errno Unit × List BusOp
  | [], log => (.ok (), log)
  | value :: buf, log =>
    match dev.doWriteRegb bar offset value log with
    | (.error e, log) => (.error e, log)
    | (.ok (), log) => writeLoop bar offset buf log

end BifrostDevice

/-- A register request; `buf` is what `kmalloc`'s buffer holds after `copy_from_user`. -/
inductive Request where
  | readRegb (bar offset : BitVec 32)
  | writeRegb (bar offset value : BitVec 32)
  | modifyRegb (bar offset clear set : BitVec 32)
  | readRangeRegb (bar offset count : BitVec 32)
  | readRepeatRegb (bar offset count : BitVec 32)
  | writeRepeatRegb (bar offset count : BitVec 32) (buf : ℕ → BitVec 32)

structure Services where
  argCopied : Bool
  allocated : Bool
  bufCopied : Bool
  resultCopied : Bool

namespace BifrostDevice
variable (dev : BifrostDevice) (hw : Hardware)

/-- The common end of the requests that copy their results out. -/
def copyOut (sys : Services) {α : Type} : Except Errno α → Except Errno α
  | .error e => .error e
  | .ok v => if sys.resultCopied then .ok v else .error .EFAULT

/-- `READ_RANGE_REGB` and `READ_REPEAT_REGB`, which differ in the increment only. -/
def readRange (sys : Services) (bar offset count incr : BitVec 32) (log : List BusOp) :
    Except Errno (List (BitVec 32)) × List BusOp :=
  if ¬ (sys.argCopied ∧ sys.allocated) then (.error .ENOMEM, log)
  else
    let (rc, log) := dev.readLoop hw bar offset incr count.toNat 0 log
    (copyOut sys rc, log)

/-- `WRITE_REPEAT_REGB`. The result of a failed `copy_from_user` survives only if the loop,
which assigns `rc` again, does not run. -/
def writeRepeat (sys : Services) (bar offset count : BitVec 32) (buf : ℕ → BitVec 32)
    (log : List BusOp) : Except Errno (List (BitVec 32)) × List BusOp :=
  if ¬ (sys.argCopied ∧ sys.allocated) then (.error .ENOMEM, log)
  else if count = 0 ∧ ¬ sys.bufCopied then (.error .EFAULT, log)
  else
    let (rc, log) := dev.writeLoop bar offset ((List.range count.toNat).map buf) log
    (rc.map fun _ => [], log)

def ioctl (sys : Services) (log : List BusOp) :
    Request → Except Errno (List (BitVec 32)) × List BusOp
  | .readRegb bar offset =>
    if ¬ sys.argCopied then (.error .ENOMEM, log)
    else
      let (rc, log) := dev.doReadRegb hw bar offset log
      (copyOut sys (rc.map fun v => [v]), log)
  | .writeRegb bar offset value =>
    if ¬ sys.argCopied then (.error .ENOMEM, log)
    else
      let (rc, log) := dev.doWriteRegb bar offset value log
      (rc.map fun _ => [], log)
  | .modifyRegb bar offset clear set =>
    if ¬ sys.argCopied then (.error .EFAULT, log)
    else
      let (rc, log) := dev.doModifyRegb hw bar offset clear set log
      (copyOut sys (rc.map fun v => [v]), log)
  | .readRangeRegb bar offset count => dev.readRange hw sys bar offset count 4 log
  | .readRepeatRegb bar offset count => dev.readRange hw sys bar offset count 0 log
  | .writeRepeatRegb bar offset count buf => dev.writeRepeat sys bar offset count buf log

end BifrostDevice
end BifrostModule.Regb
