import BifrostModule.Regb.Inside

/-! # Register requests only touch the BAR that grants them

Every access of a register ioctl is on an enabled BAR, the one that the request
names, with the rights that the request needs.
-/
namespace BifrostModule.Regb

namespace BifrostDevice
variable (dev : BifrostDevice) (hw : Hardware)

def AllGranted (bar access : BitVec 32) (log : List BusOp) : Prop :=
  ∀ op ∈ log, dev.Grants bar access op.bar

variable {dev} {bar access offset : BitVec 32} {log : List BusOp}

theorem AllGranted.snoc {op : BusOp} {b : Bar} (h : dev.AllGranted bar access log)
    (hop : op.bar = b) (hb : dev.Grants bar access b) :
    dev.AllGranted bar access (log ++ [op]) := by
  intro op' hop'
  rcases List.mem_append.mp hop' with hlog | hlast
  · exact h op' hlog
  · rw [List.mem_singleton.mp hlast, hop]
    exact hb

theorem allGranted_doReadRegb (h : dev.AllGranted bar rdAccess log) :
    dev.AllGranted bar rdAccess (dev.doReadRegb hw bar offset log).2 := by
  unfold doReadRegb
  rcases dev.checkBarAccess_cases bar rdAccess offset with ⟨b, hb, hg, -⟩ | ⟨e, he, -⟩
  · simp only [hb, AccessFns.rd_log]
    exact h.snoc (AccessFns.readOp_bar _ _ _) hg
  · simp only [he]
    exact h

theorem allGranted_doWriteRegb {value : BitVec 32} (h : dev.AllGranted bar wrAccess log) :
    dev.AllGranted bar wrAccess (dev.doWriteRegb bar offset value log).2 := by
  unfold doWriteRegb
  rcases dev.checkBarAccess_cases bar wrAccess offset with ⟨b, hb, hg, -⟩ | ⟨e, he, -⟩
  · simp only [hb, AccessFns.wr_log]
    exact h.snoc (AccessFns.writeOp_bar _ _ _ _) hg
  · simp only [he]
    exact h

theorem allGranted_doModifyRegb {clear set : BitVec 32}
    (h : dev.AllGranted bar (rdAccess ||| wrAccess) log) :
    dev.AllGranted bar (rdAccess ||| wrAccess)
      (dev.doModifyRegb hw bar offset clear set log).2 := by
  unfold doModifyRegb
  rcases dev.checkBarAccess_cases bar (rdAccess ||| wrAccess) offset with
    ⟨b, hb, hg, -⟩ | ⟨e, he, -⟩
  · simp only [hb, AccessFns.rd_log, AccessFns.wr_log]
    exact (h.snoc (AccessFns.readOp_bar _ _ _) hg).snoc (AccessFns.writeOp_bar _ _ _ _) hg
  · simp only [he]
    exact h

theorem allGranted_readLoop {incr : BitVec 32} (n : ℕ) (i : BitVec 32)
    (h : dev.AllGranted bar rdAccess log) :
    dev.AllGranted bar rdAccess (dev.readLoop hw bar offset incr n i log).2 := by
  induction n generalizing i log with
  | zero => exact h
  | succ n ih =>
    have hone : dev.AllGranted bar rdAccess (dev.doReadRegb hw bar (offset + i * incr) log).2 :=
      allGranted_doReadRegb hw h
    rw [readLoop]
    split
    · rename_i heq
      rw [heq] at hone
      exact hone
    · rename_i heq
      rw [heq] at hone
      exact ih (i + 1) hone

theorem allGranted_writeLoop (buf : List (BitVec 32)) (h : dev.AllGranted bar wrAccess log) :
    dev.AllGranted bar wrAccess (dev.writeLoop bar offset buf log).2 := by
  induction buf generalizing log with
  | nil => exact h
  | cons value buf ih =>
    have hone : dev.AllGranted bar wrAccess (dev.doWriteRegb bar offset value log).2 :=
      allGranted_doWriteRegb h
    rw [writeLoop]
    split
    · rename_i heq
      rw [heq] at hone
      exact hone
    · rename_i heq
      rw [heq] at hone
      exact ih hone

end BifrostDevice

theorem ioctl_allGranted (dev : BifrostDevice) (hw : Hardware) (sys : Services) (req : Request) :
    dev.AllGranted req.bar req.access (dev.ioctl hw sys [] req).2 := by
  have hnil : ∀ bar access, dev.AllGranted bar access [] := fun _ _ _ h => nomatch h
  cases req with
  | readRegb bar offset =>
    simp only [BifrostDevice.ioctl]
    split
    · exact hnil _ _
    · exact BifrostDevice.allGranted_doReadRegb hw (hnil _ _)
  | writeRegb bar offset value =>
    simp only [BifrostDevice.ioctl]
    split
    · exact hnil _ _
    · exact BifrostDevice.allGranted_doWriteRegb (hnil _ _)
  | modifyRegb bar offset clear set =>
    simp only [BifrostDevice.ioctl]
    split
    · exact hnil _ _
    · exact BifrostDevice.allGranted_doModifyRegb hw (hnil _ _)
  | readRangeRegb bar offset count =>
    simp only [BifrostDevice.ioctl, BifrostDevice.readRange]
    split
    · exact hnil _ _
    · exact BifrostDevice.allGranted_readLoop hw _ _ (hnil _ _)
  | readRepeatRegb bar offset count =>
    simp only [BifrostDevice.ioctl, BifrostDevice.readRange]
    split
    · exact hnil _ _
    · exact BifrostDevice.allGranted_readLoop hw _ _ (hnil _ _)
  | writeRepeatRegb bar offset count buf =>
    simp only [BifrostDevice.ioctl, BifrostDevice.writeRepeat]
    split
    · exact hnil _ _
    · split
      · exact hnil _ _
      · exact BifrostDevice.allGranted_writeLoop _ (hnil _ _)

end BifrostModule.Regb
