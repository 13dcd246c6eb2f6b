import BifrostModule.Membus.Sdram

/-! # The memory-bus branch of `bifrost_do_xfer`

The two copies return the number of bytes that they leave uncopied, every other call
a negative errno, and all of them go through the one variable `rc`.
-/
namespace BifrostModule.Membus
open Foundation Regb

/-- Outcomes of the kernel services: whether the argument is copied in and the buffer allocated, and
the bytes that `copy_from_user` or `copy_to_user` leaves uncopied. -/
structure XferServices where
  argCopied : Bool
  allocated : Bool
  uncopied : ℕ

/-- The return value, the bus operations so far, the bytes copied to the user, and the calls of
`kcalloc` that succeeded and of `kfree`. -/
structure XferOutcome where
  rc : ℤ
  log : List BusOp
  sent : List (BitVec 8)
  allocated : ℕ
  freed : ℕ

def toInt (n : ℕ) : ℤ := (BitVec.ofNat 32 n).toInt

def membusFree (rc : ℤ) (sent : List (BitVec 8)) (log : List BusOp) : XferOutcome :=
  ⟨rc, log, sent, 1, 1⟩

/-- `bifrost_do_xfer` in memory-bus mode; `user` holds the bytes at `xfer.system`. -/
def doXfer (hw : Hardware) (sys : XferServices) (user : List (BitVec 8)) (xfer : Dma.Transfer)
    (dir : Dma.Direction) (log : List BusOp) : XferOutcome :=
  if ¬ sys.argCopied then ⟨Errno.toInt .EFAULT, log, [], 0, 0⟩
  else if ¬ sys.allocated then ⟨Errno.toInt .ENOMEM, log, [], 0, 0⟩
  else
    let buf := List.replicate xfer.size.toNat 0
    let copied := xfer.size.toNat - sys.uncopied
    let rc := toInt sys.uncopied
    match dir with
    | .down =>
      let buf := Buffer.write buf 0 (user.take copied)
      if rc < 0 then membusFree rc [] log
      else
        let r := doMembusXfer hw buf xfer (upDown .down) log
        match r.1 with
        | .error e => membusFree e.toInt [] r.2
        | .ok _ => membusFree 0 [] r.2
    | .up =>
      let r := doMembusXfer hw buf xfer (upDown .up) log
      match r.1 with
      | .error e => membusFree e.toInt [] r.2
      | .ok buf => membusFree rc (buf.take copied) r.2

/-- The argument, the buffer and every byte are there. -/
def XferServices.Complete (sys : XferServices) : Prop :=
  sys.argCopied ∧ sys.allocated ∧ sys.uncopied = 0

/-- The outcome reports an incomplete copy, and the FPGA has not seen data that was not there. -/
structure Reports (sys : XferServices) (dir : Dma.Direction) (log : List BusOp)
    (o : XferOutcome) : Prop where
  zero : o.rc = 0 ↔ sys.Complete
  errno : o.rc ≠ 0 → IsErrno o.rc
  untouched : dir = .down → ¬ sys.Complete → o.log = log
  freed : o.freed = o.allocated

variable {hw : Hardware} {sys : XferServices} {user : List (BitVec 8)} {xfer : Dma.Transfer}
  {dir : Dma.Direction} {log : List BusOp}

theorem toInt_eq_zero {n : ℕ} (hn : n < 2 ^ 32) : toInt n = 0 ↔ n = 0 := by
  rw [toInt, BitVec.toInt_eq_toNat_bmod, BitVec.toNat_ofNat, Nat.mod_eq_of_lt hn, Int.bmod_def]
  split <;> omega

/-- A number of bytes becomes an errno when it is that close to 4 GiB. -/
theorem isErrno_toInt {n : ℕ} (hn : n < 2 ^ 32) : IsErrno (toInt n) ↔ 2 ^ 32 - 4095 ≤ n := by
  rw [IsErrno, maxErrno, toInt, BitVec.toInt_eq_toNat_bmod, BitVec.toNat_ofNat,
    Nat.mod_eq_of_lt hn, Int.bmod_def]
  split <;> omega

theorem doXfer_down (harg : sys.argCopied = true) (hbuf : sys.allocated = true) :
    (doXfer hw sys user xfer .down log).rc = min (toInt sys.uncopied) 0 := by
  simp only [doXfer, harg, hbuf, not_true_eq_false, if_false]
  split
  · rename_i hneg
    exact (min_eq_left hneg.le).symm
  · rename_i hneg
    simp only [doMembusXfer, if_true]
    exact (min_eq_right (not_lt.mp hneg)).symm

theorem doXfer_down_log (harg : sys.argCopied = true) (hbuf : sys.allocated = true)
    (hneg : toInt sys.uncopied < 0) : (doXfer hw sys user xfer .down log).log = log := by
  simp only [doXfer, harg, hbuf, not_true_eq_false, if_false, hneg, if_true, membusFree]

theorem doXfer_up (harg : sys.argCopied = true) (hbuf : sys.allocated = true) :
    (doXfer hw sys user xfer .up log).rc = toInt sys.uncopied := by
  simp only [doXfer, harg, hbuf, not_true_eq_false, if_false, doMembusXfer_up, membusFree]

theorem doXfer_freed : (doXfer hw sys user xfer dir log).freed =
    (doXfer hw sys user xfer dir log).allocated := by
  unfold doXfer
  cases dir with
  | up => split_ifs <;> rfl
  | down => split_ifs <;> first | rfl | (dsimp only; split_ifs <;> rfl)

/-- A request whose argument or buffer is not there is refused as it should be. -/
theorem reports_refused (h : ¬ (sys.argCopied ∧ sys.allocated)) :
    Reports sys dir log (doXfer hw sys user xfer dir log) := by
  have hcomplete : ¬ sys.Complete := fun hc => h ⟨hc.1, hc.2.1⟩
  have hrefused : ∃ e : Errno, doXfer hw sys user xfer dir log = ⟨e.toInt, log, [], 0, 0⟩ := by
    by_cases harg : sys.argCopied = true
    · have hbuf : ¬ sys.allocated = true := fun hbuf => h ⟨harg, hbuf⟩
      exact ⟨.ENOMEM, by rw [doXfer, if_neg (not_not.mpr harg), if_pos hbuf]⟩
    · exact ⟨.EFAULT, by rw [doXfer, if_pos harg]⟩
  obtain ⟨e, he⟩ := hrefused
  rw [he]
  exact ⟨iff_of_false e.toInt_neg.ne hcomplete, fun _ => e.isErrno, fun _ _ => rfl, rfl⟩

/-- A request reports exactly the copies that leave nothing, or so much that the rest reads as an
errno. -/
theorem doXfer_reports_iff (hle : sys.uncopied ≤ xfer.size.toNat) :
    Reports sys dir log (doXfer hw sys user xfer dir log) ↔
      ¬ (sys.argCopied ∧ sys.allocated) ∨ sys.uncopied = 0 ∨ 2 ^ 32 - 4095 ≤ sys.uncopied := by
  have hlt : sys.uncopied < 2 ^ 32 := hle.trans_lt xfer.size.isLt
  by_cases hsys : sys.argCopied ∧ sys.allocated
  · obtain ⟨harg, hbuf⟩ := hsys
    have hcomplete : sys.Complete ↔ sys.uncopied = 0 := by
      simp only [XferServices.Complete, harg, hbuf, true_and]
    rw [← isErrno_toInt hlt]
    simp only [harg, hbuf, and_self, not_true_eq_false, false_or]
    constructor
    · intro h
      by_cases hzero : sys.uncopied = 0
      · exact .inl hzero
      · right
        have hne : (doXfer hw sys user xfer dir log).rc ≠ 0 :=
          fun hrc => hzero (hcomplete.mp (h.zero.mp hrc))
        have herrno := h.errno hne
        cases dir with
        | up => rwa [doXfer_up harg hbuf] at herrno
        | down =>
          -- The minimum is negative, so it is not 0.
          rw [doXfer_down harg hbuf] at herrno
          obtain ⟨hlow, hneg⟩ := herrno
          rcases min_lt_iff.mp hneg with hrc | habs
          · rw [min_eq_left hrc.le] at hlow
            exact ⟨hlow, hrc⟩
          · exact absurd habs (lt_irrefl 0)
    · intro h
      have hrc : (doXfer hw sys user xfer dir log).rc = toInt sys.uncopied := by
        cases dir with
        | up => exact doXfer_up harg hbuf
        | down =>
          rw [doXfer_down harg hbuf]
          rcases h with hzero | herrno
          · rw [hzero]
            rfl
          · exact min_eq_left herrno.2.le
      refine ⟨?_, ?_, ?_, doXfer_freed⟩
      · rw [hrc, hcomplete, toInt_eq_zero hlt]
      · intro hne
        rw [hrc] at hne ⊢
        exact h.resolve_left fun hzero => hne ((toInt_eq_zero hlt).mpr hzero)
      · rintro rfl hnot
        have herrno := h.resolve_left fun hzero => hnot (hcomplete.mpr hzero)
        exact doXfer_down_log harg hbuf herrno.2
  · exact iff_of_true (reports_refused hsys) (.inl hsys)

theorem doXfer_reports_four : Reports ⟨true, true, 0⟩ .up []
    (doXfer (fun _ _ => 0) ⟨true, true, 0⟩ [] ⟨0, 16, 4⟩ .up []) :=
  (doXfer_reports_iff (by decide)).mpr (.inr (.inl rfl))

/-- A downward transfer with two bytes missing writes zeros in their place and returns 0. -/
theorem incomplete_copy_written : ¬ ∀ (hw : Hardware) (sys : XferServices)
    (user : List (BitVec 8)) (xfer : Dma.Transfer) (dir : Dma.Direction) (log : List BusOp),
    sys.uncopied ≤ xfer.size.toNat →
      Reports sys dir log (doXfer hw sys user xfer dir log) := by
  intro h
  have hreports := h (fun _ _ => 0) ⟨true, true, 2⟩ [1, 2, 3, 4] ⟨0, 16, 4⟩ .down [] (by decide)
  have hzero : (doXfer (fun _ _ => 0) ⟨true, true, 2⟩ [1, 2, 3, 4] ⟨0, 16, 4⟩ .down []).rc = 0 := by
    decide
  exact absurd (hreports.zero.mp hzero).2.2 (by decide)

end BifrostModule.Membus
